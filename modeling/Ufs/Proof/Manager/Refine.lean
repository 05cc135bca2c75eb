import Ufs.Proof.Manager.Pipeline

/-!
# The journal manager is a pipeline

`view` forgets the control of a manager. Every step of the manager leaves its pipeline as it is or
makes a `Move` of it (`step_simulates`), whatever the shared `JSuper` answers. So in every run of
any number of managers on one `JSuper` the trace of a manager is proper, and its buffers are
accounted for (`manager_runs`).
-/

namespace Ufs.Proof.Manager

open Impl
open List Option
open ManagedEntry (pinnedMem state)
open JournalManager (callable finish idle jsuperLoop new releasePinnedMem step writeComplete writeJSuper)

/-- The entry that is being processed. -/
def activeOf : Option Running → Option ℕ
  | some (.processJournalEntry je) => some je
  | _ => none

/-- The entry that has its slot and is not yet started. -/
def slottedOf : Option Running → Option ℕ
  | some (.slotAcquired je _ _ _) => some je
  | _ => none

/-- The pipeline of a manager. -/
def view (m : JournalManager) : Pipeline where
  states := m.entries.map ManagedEntry.state
  pins := m.entries.map ManagedEntry.pinnedMem
  queue := m.jeQueue
  free := m.pinnedMemQueue
  inFlight := m.inFlight
  active := activeOf m.now
  slotted := slottedOf m.now
  trace := m.trace

/-! ## Changing one entry -/

section Modify

variable {α β : Type*} (l : List α) (i : ℕ) {f : α → α} {g : α → β}

theorem map_modify_same (h : ∀ a, g (f a) = g a) : (l.modify i f).map g = l.map g := by
  apply ext_getElem?
  intro j
  simp only [List.getElem?_map, List.getElem?_modify]
  cases l[j]? with
  | none => rfl
  | some a => by_cases hij : i = j <;> simp [hij, h]

theorem map_modify_const {b : β} (h : ∀ a, g (f a) = b) : (l.modify i f).map g = (l.map g).set i b := by
  apply ext_getElem?
  intro j
  simp only [List.getElem?_map, List.getElem?_modify, List.getElem?_set, length_map]
  by_cases hij : i = j
  · subst hij
    by_cases hlt : i < l.length
    · simp [hlt, h]
    · simp [hlt]
  · simp [hij]

end Modify

variable {e : ManagedEntry}

section Entries

variable (m : JournalManager) (je : ℕ)

theorem states_setState (st : JournalEntryState) : (m.setState je st).entries.map state =
    (m.entries.map state).set je st :=
  map_modify_const _ _ fun _ => rfl

theorem pins_setState (st : JournalEntryState) : (m.setState je st).entries.map pinnedMem = m.entries.map pinnedMem :=
  map_modify_same _ _ fun _ => rfl

theorem states_acquirePinnedMem : (m.acquirePinnedMem je).entries.map state = m.entries.map state :=
  map_modify_same _ _ fun _ => rfl

theorem pins_acquirePinnedMem : (m.acquirePinnedMem je).entries.map pinnedMem =
    (m.entries.map pinnedMem).set je m.pinnedMemQueue.head? :=
  map_modify_const _ _ fun _ => rfl

theorem states_eq (he : m.entries[je]? = some e) : (view m).states[je]? = some e.state := by
  simp [view, he]

theorem states_set_self (he : m.entries[je]? = some e) : (view m).states.set je e.state = (view m).states := by
  obtain ⟨hlt, hst⟩ := List.getElem?_eq_some_iff.1 (states_eq m je he)
  rw [← hst, set_getElem_self]

theorem view_releasePinnedMem : view (m.releasePinnedMem je) = (view m).release je := by
  have hp : (view m).pins[je]? = m.entries[je]?.map pinnedMem := List.getElem?_map
  unfold releasePinnedMem Pipeline.release
  rw [hp]
  cases m.entries[je]? with
  | none => rfl
  | some e =>
    cases hb : e.pinnedMem with
    | none => simp [hb]
    | some b =>
      simp only [bind_some, hb, map_some]
      exact Pipeline.ext (map_modify_same _ _ fun _ => rfl) (map_modify_const _ _ fun _ => rfl) rfl rfl rfl rfl rfl rfl

end Entries

/-- What a step may do to a manager: nothing that the pipeline shows, or a move of it. -/
def Simulates (m m' : JournalManager) : Prop :=
  m'.flushSupported = m.flushSupported ∧ (view m' = view m ∨ Move m.flushSupported (view m) (view m'))

variable {js js' : JSuper} {m m' : JournalManager} {je : ℕ}

theorem view_quiet {f : Option Running} (hn : m.now = f) (ha : activeOf f = none) (hs : slottedOf f = none) :
    (view m).active = none ∧ (view m).slotted = none := by
  subst hn
  exact ⟨ha, hs⟩

theorem view_processing (hn : m.now = some (.processJournalEntry je)) :
    (view m).active = some je ∧ (view m).slotted = none := by
  simp [view, hn, activeOf, slottedOf]

theorem view_run {f : Option Running} (ha : activeOf f = activeOf m.now) (hs : slottedOf f = slottedOf m.now) :
    view (m.run f) = view m := Pipeline.ext rfl rfl rfl rfl rfl ha hs rfl

theorem Simulates.of_move {v : Pipeline} (hf : m'.flushSupported = m.flushSupported)
    (h : Move m.flushSupported (view m) v) (hv : view m' = v) : Simulates m m' := ⟨hf, .inr (hv ▸ h)⟩

theorem failFront_simulates {q : List ℕ} (hq : m.jeQueue = je :: q) (hn : m.now = some .tryNextTransaction) :
    Simulates m (m.failFront je) := by
  obtain ⟨ha, hs⟩ := view_quiet (f := some .tryNextTransaction) hn rfl rfl
  refine Simulates.of_move rfl (Move.fail hq hs ha) ?_
  refine Pipeline.ext (states_setState m je _) (pins_setState m je _) ?_ rfl rfl rfl hs.symm rfl
  show m.jeQueue.tail = q
  rw [hq, tail_cons]

theorem Simulates.of_view {m₁ : JournalManager} (h : Simulates m₁ m') (hv : view m₁ = view m)
    (hf : m₁.flushSupported = m.flushSupported) : Simulates m m' := by
  unfold Simulates at h ⊢
  rw [← hv, ← hf]
  exact h

theorem acquire_simulates {q : List ℕ} {idx n : ℕ} {w : Bool} (hq : m.jeQueue = je :: q)
    (hp : m.pinnedMemQueue ≠ []) (hn : m.now = some .tryNextTransaction) :
    Simulates m ((m.emit (.acquired je)).run (some (.slotAcquired je idx n w))) := by
  obtain ⟨ha, hs⟩ := view_quiet (f := some .tryNextTransaction) hn rfl rfl
  refine Simulates.of_move rfl (Move.acquire hq hp hs ha) ?_
  exact Pipeline.ext rfl rfl rfl rfl rfl ha.symm rfl rfl

theorem tryNextTransaction_simulates (hn : m.now = some .tryNextTransaction) :
    Simulates m (m.tryNextTransaction js).2 := by
  have hquiet : ∀ m1 : JournalManager, m1.now = some .tryNextTransaction → view (m1.run none) = view m1 :=
    fun m1 h => view_run (by rw [h]; rfl) (by rw [h]; rfl)
  unfold JournalManager.tryNextTransaction
  split
  · exact ⟨rfl, .inl (hquiet m hn)⟩
  · rename_i je hhead
    obtain ⟨q, hq⟩ := List.head?_eq_some_iff.1 hhead
    split
    · exact ⟨rfl, .inl (hquiet m hn)⟩
    · rename_i hp
      -- from here on the entry has been reset, which the pipeline does not show
      generalize hm1 : (m.modify je fun e => { e with startBlock := 0, nblocks := 0 }) = m1
      have hv : view m1 = view m := by
        rw [← hm1]
        exact Pipeline.ext (map_modify_same _ _ fun _ => rfl) (map_modify_same _ _ fun _ => rfl) rfl rfl rfl rfl rfl rfl
      have hf : m1.flushSupported = m.flushSupported := by rw [← hm1]; rfl
      have hq1 : m1.jeQueue = je :: q := by rw [← hm1]; exact hq
      have hp1 : m1.pinnedMemQueue ≠ [] := by rw [← hm1]; exact hp
      have hn1 : m1.now = some .tryNextTransaction := by rw [← hm1]; exact hn
      refine Simulates.of_view ?_ hv hf
      simp only
      split
      · exact failFront_simulates hq1 hn1
      · split
        · exact failFront_simulates hq1 hn1
        · split
          · exact ⟨rfl, .inl (hquiet m1 hn1)⟩
          · exact acquire_simulates hq1 hp1 hn1

theorem startEntry_simulates (h : Inv m.flushSupported (view m)) {idx n : ℕ}
    (hn : m.now = some (.slotAcquired je idx n false)) : Simulates m (m.startEntry js je idx n) := by
  have hs : (view m).slotted = some je := by simp [view, hn, slottedOf]
  obtain ⟨hhead, hfree, ha⟩ := h.ids.slot je hs
  obtain ⟨q, hq⟩ := List.head?_eq_some_iff.1 hhead
  obtain ⟨b, fr, hfr⟩ := exists_cons_of_ne_nil hfree
  have hq' : m.jeQueue = je :: q := hq
  have hfr' : m.pinnedMemQueue = b :: fr := hfr
  refine Simulates.of_move rfl (Move.start hs hq hfr ha) ?_
  refine Pipeline.ext ?_ ?_ ?_ ?_ rfl rfl rfl rfl
  · refine (states_acquirePinnedMem _ je).trans ?_
    show (m.entries.modify je _).map state = _
    exact map_modify_const _ _ fun _ => rfl
  · refine (pins_acquirePinnedMem _ je).trans ?_
    show ((m.entries.modify je _).map pinnedMem).set je m.pinnedMemQueue.head? = _
    rw [hfr', map_modify_same]
    · rfl
    · exact fun _ => rfl
  · show m.jeQueue.tail = q
    rw [hq', tail_cons]
  · show m.pinnedMemQueue.tail = fr
    rw [hfr', tail_cons]

theorem finish_simulates {ok : Bool} (hn : m.now = some (.processJournalEntry je))
    (he : m.entries[je]? = some e) (hst : e.state = if ok then .success else .failure) :
      Simulates m (m.finish je e ok) := by
  obtain ⟨ha, hs⟩ := view_processing hn
  have hst' : (view m).states[je]? = some (if ok then .success else .failure) := hst ▸ states_eq m je he
  have hr := view_releasePinnedMem m je
  have hf : (m.releasePinnedMem je).flushSupported = m.flushSupported := by
    unfold releasePinnedMem
    split <;> rfl
  have htr : (view m).trace = (m.releasePinnedMem je).trace := by
    unfold releasePinnedMem
    split <;> rfl
  have hsl : ((view m).release je).slotted = none := (Pipeline.release_slotted _ _).trans hs
  have hmove := fun cb => @Move.finish m.flushSupported _ _ _ cb ha hs hst'
  rw [← hr] at hmove hsl
  unfold finish
  simp only
  split
  · refine Simulates.of_move hf (hmove true) ?_
    refine Pipeline.ext rfl rfl rfl rfl rfl rfl hsl.symm ?_
    show _ ++ _ = _ ++ _
    rw [htr]
  · refine Simulates.of_move hf (hmove false) ?_
    exact Pipeline.ext rfl rfl rfl rfl rfl rfl hsl.symm htr.symm

theorem submitIo_simulates {ev : JournalEvent} (hn : m.now = some (.processJournalEntry je))
    (he : m.entries[je]? = some e) (hev : Issues m.flushSupported je e.state e.state ev) :
      Simulates m (m.submitIo je ev) := by
  obtain ⟨ha, hs⟩ := view_processing hn
  refine Simulates.of_move rfl (Move.issue ha hs (states_eq m je he) hev) ?_
  exact Pipeline.ext (states_set_self m je he).symm rfl rfl rfl rfl rfl hs.symm rfl

theorem fallThrough_simulates (hn : m.now = some (.processJournalEntry je))
    (he : m.entries[je]? = some e) (hst : e.state = .flush) (hf : m.flushSupported = false) :
    Simulates m ((m.setState je .writeCommit).submitCommit je e) := by
  obtain ⟨ha, hs⟩ := view_processing hn
  have hev : Issues m.flushSupported je e.state .writeCommit _ :=
    hst ▸ Issues.fallThrough (u64Sub (e.startBlock + e.nblocks) 1) hf
  refine Simulates.of_move rfl (Move.issue ha hs (states_eq m je he) hev) ?_
  exact Pipeline.ext (states_setState m je _) (pins_setState m je _) rfl rfl rfl rfl hs.symm rfl

section

variable (h : Inv m.flushSupported (view m)) (hn : m.now = some (.processJournalEntry je))

include h hn

theorem processed_entry : ∃ e, m.entries[je]? = some e ∧ ((next je e.state).isSome ∨ e.state = .success ∨
    e.state = .failure) := by
  have ha : (view m).active = some je := by simp [view, hn, activeOf]
  have hlt : je < m.entries.length := by
    simpa [view] using h.ids.lt je (by simp [Pipeline.live, ha])
  have he : m.entries[je]? = some m.entries[je] := List.getElem?_eq_getElem hlt
  exact ⟨_, he, h.progress.working je ha _ (states_eq m je he)⟩

theorem processJournalEntry_simulates : Simulates m (m.processJournalEntry je) := by
  obtain ⟨e, he, hw⟩ := processed_entry h hn
  unfold JournalManager.processJournalEntry
  rw [he]
  simp only
  split
  · rename_i hst
    exact finish_simulates hn he hst
  · rename_i hst
    exact finish_simulates hn he hst
  · rename_i hst
    exact submitIo_simulates hn he (hst ▸ .body _ _)
  · rename_i hst
    split
    · rename_i hf
      exact submitIo_simulates hn he (hst ▸ .flush hf)
    · rename_i hf
      exact fallThrough_simulates hn he hst (Bool.eq_false_iff.2 hf)
  · rename_i hst
    exact submitIo_simulates hn he (hst ▸ .commit _)
  · -- the states of the switch are the only ones
    cases hst : e.state <;> simp_all [next]

end

theorem idle_now (h : m.idle = true) : m.now = none := by
  simp only [idle, Bool.and_eq_true, isNone_iff_eq_none] at h
  exact h.1

theorem callable_now (h : m.callable = true) : m.now = none := by
  simp only [callable, Bool.and_eq_true, isNone_iff_eq_none] at h
  exact h.1

theorem writeComplete_simulates (h : Inv m.flushSupported (view m)) {error : Bool} (hidle : m.idle = true)
    (hm : je ∈ m.inFlight) : Simulates m (m.writeComplete je error) := by
  have hn := idle_now hidle
  obtain ⟨ha, hs⟩ := view_quiet (f := none) hn rfl rfl
  have hlt : je < m.entries.length := by
    simpa [view] using h.ids.lt je (by simp [Pipeline.live, view, hm])
  have he : m.entries[je]? = some m.entries[je] := List.getElem?_eq_getElem hlt
  have hfl := (h.progress.flying je hm _ (states_eq m je he)).1
  generalize m.entries[je] = e at he hfl
  unfold writeComplete
  simp only
  split
  · refine Simulates.of_move rfl (Move.error hm ha hs) ?_
    exact Pipeline.ext (states_setState _ je _) (pins_setState _ je _) rfl rfl rfl rfl hs.symm rfl
  · have hview : ∀ (st' : JournalEntryState) (ev : JournalEvent), next je e.state = some (st', ev) →
        Simulates m (({ m.run (some (.processJournalEntry je)) with
          inFlight := m.inFlight.erase je }.setState je st').emit ev) := by
      intro st' ev hnx
      refine Simulates.of_move rfl (Move.complete hm ha hs (states_eq m je he) hnx) ?_
      exact Pipeline.ext (states_setState _ je _) (pins_setState _ je _) rfl rfl rfl rfl hs.symm rfl
    have he' : (m.run (some (.processJournalEntry je))).entries[je]?.map state = some e.state := by
      show m.entries[je]?.map _ = _
      rw [he, map_some]
    rw [he']
    split
    · rename_i hst
      exact hview _ _ (by simp [Option.some.inj hst, next])
    · rename_i hst
      exact hview _ _ (by simp [Option.some.inj hst, next])
    · rename_i hst
      exact hview _ _ (by simp [Option.some.inj hst, next])
    · cases hst : e.state <;> simp_all [next]

theorem view_writeJSuper : view (m.writeJSuper js).2 = view m ∧
    (m.writeJSuper js).2.flushSupported = m.flushSupported := by
  unfold writeJSuper
  split <;> exact ⟨rfl, rfl⟩

theorem advanceRunning_simulates (h : Inv m.flushSupported (view m)) {f : Running} (hn : m.now = some f) :
    Simulates m (m.advanceRunning js f).2 := by
  have hjs := @view_writeJSuper js m
  have hrun : ∀ f', activeOf f' = activeOf m.now → slottedOf f' = slottedOf m.now →
    view ((m.writeJSuper js).2.run f') = view m := by
    intro f' ha hs
    have hact : activeOf (m.writeJSuper js).2.now = activeOf m.now := congrArg Pipeline.active hjs.1
    have hsl : slottedOf (m.writeJSuper js).2.now = slottedOf m.now := congrArg Pipeline.slotted hjs.1
    rw [view_run (ha.trans hact.symm) (hs.trans hsl.symm)]
    exact hjs.1
  cases f with
  | tryNextTransaction => exact tryNextTransaction_simulates hn
  | slotAcquired je idx n w =>
    cases w with
    | true => exact ⟨hjs.2, .inl (hrun _ (by rw [hn]; rfl) (by rw [hn]; rfl))⟩
    | false => exact startEntry_simulates h hn
  | processJournalEntry je => exact processJournalEntry_simulates h hn
  | writeJSuper => exact ⟨hjs.2, .inl (hrun _ (by rw [hn]; rfl) (by rw [hn]; rfl))⟩
  | release k ts => exact ⟨rfl, .inl (view_run (by rw [hn]; rfl) (by rw [hn]; rfl))⟩
  | setLast ts => exact ⟨rfl, .inl (view_run (by rw [hn]; rfl) (by rw [hn]; rfl))⟩

theorem submit_simulates {bodySize : ℕ} {cb : Bool} (hn : m.now = none) :
    Simulates m { (m.emit (.submitted m.entries.length)).run (some .tryNextTransaction) with
      entries := m.entries ++ [⟨bodySize, cb, .prepare, 0, 0, none⟩]
      jeQueue := m.jeQueue ++ [m.entries.length] } := by
  obtain ⟨ha, hs⟩ := view_quiet (f := none) hn rfl rfl
  have hl : (view m).states.length = m.entries.length := length_map _
  refine Simulates.of_move rfl (Move.submit hs) ?_
  rw [hl]
  exact Pipeline.ext map_append map_append rfl rfl rfl ha.symm hs.symm rfl

theorem step_simulates {a : JournalAct} (h : Inv m.flushSupported (view m))
    (hstep : step a js m = some (js', m')) : Simulates m m' := by
  -- steps that only change the control, from a state where nothing is being run
  have hcontrol : ∀ m1 : JournalManager, m.now = none → activeOf m1.now = none → slottedOf m1.now = none →
      view { m1 with now := m.now } = view m → m1.flushSupported = m.flushSupported → Simulates m m1 := by
    intro m1 hn ha hs hv hf
    refine ⟨hf, .inl (hv ▸ ?_)⟩
    have ha' : activeOf m1.now = activeOf m.now := by rw [ha, hn]; rfl
    have hs' : slottedOf m1.now = slottedOf m.now := by rw [hs, hn]; rfl
    exact Pipeline.ext rfl rfl rfl rfl rfl ha' hs' rfl
  unfold step at hstep
  split at hstep
  · split at hstep <;> cases hstep
    rename_i hc
    exact submit_simulates (callable_now hc)
  · split at hstep
    · rename_i f hn
      have hm' : (m.advanceRunning js f).2 = m' := by rw [Option.some.inj hstep]
      rw [← hm']
      exact advanceRunning_simulates h hn
    · cases hstep
      rename_i i ws hn hw
      unfold jsuperLoop
      split
      · split <;> exact hcontrol _ hn rfl rfl rfl rfl
      · exact hcontrol _ hn rfl rfl rfl rfl
    · cases hstep
  · split at hstep <;> cases hstep
    rename_i ws hn hw
    exact hcontrol _ hn rfl rfl rfl rfl
  · split at hstep <;> cases hstep
    rename_i hc
    exact writeComplete_simulates h hc.1 hc.2
  · split at hstep <;> cases hstep
    rename_i old hid hw
    exact ⟨rfl, .inl rfl⟩
  · split at hstep <;> cases hstep
    exact ⟨rfl, .inl rfl⟩
  · split at hstep <;> cases hstep
    rename_i k hid hk
    exact hcontrol _ (idle_now hid) rfl rfl rfl rfl
  · split at hstep <;> cases hstep
    exact ⟨rfl, .inl rfl⟩

/-! ## Runs -/

theorem step_inv {a : JournalAct} (h : Inv m.flushSupported (view m)) (hstep : step a js m = some (js', m')) :
    Inv m'.flushSupported (view m') := by
  obtain ⟨hf, hv | hm⟩ := step_simulates h hstep
  · rw [hf, hv]
    exact h
  · rw [hf]
    exact move_inv h hm

theorem new_inv (flush : Bool) : Inv flush (view (.new flush)) where
  ids := ⟨rfl, List.Pairwise.nil, nodup_nil, nofun, nofun⟩
  buffers := ⟨nofun, Pool.balanced_start _⟩
  order := ⟨by simp [view, new], nofun, nofun, nofun, nofun⟩
  progress := ⟨by simp [view, new], nofun, nofun⟩
  justified := justified_nil

/-- The invariant of every manager. -/
def AllInv {N : ℕ} (s : Journals N) : Prop := ∀ w, Inv (s.mgrs w).flushSupported (view (s.mgrs w))

variable {N : ℕ} {a : Fin N × JournalAct} {s s' : Journals N}

theorem journals_step (h : Journals.step a s = some s') :
    ∃ m', step a.2 s.js (s.mgrs a.1) = some (s'.js, m') ∧ s'.mgrs = Function.update s.mgrs a.1 m' := by
  obtain ⟨⟨js, m'⟩, hm, rfl⟩ := map_eq_some_iff.1 h
  exact ⟨m', hm, rfl⟩

theorem forall_mgrs_step {P : JournalManager → Prop} (hstep : Journals.step a s = some s') (h : ∀ w, P (s.mgrs w))
    (hP : ∀ m', step a.2 s.js (s.mgrs a.1) = some (s'.js, m') → P m') (w : Fin N) : P (s'.mgrs w) := by
  obtain ⟨m', hm, hs'⟩ := journals_step hstep
  rw [hs']
  by_cases hw : w = a.1
  · subst hw
    rw [Function.update_self]
    exact hP m' hm
  · rw [Function.update_of_ne hw]
    exact h w

theorem allInv_step (a : Fin N × JournalAct) (s s' : Journals N) (h : AllInv s)
    (hstep : Journals.step a s = some s') : AllInv s' :=
  forall_mgrs_step (P := fun m => Inv m.flushSupported (view m)) hstep h fun _ hm => step_inv (h a.1) hm

theorem start_allInv (js : JSuper) (flush : Bool) : AllInv (Journals.start js flush : Journals N) :=
  fun _ => new_inv flush

theorem flushSupported_step {flush : Bool} (a : Fin N × JournalAct) (s s' : Journals N)
    (h : AllInv s ∧ ∀ w, (s.mgrs w).flushSupported = flush) (hstep : Journals.step a s = some s') :
    AllInv s' ∧ ∀ w, (s'.mgrs w).flushSupported = flush := by
  refine ⟨allInv_step a s s' h.1 hstep, ?_⟩
  apply forall_mgrs_step (P := fun m => m.flushSupported = flush) hstep h.2
  intro m' hm
  rw [(step_simulates (h.1 _) hm).1]
  exact h.2 _

/-- In every run of any number of managers on one `JSuper`, with or without flush, the events
of each are proper: a callback is called once, and with success only after the body, the flush
(when supported) and the commit completed, in this order; a commit is submitted after the body
completed; and slots are acquired in the order of submission. The free buffers and the entries that hold
one are always `kMaxInFlight`, and no buffer is held by two entries. -/
theorem manager_runs {N : ℕ} (js : JSuper) (flush : Bool) (as : List (Fin N × JournalAct)) (s : Journals N)
    (h : run Journals.step as (Journals.start js flush) = some s) (w : Fin N) :
      Justified (Proper flush) (s.mgrs w).trace ∧
    (s.mgrs w).pinnedMemQueue.length + (s.mgrs w).entries.countP (fun e => e.pinnedMem.isSome) = kMaxInFlight ∧
    ∀ (i j b : ℕ) (e e' : ManagedEntry), (s.mgrs w).entries[i]? = some e → (s.mgrs w).entries[j]? = some e' →
      e.pinnedMem = some b → e'.pinnedMem = some b → i = j := by
  obtain ⟨hall, hfl⟩ := run_inv' flushSupported_step h ⟨start_allInv js flush, fun _ => rfl⟩
  have hinv := hall w
  rw [hfl w] at hinv
  have hbal := hinv.buffers.balanced
  refine ⟨hinv.justified, ?_, fun i j b e e' hi hj hb hb' => ?_⟩
  · have hlen := hbal.length
    rw [List.length_range] at hlen
    rw [← hlen]
    show _ = _ + List.countP _ (List.map _ _)
    rw [List.countP_map]
    rfl
  · have hpin : ∀ (k : ℕ) (x : ManagedEntry), (s.mgrs w).entries[k]? = some x → x.pinnedMem = some b →
        (view (s.mgrs w)).pins[k]? = some (some b) := fun k x hk hx => by simp [view, hk, hx]
    exact hbal.eq_of_held List.nodup_range (hpin i e hi hb) (hpin j e' hj hb')

/-- The state of managers on a new journal after a run that is enabled. -/
def after {N : ℕ} (as : List (Fin N × JournalAct)) : Journals N :=
  (run Journals.step as (Journals.start (.ofDisk (globalJSuper 0)) true)).getD
    (Journals.start (.ofDisk (globalJSuper 0)) true)

/-- One entry from its submission to its callback. -/
def oneEntry {N : ℕ} (w : Fin N) : List (Fin N × JournalAct) :=
  [.submitJournalEntry 300 true, .advance, .advance, .advance, .writeComplete 0 false, .advance,
    .writeComplete 0 false, .advance, .writeComplete 0 false, .advance, .callbackReturns, .advance].map (w, ·)

theorem manager_runs_oneEntry : JournalEvent.called 0 true ∈ ((after (oneEntry (0 : Fin 1))).mgrs 0).trace ∧
    Justified (Proper true) ((after (oneEntry (0 : Fin 1))).mgrs 0).trace ∧
      ((after (oneEntry (0 : Fin 1))).mgrs 0).pinnedMemQueue.length +
      ((after (oneEntry (0 : Fin 1))).mgrs 0).entries.countP (fun e => e.pinnedMem.isSome) = kMaxInFlight ∧
    ∀ (i j b : ℕ) (e e' : ManagedEntry), ((after (oneEntry (0 : Fin 1))).mgrs 0).entries[i]? = some e →
      ((after (oneEntry (0 : Fin 1))).mgrs 0).entries[j]? = some e' → e.pinnedMem = some b →
        e'.pinnedMem = some b → i = j :=
  ⟨by decide +kernel, manager_runs (.ofDisk (globalJSuper 0)) true (oneEntry 0) _ rfl 0⟩

end Ufs.Proof.Manager
