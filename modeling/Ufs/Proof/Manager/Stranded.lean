import Ufs.Proof.Manager.Refine

/-!
# Entries that nothing wakes

An entry that `tryNextTransaction` leaves in the queue because of the hard
watermark is tried again when an entry of its own manager is done with, or when
a superblock write that its own manager issued completes. The watermark is
shared, and the write in progress may be another manager's, so that an entry may be
left with nothing outstanding (`entry_stranded`), be it by a manager that is done or by the loop
of `jsuper_write_complete`, which then tries without end. No entry is left so while no try for
slots finds the watermark reached (`BelowWatermark`), and `none_stranded_iff` has what is needed
of each entry that is left (`ParksAwake`).
-/

namespace Ufs.Proof.Manager

open Impl

/-- `tryNextTransaction` has returned, and no caller is left but the loop of `jsuper_write_complete`,
which has had a round. In a callback, or before the first round, a try is still to come. -/
def returned (m : JournalManager) : Bool :=
  m.now.isNone &&
  match m.waiting with
  | [] | .jsuperLoop (_ + 1) :: _ => true
  | .callback :: _ | .jsuperLoop 0 :: _ => false

/-- The tries have returned, and the manager has an entry to process, a buffer for it, and nothing on
the device. -/
def Stranded (m : JournalManager) : Prop :=
  returned m = true ∧ m.jeQueue ≠ [] ∧ m.pinnedMemQueue ≠ [] ∧ m.inFlight = [] ∧
    m.jsuperWrite = none

instance (m : JournalManager) : Decidable (Stranded m) := inferInstanceAs (Decidable (_ ∧ _))

/-- `tryNextTransaction` is about to leave its entry for after a superblock write. -/
def parks (js : JSuper) (m : JournalManager) : Bool :=
  m.now == some .tryNextTransaction && !m.pinnedMemQueue.isEmpty &&
  match m.jeQueue.head? with
  | none => false
  | some je =>
    let n := JournalManager.jblocksRequired ((m.entries[je]?.map ManagedEntry.bodySize).getD 0)
    let slot := (js.acquireNextNSlots n).1
    decide (n ≤ maxBlocks) && !slot.noSpace && slot.retryAfterJsuperWritten

/-- What is left of an entry that is parked: something of the same manager's own is outstanding, or
the try was made from a callback, after which another one follows. -/
def Woken (m : JournalManager) : Prop :=
  m.inFlight ≠ [] ∨ m.jsuperWrite ≠ none ∨ m.waiting.head? = some .callback

instance (m : JournalManager) : Decidable (Woken m) := inferInstanceAs (Decidable (_ ∨ _ ∨ _))

/-- An entry is parked only by a manager that will be woken. -/
def ParksAwake {N : ℕ} (a : Fin N × JournalAct) (s : Journals N) : Prop :=
  a.2 = .advance → parks s.js (s.mgrs a.1) = true → Woken (s.mgrs a.1)

instance {N : ℕ} (a : Fin N × JournalAct) (s : Journals N) : Decidable (ParksAwake a s) := by
  unfold ParksAwake
  infer_instance

/-- A try for slots does not find the hard watermark reached. -/
def BelowWatermark {N : ℕ} (a : Fin N × JournalAct) (s : Journals N) : Prop :=
  a.2 = .advance → (s.mgrs a.1).now = some .tryNextTransaction →
    s.js.nblocksUnaccounted < kMaxUnaccountedBlocks

/-- The functions that end in a write of an entry or in another try. -/
def busy : Option Running → Bool
  | some .tryNextTransaction | some (.slotAcquired _ _ _ _) | some (.processJournalEntry _) => true
  | _ => false

/-- Whoever has work and a buffer for it will be called again, or is about to try. -/
def Awake (m : JournalManager) : Prop :=
  m.jeQueue ≠ [] → m.pinnedMemQueue ≠ [] →
    Woken m ∨ m.waiting.head? = some (.jsuperLoop 0) ∨ busy m.now = true

theorem Awake.not_stranded {m : JournalManager} (h : Awake m) : ¬ Stranded m := by
  intro ⟨hret, hq, hp, hf, hw⟩
  simp only [returned, Bool.and_eq_true, Option.isNone_iff_eq_none] at hret
  obtain ⟨hnow, hwaiting⟩ := hret
  rcases h hq hp with (h | h | h) | h | h
  · exact h hf
  · exact h hw
  · obtain ⟨ws, hws⟩ := List.head?_eq_some_iff.1 h
    simp [hws] at hwaiting
  · obtain ⟨ws, hws⟩ := List.head?_eq_some_iff.1 h
    simp [hws] at hwaiting
  · simp [hnow, busy] at h

variable {js js' : JSuper} {m m' : JournalManager}

theorem awake_of_busy (h : busy m.now = true) : Awake m := fun _ _ => .inr (.inr h)

theorem awake_of_woken (h : Woken m) : Awake m := fun _ _ => .inl h

theorem Awake.keep (h : Awake m) (hb : busy m.now = false) (hq : m'.jeQueue = m.jeQueue)
    (hp : m'.pinnedMemQueue = m.pinnedMemQueue) (hf : m'.inFlight = m.inFlight)
    (hw : m.jsuperWrite ≠ none → m'.jsuperWrite ≠ none) (hwt : m'.waiting = m.waiting) : Awake m' := by
  intro hq' hp'
  rcases h (hq ▸ hq') (hp ▸ hp') with (h | h | h) | h | h
  · exact .inl (.inl (hf ▸ h))
  · exact .inl (.inr (.inl (hw h)))
  · exact .inl (.inr (.inr (hwt ▸ h)))
  · exact .inr (.inl (hwt ▸ h))
  · simp [hb] at h

theorem retry_iff {n : ℕ} : (js.acquireNextNSlots n).1.retryAfterJsuperWritten = true ↔
    kMaxUnaccountedBlocks ≤ js.nblocksUnaccounted := by
  unfold JSuper.acquireNextNSlots JSuper.unsafeShouldWaitTillJSuperWritten
  dsimp only
  split <;> simp

theorem modify_bodySize (m : JournalManager) (je : ℕ) :
    ((m.modify je fun e => { e with startBlock := 0, nblocks := 0 }).entries[je]?.map ManagedEntry.bodySize) =
      m.entries[je]?.map ManagedEntry.bodySize := by
  simp only [JournalManager.modify, List.getElem?_modify, if_true]
  cases m.entries[je]? <;> rfl

theorem tryNextTransaction_awake (hn : m.now = some .tryNextTransaction)
    (hp : parks js m = true → Woken m) : Awake (m.tryNextTransaction js).2 := by
  unfold JournalManager.tryNextTransaction
  split
  · rename_i hq
    exact fun hq' => absurd (List.head?_eq_none_iff.1 hq) hq'
  · rename_i je hq
    split
    · rename_i hp'
      exact fun _ h => absurd hp' h
    · rename_i hpin
      simp only [modify_bodySize]
      split
      · exact awake_of_busy rfl
      · rename_i hle
        split
        · exact awake_of_busy rfl
        · rename_i hns
          split
          · rename_i hret
            intro _ _
            have hpk : parks js m = true := by
              simp [parks, hn, hq, hpin, hns, hret, Nat.le_of_not_lt hle]
            exact .inl (hp hpk)
          · exact awake_of_busy rfl

theorem processJournalEntry_awake (h : Inv m.flushSupported (view m)) {je : ℕ}
    (hn : m.now = some (.processJournalEntry je)) : Awake (m.processJournalEntry je) := by
  have hio : ∀ (m1 : JournalManager) (e : JournalEvent), Awake (m1.submitIo je e) :=
    fun m1 e => awake_of_woken (.inl (by simp [JournalManager.submitIo]))
  have hfin : ∀ (e : ManagedEntry) (ok : Bool), Awake (m.finish je e ok) := by
    intro e ok
    unfold JournalManager.finish
    simp only
    split
    · exact awake_of_woken (.inr (.inr rfl))
    · exact awake_of_busy rfl
  obtain ⟨e, he, hw⟩ := processed_entry h hn
  unfold JournalManager.processJournalEntry
  rw [he]
  simp only
  split
  · exact hfin _ _
  · exact hfin _ _
  · exact hio _ _
  · split
    · exact hio _ _
    · exact hio _ _
  · exact hio _ _
  · cases hst : e.state <;> simp_all [next]

theorem writeJSuper_awake (h : Awake m) (hb : busy m.now = false) (f : Option Running) :
    Awake ((m.writeJSuper js).2.run f) := by
  unfold JournalManager.writeJSuper
  split
  · exact h.keep hb rfl rfl rfl id rfl
  · exact h.keep hb rfl rfl rfl (fun _ => nofun) rfl

theorem advanceRunning_awake (h : Awake m) (hi : Inv m.flushSupported (view m)) {f : Running} (hn : m.now = some f)
    (hp : parks js m = true → Woken m) : Awake (m.advanceRunning js f).2 := by
  cases f with
  | tryNextTransaction => exact tryNextTransaction_awake hn hp
  | slotAcquired je idx n w =>
    cases w with
    | true => exact awake_of_busy rfl
    | false => exact awake_of_busy rfl
  | processJournalEntry je => exact processJournalEntry_awake hi hn
  | writeJSuper => exact writeJSuper_awake h (by rw [hn]; rfl) none
  | release k ts => exact h.keep (by rw [hn]; rfl) rfl rfl rfl id rfl
  | setLast ts => exact h.keep (by rw [hn]; rfl) rfl rfl rfl id rfl

theorem step_awake {a : JournalAct} (h : Awake m) (hi : Inv m.flushSupported (view m))
    (hp : a = .advance → parks js m = true → Woken m)
    (hstep : JournalManager.step a js m = some (js', m')) : Awake m' := by
  have hbusy : m.idle = true → busy m.now = false := fun hid => by rw [idle_now hid]; rfl
  unfold JournalManager.step at hstep
  split at hstep
  · split at hstep <;> cases hstep
    exact awake_of_busy rfl
  · split at hstep
    · rename_i f hn
      have hm' : (m.advanceRunning js f).2 = m' := by rw [Option.some.inj hstep]
      rw [← hm']
      exact advanceRunning_awake h hi hn (hp rfl)
    · cases hstep
      unfold JournalManager.jsuperLoop
      split
      · -- the loop ends when there is nothing to process, or no buffer
        rename_i hend
        exact fun hq hpin => absurd hend (not_or.2 ⟨hq, hpin⟩)
      · exact awake_of_busy rfl
    · cases hstep
  · split at hstep <;> cases hstep
    exact awake_of_busy rfl
  · split at hstep <;> cases hstep
    rename_i hc
    unfold JournalManager.writeComplete
    simp only
    split
    · exact awake_of_busy rfl
    · split <;> exact awake_of_busy rfl
  · split at hstep <;> cases hstep
    exact fun _ _ => .inr (.inl rfl)
  · split at hstep <;> cases hstep
    rename_i hc
    exact h.keep (hbusy hc.1) rfl rfl rfl id rfl
  · split at hstep <;> cases hstep
    rename_i hid hk
    exact h.keep (hbusy hid) rfl rfl rfl id rfl
  · split at hstep <;> cases hstep
    rename_i hc
    exact h.keep (hbusy hc.1) rfl rfl rfl id rfl

theorem allAwake_step {N : ℕ} (a : Fin N × JournalAct) (s s' : Journals N)
    (h : AllInv s ∧ ∀ w, Awake (s.mgrs w)) (hp : ParksAwake a s) (hstep : Journals.step a s = some s') :
      AllInv s' ∧ ∀ w, Awake (s'.mgrs w) := by
  refine ⟨allInv_step a s s' h.1 hstep, ?_⟩
  apply forall_mgrs_step hstep h.2
  intro m' hm
  exact step_awake (h.2 a.1) (h.1 a.1) hp hm

/-! ## The rounds of the loop -/

/-- A loop that has had no round waits for nothing else. -/
def LoopFresh (m : JournalManager) : Prop :=
  .jsuperLoop 0 ∈ m.waiting → m.now = none ∧ m.waiting = [.jsuperLoop 0]

theorem loopFresh_of_notMem (h : Waiting.jsuperLoop 0 ∉ m.waiting) : LoopFresh m :=
  fun hmem => absurd hmem h

theorem loopFresh_of_idle (h : m.idle = true) (hw : m'.waiting = m.waiting) : LoopFresh m' := by
  simp only [JournalManager.idle, Bool.and_eq_true, List.isEmpty_iff] at h
  exact loopFresh_of_notMem (by simp [hw, h.2])

theorem tryNextTransaction_waiting (js : JSuper) (m : JournalManager) :
    (m.tryNextTransaction js).2.waiting = m.waiting := by
  unfold JournalManager.tryNextTransaction
  split
  · rfl
  · split
    · rfl
    · dsimp only
      split
      · rfl
      · split
        · rfl
        · split <;> rfl

theorem writeJSuper_waiting (js : JSuper) (m : JournalManager) :
    (m.writeJSuper js).2.waiting = m.waiting := by
  unfold JournalManager.writeJSuper
  split <;> rfl

theorem releasePinnedMem_waiting (m : JournalManager) (je : ℕ) :
    (m.releasePinnedMem je).waiting = m.waiting := by
  unfold JournalManager.releasePinnedMem
  split <;> rfl

theorem finish_waiting (m : JournalManager) (je : ℕ) (e : ManagedEntry) (ok : Bool) :
    (m.finish je e ok).waiting = m.waiting ∨ (m.finish je e ok).waiting = .callback :: m.waiting := by
  unfold JournalManager.finish
  dsimp only
  split
  · exact .inr (congrArg _ (releasePinnedMem_waiting m je))
  · exact .inl (releasePinnedMem_waiting m je)

theorem processJournalEntry_waiting (m : JournalManager) (je : ℕ) :
    (m.processJournalEntry je).waiting = m.waiting ∨
      (m.processJournalEntry je).waiting = .callback :: m.waiting := by
  unfold JournalManager.processJournalEntry
  split
  · exact .inl rfl
  · split
    · exact finish_waiting ..
    · exact finish_waiting ..
    · exact .inl rfl
    · split <;> exact .inl rfl
    · exact .inl rfl
    · exact .inl rfl

theorem advanceRunning_waiting (js : JSuper) (m : JournalManager) (f : Running) :
    (m.advanceRunning js f).2.waiting = m.waiting ∨
      (m.advanceRunning js f).2.waiting = .callback :: m.waiting := by
  cases f with
  | tryNextTransaction => exact .inl (tryNextTransaction_waiting js m)
  | slotAcquired je idx n w =>
    cases w with
    | true => exact .inl (writeJSuper_waiting js m)
    | false => exact .inl rfl
  | processJournalEntry je => exact processJournalEntry_waiting m je
  | writeJSuper => exact .inl (writeJSuper_waiting js m)
  | release => exact .inl rfl
  | setLast => exact .inl rfl

theorem step_loopFresh {a : JournalAct} (h : LoopFresh m)
    (hstep : JournalManager.step a js m = some (js', m')) : LoopFresh m' := by
  unfold JournalManager.step at hstep
  split at hstep
  · split at hstep <;> cases hstep
    rename_i hc
    simp only [JournalManager.callable, Bool.and_eq_true, Option.isNone_iff_eq_none] at hc
    refine loopFresh_of_notMem fun hmem => ?_
    have hwaiting := (h hmem).2
    simp [hwaiting] at hc
  · split at hstep
    · rename_i f hn
      have hm' : (m.advanceRunning js f).2 = m' := by rw [Option.some.inj hstep]
      have hno : Waiting.jsuperLoop 0 ∉ m.waiting := fun hmem => by
        have hnow := (h hmem).1
        rw [hn] at hnow
        cases hnow
      rw [← hm']
      refine loopFresh_of_notMem ?_
      rcases advanceRunning_waiting js m f with hw | hw
      · rwa [hw]
      · simpa [hw] using hno
    · rename_i i ws hn hws
      cases hstep
      have hno : Waiting.jsuperLoop 0 ∉ ws := fun hmem => by
        have hall := (h (hws ▸ List.mem_cons_of_mem _ hmem)).2
        rw [hws, List.cons.injEq] at hall
        simp [hall.2] at hmem
      unfold JournalManager.jsuperLoop
      split
      · exact loopFresh_of_notMem hno
      · exact loopFresh_of_notMem (by simpa using hno)
    · cases hstep
  · split at hstep <;> cases hstep
    rename_i ws hn hws
    refine loopFresh_of_notMem fun hmem => ?_
    have hall := (h (hws ▸ List.mem_cons_of_mem _ hmem)).2
    rw [hws, List.cons.injEq] at hall
    cases hall.1
  · split at hstep <;> cases hstep
    rename_i hc
    refine loopFresh_of_idle hc.1 ?_
    unfold JournalManager.writeComplete
    dsimp only
    split
    · rfl
    · split <;> rfl
  · split at hstep <;> cases hstep
    rename_i old hid hold
    exact fun _ => ⟨show m.now = none from idle_now hid, rfl⟩
  · split at hstep <;> cases hstep
    rename_i hc
    exact loopFresh_of_idle hc.1 rfl
  · split at hstep <;> cases hstep
    rename_i hid hk
    exact loopFresh_of_idle hid rfl
  · split at hstep <;> cases hstep
    rename_i hc
    exact loopFresh_of_idle hc.1 rfl

theorem parked_stranded (hp : parks js m = true) (hfresh : LoopFresh m) (hwoken : ¬ Woken m) :
    Stranded (m.tryNextTransaction js).2 := by
  simp only [parks, Bool.and_eq_true, beq_iff_eq, Bool.not_eq_true', List.isEmpty_eq_false_iff] at hp
  obtain ⟨⟨hn, hpin⟩, hslot⟩ := hp
  cases hq : m.jeQueue.head? with
  | none => simp [hq] at hslot
  | some je =>
    simp only [hq, Bool.and_eq_true, decide_eq_true_eq, Bool.not_eq_true'] at hslot
    obtain ⟨⟨hle, hns⟩, hret⟩ := hslot
    have hne : m.jeQueue ≠ [] := by
      intro h
      simp [h] at hq
    unfold JournalManager.tryNextTransaction
    simp only [hq, hpin, if_false, modify_bodySize, Nat.not_lt.2 hle, hns, hret, Bool.false_eq_true, if_true]
    simp only [Woken, not_or, not_not] at hwoken
    obtain ⟨hf, hw, hcallback⟩ := hwoken
    refine ⟨?_, hne, hpin, hf, hw⟩
    show (match m.waiting with
      | [] | .jsuperLoop (_ + 1) :: _ => true
      | .callback :: _ | .jsuperLoop 0 :: _ => false) = true
    split
    · rfl
    · rfl
    · rename_i hws
      simp [hws] at hcallback
    · rename_i hws
      have hnow := (hfresh (by simp [hws])).1
      simp [hnow] at hn

/-- The step leaves no manager stranded. -/
def NoneStranded {N : ℕ} (a : Fin N × JournalAct) (s : Journals N) : Prop :=
  ∀ s', Journals.step a s = some s' → ∀ w, ¬ Stranded (s'.mgrs w)

theorem NoneStranded.parksAwake {N : ℕ} {a : Fin N × JournalAct} {s : Journals N}
    (hfresh : ∀ w, LoopFresh (s.mgrs w)) (h : NoneStranded a s) : ParksAwake a s := by
  obtain ⟨w, a⟩ := a
  intro ha hp
  obtain rfl : a = .advance := ha
  by_contra hnone
  have hn : (s.mgrs w).now = some .tryNextTransaction := by
    simp only [parks, Bool.and_eq_true, beq_iff_eq] at hp
    exact hp.1.1
  have hstep : JournalManager.step .advance s.js (s.mgrs w) = some ((s.mgrs w).tryNextTransaction s.js) := by
    simp only [JournalManager.step, hn, JournalManager.advanceRunning]
  refine h _ (Option.map_eq_some_iff.2 ⟨_, hstep, rfl⟩) w ?_
  show Stranded (Function.update s.mgrs w _ w)
  rw [Function.update_self]
  exact parked_stranded hp (hfresh w) hnone

/-- Below the watermark no entry is parked. -/
theorem BelowWatermark.parksAwake {N : ℕ} {a : Fin N × JournalAct} {s : Journals N}
    (h : BelowWatermark a s) : ParksAwake a s := by
  intro ha hp
  simp only [parks, Bool.and_eq_true, beq_iff_eq] at hp
  obtain ⟨⟨hn, -⟩, hslot⟩ := hp
  have hbelow := h ha hn
  split at hslot
  · cases hslot
  · simp only [Bool.and_eq_true] at hslot
    have hretry := retry_iff.1 hslot.2
    omega

theorem along_noneStranded {N : ℕ} {js : JSuper} {flush : Bool} {as : List (Fin N × JournalAct)}
    (h : Along Journals.step ParksAwake as (Journals.start js flush)) :
    Along Journals.step NoneStranded as (Journals.start js flush) := by
  have hawake : ∀ w, Awake ((Journals.start js flush : Journals N).mgrs w) := fun _ hq => absurd rfl hq
  refine along_inv (I := fun s => AllInv s ∧ ∀ w, Awake (s.mgrs w)) ?_ allAwake_step h
    ⟨start_allInv js flush, hawake⟩
  intro a s hi hp s' hstep w
  exact ((allAwake_step a s s' hi hp hstep).2 w).not_stranded

/-- In a run of any number of managers on one `JSuper` no manager is stranded in any state that is
reached, if no try for slots finds the hard watermark reached. If some do, none is stranded exactly
if entries are only parked by managers that something of their own will wake. -/
theorem none_stranded_iff {N : ℕ} (js : JSuper) (flush : Bool) (as : List (Fin N × JournalAct)) :
    (Along Journals.step BelowWatermark as (Journals.start js flush) →
      Along Journals.step NoneStranded as (Journals.start js flush)) ∧
    (Along Journals.step NoneStranded as (Journals.start js flush) ↔
      Along Journals.step ParksAwake as (Journals.start js flush)) := by
  refine ⟨fun h => along_noneStranded ?_, fun h => ?_, along_noneStranded⟩
  · exact along_inv (I := fun _ => True) (fun a s _ hs => hs.parksAwake)
      (fun _ _ _ _ _ _ => trivial) h trivial
  · have hstart : ∀ w, LoopFresh ((Journals.start js flush : Journals N).mgrs w) := fun _ hmem => by
      cases hmem
    refine along_inv (I := fun s => ∀ w, LoopFresh (s.mgrs w)) (fun a s hi hs => hs.parksAwake hi)
      (fun a s s' hi _ hstep => ?_) h hstart
    exact forall_mgrs_step hstep hi fun m' hm => step_loopFresh (hi a.1) hm

/-- Managers `w` and `w'` complete a checkpoint of the empty journal, and the superblock write of `w` is
in progress when that of `w'` is due; then manager `v` submits an entry, which is parked. -/
def checkpointThenSubmit {N : ℕ} (w w' v : Fin N) : List (Fin N × JournalAct) :=
  [(w, .prepareForCheckpointing), (w', .prepareForCheckpointing),
    (w, .onCheckpointSuccess 1), (w, .advance), (w, .advance), (w, .advance),
    (w', .onCheckpointSuccess 1), (w', .advance), (w', .advance), (w', .advance),
    (v, .submitJournalEntry 300 true), (v, .advance)]

-- the manager that parks the entry issued the superblock write, whose completion will wake it
example : Along Journals.step ParksAwake (checkpointThenSubmit (0 : Fin 2) 1 0)
      (Journals.start (.ofDisk (globalJSuper 0)) true) ∧
    ((after (checkpointThenSubmit (0 : Fin 2) 1 0)).mgrs 0).jeQueue = [0] := by decide +kernel

/-- `checkpointThenSubmit`, and then the superblock write completes. -/
def checkpointThenWritten {N : ℕ} (w w' v : Fin N) : List (Fin N × JournalAct) :=
  checkpointThenSubmit w w' v ++ [(w, .jsuperWriteComplete), (w, .advance)]

/-- The manager that parks the entry did not issue the write. It stays so when the write
completes, and then nothing at all is outstanding. -/
theorem entry_stranded : run Journals.step (checkpointThenSubmit (1 : Fin 2) 0 0)
    (Journals.start (.ofDisk (globalJSuper 0)) true) =
      some (after (checkpointThenSubmit 1 0 0)) ∧ Stranded ((after (checkpointThenSubmit (1 : Fin 2) 0 0)).mgrs 0) ∧
    run Journals.step (checkpointThenWritten (1 : Fin 2) 0 0) (Journals.start (.ofDisk (globalJSuper 0)) true) =
      some (after (checkpointThenWritten 1 0 0)) ∧ Stranded ((after (checkpointThenWritten (1 : Fin 2) 0 0)).mgrs 0) ∧
    ∀ w, ((after (checkpointThenWritten (1 : Fin 2) 0 0)).mgrs w).idle = true ∧
      ((after (checkpointThenWritten (1 : Fin 2) 0 0)).mgrs w).inFlight = [] ∧
      ((after (checkpointThenWritten (1 : Fin 2) 0 0)).mgrs w).jsuperWrite = none :=
  ⟨rfl, by decide +kernel, rfl, by decide +kernel, by decide +kernel⟩

end Ufs.Proof.Manager
