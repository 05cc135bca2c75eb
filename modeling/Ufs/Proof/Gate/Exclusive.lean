import Ufs.Proof.Gate.Gate

/-!
# One checkpoint at a time

A worker in `checkpointAllJournals` handles no messages while it waits for the
others, so two workers there at once wait for each other forever
(`clients_deadlock`): a client's checkpoint starts without asking the gate, and
the gate does not know of it. `one_checkpoint` is about the runs in which a
client's checkpoint starts only while no other worker is busy with one, and no
proposal is granted while a client's runs (`Apart`). The gate itself keeps the
checkpoints that it grants from each other.
-/

namespace Ufs.Proof.Gate

open Impl FsProc
open List

variable {N : ℕ}

variable {s s' : FsProc N} {w v : Fin N} {m : Move N} {ok : Bool}

/-- The worker is in `checkpointAllJournals`. -/
def Inside (s : FsProc N) (w : Fin N) : Prop := ∃ f, (s.workers w).thread = .checkpointAllJournals f

/-- `w` is in the loop that waits for `v`, which has not prepared its input. -/
def WaitsFor (s : FsProc N) (w v : Fin N) : Prop :=
  ∃ f, (s.workers w).thread = .checkpointAllJournals f ∧ f.loc = .wait v ∧ f.perWorkerCompletions v = false

/-- One worker is inside, no one waits for a worker that is inside, and no input was handed over
twice. -/
structure Exclusive (s : FsProc N) : Prop where
  one : ∀ w v, Inside s w → Inside s v → w = v
  free : ∀ w v, WaitsFor s w v → ¬ Inside s v
  once : s.handed.Nodup

/-- `w` takes a checkpoint, or an assignment of one is in its ring. -/
def Busy (s : FsProc N) (w : Fin N) : Prop := .assignCheckpointToWorker ∈ (s.workers w).ring ∨ Inside s w

/-- The worker that a step lets take a checkpoint: that of a client's request, or of a proposal that the
primary grants. -/
def lets (m : Move N) (s : FsProc N) : Option (Fin N) :=
  match m with
  | .appChkpt w => some w
  | .processMessage w _ =>
    match (s.workers w).ring with
    | .proposeCheckpoint p :: _ => if s.inGlobalCheckpointing then none else some p
    | _ => none
  | _ => none

/-- `w` is inside for a client. -/
def ClientInside (s : FsProc N) (w : Fin N) : Prop :=
  ∃ f, (s.workers w).thread = .checkpointAllJournals f ∧ f.assigned = false

/-- The condition on a step, by who lets a worker take a checkpoint. A client does so only while no
other worker has a checkpoint assigned or takes one, and the primary only while no other worker takes
one for a client. -/
def Apart (m : Move N) (s : FsProc N) : Prop :=
  match m with
  | .appChkpt w => ∀ v, Busy s v → v = w
  | m => ∀ w, lets m s = some w → ∀ v, ClientInside s v → v = w

/-! ## At most one worker inside -/

variable {t : ThreadState N}

theorem busy_setThread (h : Busy (s.setThread w t) v) : Busy s v ∨ v = w ∧ ∃ f, t = .checkpointAllJournals f := by
  rcases h with h | ⟨f, h⟩
  · rw [ring_setThread] at h
    exact .inl (.inl h)
  · rw [thread_setThread] at h
    split at h
    · exact .inr ⟨‹_›, f, h⟩
    · exact .inl (.inr ⟨f, h⟩)

theorem busy_of_setThread (hw : Inside s w) (h : Busy (s.setThread w t) v) : Busy s v := by
  rcases busy_setThread h with h | ⟨rfl, -⟩
  · exact h
  · exact .inr hw

theorem busy_of_sendMessage {m : FsProcMessage N} (h : Busy (s.sendMessage w m) v) :
    Busy s v ∨ v = w ∧ m = .assignCheckpointToWorker := by
  rcases h with h | ⟨f, h⟩
  · rw [sendMessage, ring_setRing] at h
    split at h
    · subst v
      rcases mem_append.1 h with h | h
      · exact .inl (.inl h)
      · exact .inr ⟨rfl, (mem_singleton.1 h).symm⟩
    · exact .inl (.inl h)
  · rw [thread_sendMessage] at h
    exact .inl (.inr ⟨f, h⟩)

theorem busy_prepare : Busy (s.prepareForCheckpointing w ok).2 v ↔ Busy s v := by
  unfold Busy Inside
  rw [thread_prepare, ring_prepare]

variable {ring : List (FsProcMessage N)}

theorem busy_of_setRing {m : FsProcMessage N} (hr : (s.workers w).ring = m :: ring)
    (h : Busy (s.setRing w ring) v) : Busy s v := by
  rcases h with h | ⟨f, h⟩
  · rw [ring_setRing] at h
    split at h
    · subst v
      exact .inl (hr ▸ mem_cons_of_mem m h)
    · exact .inl h
  · rw [thread_setRing] at h
    exact .inr ⟨f, h⟩

variable {f : CheckpointFrame N}

theorem advances_busy (hf : (s.workers w).thread = .checkpointAllJournals f) (h : Advances s w ok f s')
    (hv : Busy s' v) : Busy s v := by
  cases h with
  | goOn => exact busy_of_setThread ⟨f, hf⟩ hv
  | send u m loc _ _ hm =>
    have hw : Inside (s.sendMessage u m) w := ⟨f, by rw [thread_sendMessage, hf]⟩
    rcases busy_of_sendMessage (busy_of_setThread hw hv) with hb | ⟨-, hc⟩
    · exact hb
    · exact absurd hc hm
  | prepareSelf =>
    have hw : Inside (s.prepareForCheckpointing w ok).2 w := ⟨f, by rw [thread_prepare, hf]⟩
    exact busy_prepare.1 (busy_of_setThread hw hv)
  | leave => exact busy_of_setThread ⟨f, hf⟩ hv

theorem handles_busy {m : FsProcMessage N} (hr : (s.workers w).ring = m :: ring)
    (h : Handles (s.setRing w ring) w ok m s')
    (hv : Busy s' v) : Busy s v ∨ lets (.processMessage w ok) s = some v := by
  cases h with
  | refuse => exact .inl (busy_of_setRing hr hv)
  | grant p hg =>
    rcases busy_of_sendMessage hv with hb | ⟨rfl, -⟩
    · exact .inl (busy_of_setRing hr hb)
    · have hno : s.inGlobalCheckpointing ≠ true := by
        rw [show s.inGlobalCheckpointing = false from hg]
        exact Bool.false_ne_true
      exact .inr (by simp only [lets, hr, if_neg hno])
  | takeUp =>
    rcases busy_setThread hv with hb | ⟨rfl, -⟩
    · exact .inl (busy_of_setRing hr hb)
    · exact .inl (.inl (hr ▸ mem_cons_self ..))
  | prepare ctx f hf =>
    have hw : Inside ((s.setRing w ring).prepareForCheckpointing w ok).2 ctx := ⟨f, by rw [thread_prepare, hf]⟩
    exact .inl (busy_of_setRing hr (busy_prepare.1 (busy_of_setThread hw hv)))
  | complete => exact .inl (busy_of_setRing hr hv)

theorem step_busy [NeZero N] (h : step m s = some s') (hv : Busy s' v) : Busy s v ∨ lets m s = some v := by
  cases step_steps h with
  | submit => exact .inl hv
  | propose w =>
    rcases busy_setThread hv with hb | ⟨-, f, hf⟩
    · exact .inl hb
    · cases hf
  | client w =>
    rcases busy_setThread hv with hb | ⟨rfl, -⟩
    · exact .inl hb
    · exact .inr rfl
  | message w ok _ hr hm => exact handles_busy hr hm hv
  | proposal w =>
    rcases busy_setThread hv with hb | ⟨-, f, hf⟩
    · rcases busy_of_sendMessage hb with hb | ⟨-, hc⟩
      · exact .inl hb
      · cases hc
    · cases hf
  | advance w ok hf ha => exact .inl (advances_busy hf ha hv)

theorem granted_or_clientInside (h : Busy s v) : Granted s v ∨ ClientInside s v := by
  rcases h with h | ⟨f, hf⟩
  · exact .inl (.inl h)
  · cases ha : f.assigned with
    | true => exact .inl (.inr ⟨f, hf, ha⟩)
    | false => exact .inr ⟨f, hf, ha⟩

/-- While the gate is open no checkpoint is granted, so that a worker that is busy is so for a client. -/
theorem clientInside_of_open (hi : Inv s) (hopen : s.inGlobalCheckpointing = false) (h : Busy s v) :
    ClientInside s v := by
  refine (granted_or_clientInside h).resolve_left fun hg => ?_
  have hpos := granted_iff.1 ⟨v, hg⟩
  have hzero := hi.none hopen
  omega

theorem open_of_lets {ok : Bool} (h : lets (.processMessage w ok) s = some v) :
    s.inGlobalCheckpointing = false := by
  unfold lets at h
  dsimp only at h
  split at h
  · split at h
    · cases h
    · rename_i hopen
      simpa using hopen
  · cases h

theorem Apart.alone (hi : Inv s) (ha : Apart m s) (hw : lets m s = some w) (hv : Busy s v) :
    v = w := by
  cases m with
  | submitJournalEntry => cases hw
  | appChkpt u =>
    cases hw
    exact ha v hv
  | processMessage u ok => exact ha w hw v (clientInside_of_open hi (open_of_lets hw) hv)
  | resume => cases hw

theorem step_oneBusy [NeZero N] (hgate : Inv s) (hi : ∀ w v, Busy s w → Busy s v → w = v)
    (ha : Apart m s) (h : step m s = some s') (w v : Fin N) (hw : Busy s' w) (hv : Busy s' v) :
    w = v := by
  rcases step_busy h hw with hw | hw
  · rcases step_busy h hv with hv | hv
    · exact hi w v hw hv
    · exact ha.alone hgate hv hw
  · rcases step_busy h hv with hv | hv
    · exact (ha.alone hgate hw hv).symm
    · exact Option.some.inj (hw.symm.trans hv)

/-! ## A worker does not wait for itself -/

/-- A worker that waits for the others has prepared its own journal. -/
def OwnDone (w : Fin N) (t : ThreadState N) : Prop :=
  ∀ f i, t = .checkpointAllJournals f → f.loc = .wait i → f.perWorkerCompletions w = true

theorem ownDone_setThread (h : ∀ v, OwnDone v (s.workers v).thread) (ht : OwnDone w t) (v : Fin N) :
    OwnDone v ((s.setThread w t).workers v).thread := by
  rw [thread_setThread]
  split
  · rename_i hv
    rw [hv]
    exact ht
  · exact h v

theorem ownDone_of_loc (h : ∀ i, f.loc ≠ .wait i) : OwnDone w (.checkpointAllJournals f) := by
  intro f' i hf hl
  cases hf
  exact absurd hl (h i)

theorem ownDone_sendMessage (h : ∀ v, OwnDone v (s.workers v).thread) (u : Fin N)
    (m : FsProcMessage N) (v : Fin N) : OwnDone v ((s.sendMessage u m).workers v).thread := by
  rw [thread_sendMessage]
  exact h v

theorem ownDone_prepare (h : ∀ v, OwnDone v (s.workers v).thread) (w : Fin N) (ok : Bool) (v : Fin N) :
    OwnDone v ((s.prepareForCheckpointing w ok).2.workers v).thread := by
  rw [thread_prepare]
  exact h v

theorem advances_ownDone (hi : ∀ v, OwnDone v (s.workers v).thread)
    (hf : (s.workers w).thread = .checkpointAllJournals f)
    (h : Advances s w ok f s') : ∀ v, OwnDone v (s'.workers v).thread := by
  cases h with
  | goOn loc _ hw =>
    refine ownDone_setThread hi fun f' i hf' hl => ?_
    cases hf'
    obtain ⟨i', hl'⟩ := hw i hl
    exact hi w f i' hf hl'
  | send u m loc _ hw _ => exact ownDone_setThread (ownDone_sendMessage hi u m) (ownDone_of_loc hw)
  | prepareSelf =>
    refine ownDone_setThread (ownDone_prepare hi w ok) fun f' i hf' _ => ?_
    cases hf'
    exact Function.update_self ..
  | leave => exact ownDone_setThread hi fun f' i hf' _ => by cases hf'

theorem handles_ownDone {m : FsProcMessage N}
    (hi : ∀ v, OwnDone v (s.workers v).thread) (h : Handles s w ok m s') : ∀ v, OwnDone v (s'.workers v).thread := by
  cases h with
  | refuse => exact hi
  | grant p => exact ownDone_sendMessage (s := { s with inGlobalCheckpointing := true }) hi p _
  | takeUp => exact ownDone_setThread hi (ownDone_of_loc nofun)
  | prepare ctx f hf =>
    refine ownDone_setThread (ownDone_prepare hi w ok) fun f' i hf' hl => ?_
    -- the answer of another worker leaves the worker's own in place
    cases hf'
    have hown : f.perWorkerCompletions ctx = true := hi ctx f i hf hl
    show Function.update f.perWorkerCompletions w true ctx = true
    rw [Function.update_apply]
    split
    · rfl
    · exact hown
  | complete => exact hi

theorem step_ownDone [NeZero N] (hi : ∀ v, OwnDone v (s.workers v).thread) (h : step m s = some s') :
    ∀ v, OwnDone v (s'.workers v).thread := by
  cases step_steps h with
  | submit => exact hi
  | propose => exact ownDone_setThread hi fun f i hf _ => by cases hf
  | client => exact ownDone_setThread hi (ownDone_of_loc nofun)
  | @message w ok m ring s' _ _ hm =>
    have hpop : ∀ v, OwnDone v ((s.setRing w ring).workers v).thread := by
      intro v
      rw [thread_setRing]
      exact hi v
    exact handles_ownDone hpop hm
  | proposal w => exact ownDone_setThread (ownDone_sendMessage hi 0 _) fun f i hf _ => by cases hf
  | advance w ok hf ha => exact advances_ownDone hi hf ha

/-! ## Every input is handed over once -/

/-- No input was handed over twice, and the live input of a worker was not handed over. -/
def HandedOnce (s : FsProc N) : Prop :=
  s.handed.Nodup ∧ ∀ p ∈ s.handed, p.2 < (s.workers p.1).checkpointInput

/-- The part of the state that `HandedOnce` reads. -/
def inputs (s : FsProc N) : List (Fin N × ℕ) × (Fin N → ℕ) := (s.handed, fun w => (s.workers w).checkpointInput)

theorem handedOnce_congr (h : inputs s' = inputs s) : HandedOnce s' ↔ HandedOnce s := by
  obtain ⟨hl, hn⟩ := Prod.mk.inj h
  simp only [HandedOnce, hl, fun w => congrFun hn w]

@[simp] theorem inputs_setThread (s : FsProc N) (w : Fin N) (t : ThreadState N) :
    inputs (s.setThread w t) = inputs s := by
  refine Prod.ext rfl (funext fun v => ?_)
  by_cases hv : v = w
  · subst hv
    simp [inputs, setThread, setWorker]
  · simp [inputs, setThread, setWorker, hv]

@[simp] theorem inputs_setRing (s : FsProc N) (w : Fin N) (ring : List (FsProcMessage N)) :
    inputs (s.setRing w ring) = inputs s := by
  refine Prod.ext rfl (funext fun v => ?_)
  by_cases hv : v = w
  · subst hv
    simp [inputs, setRing, setWorker]
  · simp [inputs, setRing, setWorker, hv]

@[simp] theorem inputs_sendMessage (s : FsProc N) (w : Fin N) (m : FsProcMessage N) :
    inputs (s.sendMessage w m) = inputs s := inputs_setRing ..

theorem handedOnce_prepare (h : HandedOnce s) (w : Fin N) (ok : Bool) :
    HandedOnce (s.prepareForCheckpointing w ok).2 := by
  unfold prepareForCheckpointing
  split
  · obtain ⟨hnd, hlt⟩ := h
    constructor
    · show (s.handed ++ [(w, (s.workers w).checkpointInput)]).Nodup
      refine List.Nodup.append hnd (nodup_singleton _) (disjoint_singleton.2 fun hm => ?_)
      exact absurd (hlt _ hm) (Nat.lt_irrefl _)
    · intro p hp
      show p.2 < (Function.update s.workers w _ p.1).checkpointInput
      rcases mem_append.1 hp with hp | hp
      · have := hlt p hp
        by_cases hw : p.1 = w
        · rw [hw, Function.update_self]
          rw [hw] at this
          exact Nat.lt_succ_of_lt this
        · rw [Function.update_of_ne hw]
          exact this
      · obtain rfl := mem_singleton.1 hp
        rw [Function.update_self]
        exact Nat.lt_succ_self _
  · exact h

theorem step_handedOnce [NeZero N] (hi : HandedOnce s) (h : step m s = some s') : HandedOnce s' := by
  cases step_steps h with
  | submit => exact hi
  | propose => exact (handedOnce_congr (inputs_setThread ..)).2 hi
  | client => exact (handedOnce_congr (inputs_setThread ..)).2 hi
  | @message w ok m ring s' _ _ hm =>
    have hpop : HandedOnce (s.setRing w ring) := (handedOnce_congr (inputs_setRing ..)).2 hi
    cases hm with
    | refuse => exact hpop
    | grant p => exact (handedOnce_congr (by rw [inputs_sendMessage]; rfl)).2 hpop
    | takeUp => exact (handedOnce_congr (inputs_setThread ..)).2 hpop
    | prepare ctx f => exact (handedOnce_congr (inputs_setThread ..)).2 (handedOnce_prepare hpop w ok)
    | complete => exact hpop
  | proposal => exact (handedOnce_congr (by simp)).2 hi
  | advance w ok _ ha =>
    cases ha with
    | goOn => exact (handedOnce_congr (inputs_setThread ..)).2 hi
    | send => exact (handedOnce_congr (by simp)).2 hi
    | prepareSelf => exact (handedOnce_congr (inputs_setThread ..)).2 (handedOnce_prepare hi w ok)
    | leave => exact (handedOnce_congr (inputs_setThread ..)).2 hi

/-! ## Whole runs -/

/-- What the steps of a run that keeps the checkpoints apart preserve. -/
structure Separate (s : FsProc N) : Prop where
  gate : Inv s
  one : ∀ w v, Busy s w → Busy s v → w = v
  own : ∀ v, OwnDone v (s.workers v).thread
  once : HandedOnce s

theorem not_busy_start (w : Fin N) : ¬ Busy start w := by
  rintro (h | ⟨f, hf⟩)
  · exact absurd h not_mem_nil
  · cases hf

theorem start_separate : Separate (start : FsProc N) where
  gate := start_inv
  one := fun w _ hw => absurd hw (not_busy_start w)
  own := fun v f i hf _ => by cases hf
  once := ⟨nodup_nil, nofun⟩

theorem step_separate [NeZero N] (hi : Separate s) (ha : Apart m s) (h : step m s = some s') : Separate s' where
  gate := step_inv hi.gate h
  one := step_oneBusy hi.gate hi.one ha h
  own := step_ownDone hi.own h
  once := step_handedOnce hi.once h

theorem Separate.exclusive (h : Separate s) : Exclusive s where
  one := fun w v hw hv => h.one w v (.inr hw) (.inr hv)
  free := by
    rintro w v ⟨f, hf, hl, hno⟩ hv
    -- the one worker inside would wait for itself
    obtain rfl := h.one w v (.inr ⟨f, hf⟩) (.inr hv)
    rw [h.own w f w hf hl] at hno
    cases hno
  once := h.once.1

/-- Of any number of workers, and in every state of a run whose steps keep the checkpoints apart: at most
one worker takes a checkpoint, it waits for none that does, and no input is handed to two. -/
theorem one_checkpoint [NeZero N] {ms : List (Move N)} {s : FsProc N} (hrun : run step ms start = some s)
    (ha : Along step Apart ms start) : Exclusive s :=
  (run_inv (fun _ _ _ => step_separate) hrun ha start_separate).exclusive

/-- A client's checkpoint, up to where `w` waits for the last of `N` workers. -/
def clientWaits (w : Fin N) : List (Move N) := .appChkpt w :: List.replicate (2 * N + 1) (.resume w true)

theorem one_checkpoint_client : ∃ s, run step (clientWaits (0 : Fin 2)) start = some s ∧ WaitsFor s 0 1 ∧
    Exclusive s := by
  obtain ⟨s, hs⟩ : ∃ s, run step (clientWaits (0 : Fin 2)) start = some s := ⟨_, rfl⟩
  have hfirst : Apart (.appChkpt 0) (start : FsProc 2) := fun v hv => absurd hv (not_busy_start v)
  have hresume : ∀ s, Apart (.resume 0 true) (s : FsProc 2) := fun s w hw => by cases hw
  refine ⟨s, hs, ?_, one_checkpoint hs ⟨hfirst, along_of_mem (fun m hm s => ?_) _⟩⟩
  · cases hs
    exact ⟨_, rfl, rfl, rfl⟩
  · rw [List.eq_of_mem_replicate hm]
    exact hresume s

/-- Two clients ask two workers for a checkpoint at once: each waits for the other, and nothing can happen
any more. -/
theorem clients_deadlock : ∃ s : FsProc 2,
    run step ([.appChkpt 0, .appChkpt 1] ++ List.replicate 5 (.resume 0 true) ++ List.replicate 4
      (.resume 1 true)) start = some s ∧
    WaitsFor s 0 1 ∧ WaitsFor s 1 0 ∧ (∀ m, step m s = none) ∧ ¬ Exclusive s := by
  refine ⟨_, rfl, ⟨_, rfl, rfl, rfl⟩, ⟨_, rfl, rfl, rfl⟩, ?_, ?_⟩
  · rintro (⟨w, n, c⟩ | w | ⟨w, ok⟩ | ⟨w, ok⟩) <;> fin_cases w <;> rfl
  · intro h
    exact absurd (h.one 0 1 ⟨_, rfl⟩ ⟨_, rfl⟩) (by decide)

end Ufs.Proof.Gate
