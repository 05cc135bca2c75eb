import Ufs.Proof.Gate.Steps

/-!
# Assignments and checkpoints, counted

`tally α β` counts `α` for every assignment in a ring and `β b` for every
worker in `checkpointAllJournals`, `b` being whether the checkpoint was assigned
to it. `kind` says of a step, from the state before it, whether it grants a
proposal, takes up an assignment, starts a client's checkpoint or ends one, and
`step_tally` what it does to the flag and to every tally.
-/

namespace Ufs.Proof.Gate

open Impl FsProc

variable {N : ℕ}

/-- The weight `β` of a checkpoint that the thread runs. -/
def threadTally (β : Bool → ℕ) : ThreadState N → ℕ
  | .checkpointAllJournals f => β f.assigned
  | _ => 0

/-- The weight of a worker: `α` for each assignment in its ring, `β` for the checkpoint it runs. -/
def workerTally (α : ℕ) (β : Bool → ℕ) (v : FsProcWorker N) : ℕ :=
  α * v.ring.count .assignCheckpointToWorker + threadTally β v.thread

/-- The weight of all workers. -/
def tally (α : ℕ) (β : Bool → ℕ) (s : FsProc N) : ℕ := ∑ w, workerTally α β (s.workers w)

variable {α : ℕ} {β : Bool → ℕ} {s s' : FsProc N} {w : Fin N}

theorem tally_setWorker (v : FsProcWorker N) : tally α β (s.setWorker w v) + workerTally α β (s.workers w) =
    tally α β s + workerTally α β v := by
  have hsum : ∀ f : Fin N → FsProcWorker N, tally α β { s with workers := f } =
      workerTally α β (f w) + ∑ u ∈ Finset.univ.erase w, workerTally α β (f u) :=
    fun f => (Finset.add_sum_erase _ _ (Finset.mem_univ w)).symm
  have hrest : ∑ u ∈ Finset.univ.erase w, workerTally α β (Function.update s.workers w v u) =
      ∑ u ∈ Finset.univ.erase w, workerTally α β (s.workers u) := by
    refine Finset.sum_congr rfl fun u hu => ?_
    rw [Function.update_of_ne (Finset.ne_of_mem_erase hu)]
  have h1 : tally α β (s.setWorker w v) = _ := hsum (Function.update s.workers w v)
  have h2 : tally α β s = _ := hsum s.workers
  rw [Function.update_self, hrest] at h1
  omega

theorem tally_setWorker_of_eq {v : FsProcWorker N} (h : workerTally α β v = workerTally α β (s.workers w)) :
    tally α β (s.setWorker w v) = tally α β s := by
  have := tally_setWorker (s := s) (w := w) (α := α) (β := β) v
  omega

theorem tally_setThread (t : ThreadState N) : tally α β (s.setThread w t) + threadTally β (s.workers w).thread =
    tally α β s + threadTally β t := by
  have h : tally α β (s.setThread w t) + workerTally α β (s.workers w) = _ := tally_setWorker _
  simp only [workerTally] at h
  omega

theorem tally_sendMessage (m : FsProcMessage N) : tally α β (s.sendMessage w m) = tally α β s + if m =
    .assignCheckpointToWorker then α else 0 := by
  have h : tally α β (s.sendMessage w m) + workerTally α β (s.workers w) = _ := tally_setWorker _
  simp only [workerTally, List.count_append, List.count_singleton, beq_iff_eq, Nat.mul_add] at h
  by_cases hm : m = .assignCheckpointToWorker
  · rw [if_pos hm] at h ⊢
    omega
  · rw [if_neg hm] at h ⊢
    omega

variable {ring : List (FsProcMessage N)} {m : FsProcMessage N}

theorem tally_popMessage (hr : (s.workers w).ring = m :: ring) :
    tally α β (s.setRing w ring) + (if m = .assignCheckpointToWorker then α else 0) = tally α β s := by
  have h : tally α β (s.setRing w ring) + workerTally α β (s.workers w) = _ :=
    tally_setWorker _
  simp only [workerTally, hr, List.count_cons, beq_iff_eq, Nat.mul_add] at h
  by_cases hm : m = .assignCheckpointToWorker
  · rw [if_pos hm] at h ⊢
    omega
  · rw [if_neg hm] at h ⊢
    omega

@[simp] theorem tally_flag (b : Bool) : tally α β { s with inGlobalCheckpointing := b } = tally α β s := rfl

theorem tally_prepare (ok : Bool) : tally α β (s.prepareForCheckpointing w ok).2 = tally α β s := by
  unfold prepareForCheckpointing
  split
  · exact tally_setWorker_of_eq rfl
  · rfl

/-! ## Steps -/

/-- How a step changes the flag and the tally. -/
inductive Kind where
  | neutral
  | grant
  | takeUp
  | client
  | finish (assigned : Bool)
deriving Repr, DecidableEq

/-- The kind of a step, read off the state before it. -/
def kind (m : Move N) (s : FsProc N) : Kind :=
  match m with
  | .submitJournalEntry .. => .neutral
  | .appChkpt _ => .client
  | .processMessage w _ =>
    match (s.workers w).ring with
    | .proposeCheckpoint _ :: _ => if s.inGlobalCheckpointing then .neutral else .grant
    | .assignCheckpointToWorker :: _ => .takeUp
    | _ => .neutral
  | .resume w _ =>
    match (s.workers w).thread with
    | .checkpointAllJournals f =>
      match f.loc with
      | .notify i _ => if i < N then .neutral else .finish f.assigned
      | _ => .neutral
    | _ => .neutral

/-- The change that each kind makes. -/
def Kind.After (α : ℕ) (β : Bool → ℕ) (s s' : FsProc N) : Kind → Prop
  | .neutral => s'.inGlobalCheckpointing = s.inGlobalCheckpointing ∧ tally α β s' = tally α β s
  | .grant => s.inGlobalCheckpointing = false ∧ s'.inGlobalCheckpointing = true ∧ tally α β s' = tally α β s + α
  | .takeUp => s'.inGlobalCheckpointing = s.inGlobalCheckpointing ∧ tally α β s' + α = tally α β s + β true
  | .client => s'.inGlobalCheckpointing = s.inGlobalCheckpointing ∧ tally α β s' = tally α β s + β false
  | .finish assigned => s'.inGlobalCheckpointing = s.inGlobalCheckpointing ∧ tally α β s' + β assigned = tally α β s

theorem tally_frame {f f' : CheckpointFrame N} (hf : (s.workers w).thread = .checkpointAllJournals f)
    (ha : f'.assigned = f.assigned) :
    tally α β (s.setThread w (.checkpointAllJournals f')) = tally α β s := by
  have h := tally_setThread (α := α) (β := β) (s := s) (w := w) (.checkpointAllJournals f')
  rw [hf, threadTally, threadTally, ha] at h
  omega

section

variable {ok : Bool} {f : CheckpointFrame N} (hf : (s.workers w).thread = .checkpointAllJournals f)

include hf

theorem kind_of_stays (h : Stays f) : kind (.resume w ok) s = .neutral := by
  simp only [kind, hf]
  split
  · rename_i i success hl
    exact if_pos (h i success hl)
  · rfl

theorem advances_after (h : Advances s w ok f s') : (kind (.resume w ok) s).After α β s s' := by
  cases h with
  | goOn loc hs _ =>
    rw [kind_of_stays hf hs]
    exact ⟨rfl, tally_frame hf rfl⟩
  | send v m loc hs _ hm =>
    have hf' : ((s.sendMessage v m).workers w).thread = .checkpointAllJournals f := by rw [thread_sendMessage, hf]
    rw [kind_of_stays hf hs]
    refine ⟨rfl, ?_⟩
    rw [tally_frame hf', tally_sendMessage, if_neg hm, Nat.add_zero]
    rfl
  | prepareSelf hs =>
    have hf' : ((s.prepareForCheckpointing w ok).2.workers w).thread = .checkpointAllJournals f := by
      rw [thread_prepare, hf]
    rw [kind_of_stays hf hs]
    refine ⟨flag_prepare ok, ?_⟩
    rw [tally_frame hf', tally_prepare]
    rfl
  | leave i success hl hi =>
    have ht := tally_setThread (α := α) (β := β) (s := s) (w := w) .eventLoop
    rw [hf] at ht
    simp only [kind, hf, hl, if_neg hi]
    exact ⟨rfl, ht⟩

end

theorem handles_after {ok : Bool} (ht : (s.workers w).thread = .eventLoop) (hr : (s.workers w).ring = m :: ring)
    (h : Handles (s.setRing w ring) w ok m s') : (kind (.processMessage w ok) s).After α β s s' := by
  have hpop := tally_popMessage (α := α) (β := β) hr
  have hflag : (s.setRing w ring).inGlobalCheckpointing = s.inGlobalCheckpointing := rfl
  simp only [kind, hr]
  cases h with
  | refuse p hg =>
    rw [if_pos (hflag.symm.trans hg)]
    exact ⟨rfl, hpop⟩
  | grant p hg =>
    rw [hflag] at hg
    rw [if_neg (by rw [hg]; exact Bool.false_ne_true)]
    refine ⟨hg, rfl, ?_⟩
    rw [tally_sendMessage, if_pos rfl, tally_flag]
    exact congrArg (· + α) hpop
  | takeUp =>
    have hset := tally_setThread (α := α) (β := β) (s := s.setRing w ring) (w := w)
      (.checkpointAllJournals ⟨true, .sendPrepare 0, fun _ => none, fun _ => false⟩)
    rw [thread_setRing, ht] at hset
    simp only [threadTally, if_pos] at hset hpop
    refine ⟨rfl, ?_⟩
    rw [performCheckpointing]
    omega
  | prepare ctx f hf =>
    rw [← thread_prepare (w := w) ok] at hf
    refine ⟨flag_prepare ok, ?_⟩
    rw [tally_frame hf, tally_prepare]
    · exact hpop
    · rfl
  | complete ci success => exact ⟨rfl, hpop⟩

theorem step_tally [NeZero N] {m : Move N} (h : step m s = some s') (α : ℕ) (β : Bool → ℕ) :
    (kind m s).After α β s s' := by
  cases step_steps h with
  | submit => exact ⟨rfl, rfl⟩
  | propose w _ _ ht =>
    have hset := tally_setThread (α := α) (β := β) (s := s) (w := w) .propose
    rw [ht] at hset
    exact ⟨rfl, hset⟩
  | client w ht =>
    have hset := tally_setThread (α := α) (β := β) (s := s) (w := w)
      (.checkpointAllJournals ⟨false, .sendPrepare 0, fun _ => none, fun _ => false⟩)
    rw [ht] at hset
    exact ⟨rfl, hset⟩
  | message w ok ht hr hm => exact handles_after ht hr hm
  | proposal w ok ht =>
    have hset := tally_setThread (α := α) (β := β) (s := s.sendMessage 0 (.proposeCheckpoint w)) (w := w) .eventLoop
    rw [thread_sendMessage, ht, tally_sendMessage] at hset
    simp only [kind, ht]
    exact ⟨rfl, hset⟩
  | advance w ok hf ha => exact advances_after hf ha

end Ufs.Proof.Gate
