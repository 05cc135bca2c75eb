import Ufs.Proof.Gate.Tally

/-!
# The gate for checkpoints

`inGlobalCheckpointing` is to be set from the grant of a proposal to the end of the checkpoint it
granted (`GateWorks`). `setInCheckpointing` sets it; `resetInCheckpointing` is not called anywhere.
`gate_works_iff`: the gate works in every state of a run exactly when no granted checkpoint ends in
it. `grants s`, the assignments not yet taken up and the assigned checkpoints that run, is at most
one, and zero as long as the flag is not set (`Inv`).
-/

namespace Ufs.Proof.Gate

open Impl FsProc

variable {N : ℕ}

/-- `w` has been granted a checkpoint that is not over. -/
def Granted (s : FsProc N) (w : Fin N) : Prop :=
  .assignCheckpointToWorker ∈ (s.workers w).ring ∨
    ∃ f, (s.workers w).thread = .checkpointAllJournals f ∧ f.assigned = true

/-- No checkpoint is assigned or under way. -/
def Quiet (s : FsProc N) : Prop :=
  ∀ w, .assignCheckpointToWorker ∉ (s.workers w).ring ∧ ∀ f, (s.workers w).thread ≠ .checkpointAllJournals f

/-- The flag is set only while a granted checkpoint is not over. While no checkpoint is assigned or
running, a worker whose journal is nearly full proposes one, and the primary grants the proposal. -/
structure GateWorks [NeZero N] (s : FsProc N) : Prop where
  engaged : s.inGlobalCheckpointing = true → ∃ w, Granted s w
  proposes : Quiet s → ∀ w numUsed capacity, (s.workers w).thread = .eventLoop →
    usedRatioExceeds numUsed capacity = true →
    ∃ s', step (.submitJournalEntry w numUsed capacity) s = some s' ∧ (s'.workers w).thread = .propose
  grants : Quiet s → ∀ w ring ok, (s.workers 0).thread = .eventLoop →
    (s.workers 0).ring = .proposeCheckpoint w :: ring →
    ∃ s', step (.processMessage 0 ok) s = some s' ∧ .assignCheckpointToWorker ∈ (s'.workers w).ring

/-- The assignments that were not taken up and the assigned checkpoints that run. -/
def grants (s : FsProc N) : ℕ := tally 1 (fun assigned => if assigned then 1 else 0) s

/-- The flag covers the grants, and there is at most one. -/
structure Inv (s : FsProc N) : Prop where
  none : s.inGlobalCheckpointing = false → grants s = 0
  one : grants s ≤ 1

theorem grants_start : grants (start : FsProc N) = 0 := by
  unfold grants tally
  exact Finset.sum_eq_zero fun w _ => rfl

variable {s s' : FsProc N} {m : Move N}

theorem step_grants [NeZero N] (h : step m s = some s') :
    s.inGlobalCheckpointing = false ∧ s'.inGlobalCheckpointing = true ∧ grants s' = grants s + 1 ∨
    s'.inGlobalCheckpointing = s.inGlobalCheckpointing ∧ grants s' + (if kind m s = .finish true then 1 else 0) =
      grants s := by
  have ht := step_tally h 1 fun assigned => if assigned then 1 else 0
  change (kind m s).After 1 (fun assigned => if assigned then 1 else 0) s s' at ht
  cases hk : kind m s with
  | neutral =>
    rw [hk] at ht
    exact .inr ht
  | grant =>
    rw [hk] at ht
    exact .inl ht
  | takeUp =>
    rw [hk] at ht
    refine .inr ⟨ht.1, ?_⟩
    show grants s' + 0 = grants s
    have h1 : grants s' + 1 = grants s + 1 := ht.2
    omega
  | client =>
    rw [hk] at ht
    exact .inr ht
  | finish assigned =>
    rw [hk] at ht
    refine .inr ⟨ht.1, ?_⟩
    cases assigned with
    | true => exact ht.2
    | false => exact ht.2

theorem start_inv : Inv (start : FsProc N) := ⟨fun _ => grants_start, by rw [grants_start]; omega⟩

theorem step_inv [NeZero N] (hi : Inv s) (h : step m s = some s') : Inv s' := by
  rcases step_grants h with ⟨hf, hf', hg⟩ | ⟨hf, hg⟩
  · have := hi.none hf
    refine ⟨fun hno => ?_, by omega⟩
    rw [hf'] at hno
    cases hno
  · have := hi.one
    refine ⟨fun hno => ?_, by omega⟩
    have := hi.none (hf ▸ hno)
    omega

theorem granted_iff {s : FsProc N} : (∃ w, Granted s w) ↔ 1 ≤ grants s := by
  have hterm : ∀ w, workerTally 1 (fun assigned => if assigned then 1 else 0) (s.workers w) = 0 ↔ ¬ Granted s w := by
    intro w
    rw [workerTally, Nat.one_mul, Nat.add_eq_zero_iff, List.count_eq_zero, Granted, not_or]
    refine and_congr_right fun _ => ?_
    unfold threadTally
    split
    · rename_i f hf
      cases hf' : f.assigned <;> simp [hf, hf']
    · rename_i hno
      refine iff_of_true rfl ?_
      rintro ⟨f, hf, -⟩
      exact hno f hf
  have hzero : grants s = 0 ↔ ∀ w, ¬ Granted s w := by
    rw [grants, tally, Finset.sum_eq_zero_iff]
    simp only [Finset.mem_univ, true_imp_iff, hterm]
  rw [Nat.one_le_iff_ne_zero, ne_eq, hzero]
  simp

theorem GateWorks.of_engaged [NeZero N] {s : FsProc N} (h : s.inGlobalCheckpointing = true → ∃ w, Granted s w) :
    GateWorks s := by
  have hflag : Quiet s → s.inGlobalCheckpointing = false := by
    intro hq
    by_contra hne
    obtain ⟨w, hw | ⟨f, hf, -⟩⟩ := h (by simpa using hne)
    · exact (hq w).1 hw
    · exact (hq w).2 f hf
  refine ⟨h, fun hq w numUsed capacity ht hr => ?_, fun hq w ring ok ht hr => ?_⟩
  · refine ⟨s.setThread w .propose, ?_, ?_⟩
    · simp [step, ht, hr, hflag hq]
    · simp [setThread, setWorker]
  · have hf : (s.setRing 0 ring).inGlobalCheckpointing = false := hflag hq
    refine ⟨{ s.setRing 0 ring with inGlobalCheckpointing := true }.sendMessage w .assignCheckpointToWorker, ?_, ?_⟩
    · simp only [step, ht, hr, processFsProcMessage, hf, Bool.false_eq_true, if_false]
    · simp [sendMessage, setRing, setWorker]

theorem gateWorks_iff [NeZero N] {s : FsProc N} : GateWorks s ↔ (s.inGlobalCheckpointing = true → 1 ≤ grants s) := by
  rw [← granted_iff]
  exact ⟨fun h => h.engaged, GateWorks.of_engaged⟩

/-- As `Inv`, and the flag is not left set without a grant. -/
def Engaged (s : FsProc N) : Prop := Inv s ∧ (s.inGlobalCheckpointing = true → 1 ≤ grants s)

theorem step_engaged [NeZero N] (hi : Engaged s) (hk : kind m s ≠ .finish true) (h : step m s = some s') :
    Engaged s' := by
  refine ⟨step_inv hi.1 h, fun hf => ?_⟩
  rcases step_grants h with ⟨-, -, hg⟩ | ⟨hflag, hg⟩
  · omega
  · have := hi.2 (hflag ▸ hf)
    rw [if_neg hk] at hg
    omega

/-- Along a run in which the gate works in every state no granted checkpoint ends: its end leaves the
flag set. -/
theorem along_of_gateWorks [NeZero N] {ms : List (Move N)} (hi : Inv s) (hrun : run step ms s = some s')
    (hw : ∀ pre t, pre <+: ms → run step pre s = some t → GateWorks t) :
      Along step (fun m s => kind m s ≠ .finish true) ms s := by
  induction ms generalizing s with
  | nil => trivial
  | cons m ms ih =>
    obtain ⟨s1, h1, h2⟩ := run_cons_eq_some.1 hrun
    have hone : run step [m] s = some s1 := by rw [run_cons, h1]; rfl
    rw [along_cons_some h1]
    constructor
    · intro hk
      have hgate := gateWorks_iff.1 (hw [m] s1 ⟨ms, rfl⟩ hone)
      rcases step_grants h1 with ⟨hf, -, hg⟩ | ⟨hf, hg⟩
      · have ht := step_tally h1 1 fun assigned => if assigned then 1 else 0
        rw [hk] at ht
        have h0 := hi.none hf
        have : grants s1 + 1 = grants s := ht.2
        omega
      · rw [if_pos hk] at hg
        have hset : s.inGlobalCheckpointing = true := by
          by_contra hno
          have := hi.none (by simpa using hno)
          omega
        have := hgate (hf.trans hset)
        have := hi.one
        omega
    · refine ih (step_inv hi h1) h2 fun pre t hpre ht => hw (m :: pre) t ?_ ?_
      · exact List.cons_prefix_cons.2 ⟨rfl, hpre⟩
      · rw [run_cons, h1]
        exact ht

/-- In a run of any number of workers the gate works in every state if and only if no granted checkpoint
ends in it. -/
theorem gate_works_iff [NeZero N] {ms : List (Move N)} {s' : FsProc N} (hrun : run step ms start = some s') :
    (∀ pre s, pre <+: ms → run step pre start = some s → GateWorks s) ↔
      Along step (fun m s => kind m s ≠ .finish true) ms start := by
  refine ⟨along_of_gateWorks start_inv hrun, ?_⟩
  rintro ha pre s ⟨post, rfl⟩ hs
  have hstart : Engaged (start : FsProc N) := ⟨start_inv, fun hf => by cases hf⟩
  have hpre := ((along_append hs).mp ha).1
  exact gateWorks_iff.mpr (run_inv (fun _ _ _ hi hk h => step_engaged hi hk h) hs hpre hstart).2

/-- Worker `w` proposes a checkpoint and the primary handles it. -/
def proposal (w : Fin N) : List (Move N) :=
  [.submitJournalEntry w 10 10, .resume w true, .processMessage w true]

/-- Worker `w`, the only one, takes up the assignment and runs it to its end. -/
def checkpointAlone (w : Fin N) : List (Move N) :=
  .processMessage w true :: List.replicate 8 (.resume w true)

/-- After a granted checkpoint has begun, the gate works in every state so far. -/
theorem gate_works_first : ∃ s', run step (proposal (0 : Fin 1)) start = some s' ∧
    ∀ pre s, pre <+: proposal (0 : Fin 1) → run step pre start = some s → GateWorks s := by
  obtain ⟨s', hs'⟩ : ∃ s', run step (proposal (0 : Fin 1)) start = some s' := ⟨_, rfl⟩
  exact ⟨s', hs', (gate_works_iff hs').mpr (by decide)⟩

/-- A checkpoint is granted, taken and over, and the flag is still set: the next entry that finds the
journal nearly full proposes none. -/
theorem gate_stays_shut : ∃ s : FsProc 1, run step (proposal 0 ++ checkpointAlone 0) start = some s ∧
    Quiet s ∧ (s.workers 0).thread = .eventLoop ∧ step (.submitJournalEntry 0 10 10) s = some s ∧ ¬ GateWorks s := by
  refine ⟨_, rfl, ?_, rfl, rfl, ?_⟩
  · intro w
    obtain rfl : w = 0 := Subsingleton.elim ..
    exact ⟨by decide, fun f hf => by cases hf⟩
  · intro h
    obtain ⟨w, hw⟩ := h.engaged rfl
    obtain rfl : w = 0 := Subsingleton.elim ..
    rcases hw with hw | ⟨f, hf, -⟩
    · exact absurd hw (by decide)
    · cases hf

end Ufs.Proof.Gate
