import Ufs.Impl.Checkpoint

/-!
# What a reported checkpoint has written

`checkpoint_truthful_iff`: the report of a checkpoint is true exactly when every worker gets the
device memory it asks for, and no write is refused for another reason than `-ENOMEM` or completes
with an error: a refused write is skipped, and is not counted. The loop over the writes gives each
write the first code that is not `-ENOMEM`, so it ends if there are enough of them.
-/

namespace Ufs.Proof.Checkpoint

open Impl
open CheckpointWrites (submitWrites submitInput submitInputs complete checkpointWriteComplete)
open List

variable {δ : Type*}

variable {s : CheckpointWrites δ} {rs : List (WriteReq δ)} {workers : List (CheckpointWorker δ)}

/-- All writes that a checkpoint of the input issues. -/
def writes (ci : CheckpointInput δ) : List (WriteReq δ) :=
  ci.inodeWrites ++ CheckpointInput.bitmapWrites ci.bitmapsToCheckpoint ++
    CheckpointInput.bitmapWrites ci.inodeBitmapsToCheckpoint

/-- What the checkpoint promises: the inodes and bitmaps of all workers, as they are. -/
def promised (workers : List (CheckpointWorker δ)) : List (WriteReq δ) :=
  workers.flatMap fun w => writes (w.populateCheckpointInput w.checkpointInput)

/-! ## The loops -/

variable {rcs : List ℤ}

section

variable {fails : ℕ → Bool}

theorem submitWrites_append (rs rs' : List (WriteReq δ)) (rcs : List ℤ) (s : CheckpointWrites δ) :
    submitWrites fails (rs ++ rs') rcs s = (submitWrites fails rs rcs s).bind fun p =>
      submitWrites fails rs' p.1 p.2 := by
  induction rcs generalizing rs s with
  | nil =>
    cases rs with
    | nil => rfl
    | cons r rs => rfl
  | cons rc rcs ih =>
    cases rs with
    | nil => rfl
    | cons r rs =>
      simp only [cons_append, submitWrites]
      split
      · exact ih rs _
      split
      · exact ih rs _
      · exact ih (r :: rs) _

theorem submitInput_eq (ci : CheckpointInput δ) (rcs : List ℤ) (s : CheckpointWrites δ) :
    submitInput fails ci rcs s = submitWrites fails (writes ci) rcs s := by
  rw [writes, submitWrites_append, submitWrites_append, Option.bind_assoc]
  rfl

theorem submitInputs_eq (cis : List (CheckpointInput δ)) (rcs : List ℤ) (s : CheckpointWrites δ) :
    submitInputs fails cis rcs s = submitWrites fails (cis.flatMap writes) rcs s := by
  induction cis generalizing rcs s with
  | nil => cases rcs <;> rfl
  | cons ci cis ih =>
    rw [flatMap_cons, submitWrites_append, submitInputs, submitInput_eq]
    simp only [ih]
    rfl

/-- The writes of `rs` that are accepted when the final code of each is that of `cs`. -/
def acceptedOf : List (WriteReq δ) → List ℤ → List (WriteReq δ)
  | r :: rs, c :: cs => if c = 0 then r :: acceptedOf rs cs else acceptedOf rs cs
  | _, _ => []

/-- The return codes that end the attempts of a write: all but `ENOMEM`. -/
def finalCodes (rcs : List ℤ) : List ℤ := rcs.filter (· ≠ enomem)

theorem finalCodes_cons (rc : ℤ) (rcs : List ℤ) : finalCodes (rc :: rcs) = if rc =
    enomem then finalCodes rcs else rc :: finalCodes rcs := by
  simp only [finalCodes, filter_cons, decide_not, Bool.not_eq_true', decide_eq_false_iff_not]
  split <;> simp_all

/-- The counters fit the writes accepted and those that completed. -/
structure Counted (fails : ℕ → Bool) (s : CheckpointWrites δ) : Prop where
  issued : s.nIssued = s.accepted.length
  le : s.nCompleted ≤ s.nIssued
  failed : s.nFailed = (List.range s.nCompleted).countP fails

theorem Counted.issue (h : Counted fails s) (r : WriteReq δ) : Counted fails (s.issue r) := by
  refine ⟨?_, Nat.le_succ_of_le h.le, h.failed⟩
  simp [CheckpointWrites.issue, h.issued]

theorem Counted.wait (h : Counted fails s) : Counted fails (s.waitForCheckpointWriteCompletions fails) ∧
    (s.waitForCheckpointWriteCompletions fails).accepted = s.accepted ∧
    (s.waitForCheckpointWriteCompletions fails).nCompleted = s.accepted.length := by
  have key : ∀ (n : ℕ) (s : CheckpointWrites δ), Counted fails s → s.nCompleted + n = s.nIssued →
    Counted fails (complete fails n s) ∧
      (complete fails n s).accepted = s.accepted ∧
      (complete fails n s).nCompleted = s.accepted.length := by
    intro n
    induction n with
    | zero => exact fun s h hn => ⟨h, rfl, hn.trans h.issued⟩
    | succ n ih =>
      intro s h hn
      have hc : Counted fails (s.checkpointWriteComplete (fails s.nCompleted)) := by
        refine ⟨h.issued, by simp only [checkpointWriteComplete]; omega, ?_⟩
        simp only [checkpointWriteComplete, range_succ, countP_append, h.failed]
        cases hf : fails s.nCompleted <;> simp [hf]
      exact ih _ hc (by simp only [checkpointWriteComplete]; omega)
  exact key _ s h (Nat.add_sub_cancel' h.le)

theorem submitWrites_of_le (hs : Counted fails s) (hle : rs.length ≤ (finalCodes rcs).length) :
    ∃ rcs' s', submitWrites fails rs rcs s = some (rcs', s') ∧ Counted fails s' ∧
      s'.accepted = s.accepted ++ acceptedOf rs (finalCodes rcs) := by
  induction rcs generalizing rs s with
  | nil =>
    cases rs with
    | nil => exact ⟨[], s, rfl, hs, by simp [acceptedOf]⟩
    | cons r rs => simp [finalCodes] at hle
  | cons rc rcs ih =>
    cases rs with
    | nil => exact ⟨_, s, rfl, hs, by simp [acceptedOf]⟩
    | cons r rs =>
      rw [finalCodes_cons] at hle ⊢
      rw [submitWrites]
      by_cases hno : rc = enomem
      · have h0 : rc ≠ 0 := by rw [hno]; decide
        rw [if_pos hno] at hle ⊢
        obtain ⟨hw, hacc, -⟩ := hs.wait
        obtain ⟨rcs', s', h1, h2, h3⟩ := ih hw hle
        rw [if_neg h0, if_neg (not_not.2 hno)]
        exact ⟨rcs', s', h1, h2, h3.trans (by rw [hacc])⟩
      rw [if_neg hno] at hle ⊢
      by_cases h0 : rc = 0
      · obtain ⟨rcs', s', h1, h2, h3⟩ := ih (hs.issue r) (Nat.le_of_succ_le_succ hle)
        rw [if_pos h0, acceptedOf, if_pos h0]
        exact ⟨rcs', s', h1, h2, h3.trans (by simp [CheckpointWrites.issue])⟩
      · obtain ⟨rcs', s', h1, h2, h3⟩ := ih hs (Nat.le_of_succ_le_succ hle)
        rw [if_neg h0, if_pos hno, acceptedOf, if_neg h0]
        exact ⟨rcs', s', h1, h2, h3⟩

theorem submitWrites_of_lt (hlt : (finalCodes rcs).length < rs.length) : submitWrites fails rs rcs s = none := by
  induction rcs generalizing rs s with
  | nil =>
    cases rs with
    | nil => simp at hlt
    | cons r rs => rfl
  | cons rc rcs ih =>
    cases rs with
    | nil => simp at hlt
    | cons r rs =>
      rw [finalCodes_cons] at hlt
      rw [submitWrites]
      split
      · rename_i h0
        rw [if_neg (by rw [h0]; decide)] at hlt
        exact ih (Nat.lt_of_succ_lt_succ hlt)
      split
      · rename_i hno
        rw [if_neg hno] at hlt
        exact ih (Nat.lt_of_succ_lt_succ hlt)
      · rename_i hno
        rw [if_pos (not_not.1 hno)] at hlt
        exact ih hlt

end

theorem length_acceptedOf {cs : List ℤ} : (acceptedOf rs cs).length = (cs.take rs.length).count 0 := by
  induction rs generalizing cs with
  | nil => simp [acceptedOf]
  | cons r rs ih =>
    cases cs with
    | nil => simp [acceptedOf]
    | cons c cs =>
      rw [acceptedOf, length_cons, take_succ_cons, count_cons]
      by_cases hc : c = 0
      · simp [hc, ih]
      · simp [hc, ih]

theorem acceptedOf_eq_self {cs : List ℤ} (hle : rs.length ≤ cs.length) :
    acceptedOf rs cs = rs ↔ ∀ c ∈ cs.take rs.length, c = 0 := by
  have hlen : (cs.take rs.length).length = rs.length := by rw [length_take]; omega
  constructor
  · intro h
    have := congrArg List.length h
    rw [length_acceptedOf] at this
    have hall := count_eq_length.1 (this.trans hlen.symm)
    exact fun c hc => (hall c hc).symm
  · intro h
    induction rs generalizing cs with
    | nil => rfl
    | cons r rs ih =>
      cases cs with
      | nil => simp at hle
      | cons c cs =>
        rw [length_cons, take_succ_cons, forall_mem_cons] at h
        simp only [length_cons, Nat.add_le_add_iff_right] at hle
        rw [acceptedOf, if_pos h.1, ih hle (by rw [length_take]; omega) h.2]

/-! ## The workers' inputs -/

/-- The device has memory for the copies that the worker makes. -/
def HasMemory (w : CheckpointWorker δ) : Prop :=
  (w.checkpointInput.inodesToCheckpoint.entries ≠ [] → w.zmallocInodes = true) ∧
  (w.checkpointInput.bitmapsToCheckpoint.entries ++ w.checkpointInput.inodeBitmapsToCheckpoint.entries ≠ [] →
    w.zmallocBitmaps = true)

theorem prepare_cases (w : CheckpointWorker δ) : (HasMemory w ∧ ∃ ci, w.prepareForCheckpointing.1 = some ci ∧
      writes ci = writes (w.populateCheckpointInput w.checkpointInput)) ∨ ¬ HasMemory w ∧
        w.prepareForCheckpointing.1 = none := by
  have hlen : w.checkpointInput.bitmapsToCheckpoint.entries.length + w.checkpointInput.inodeBitmapsToCheckpoint.entries.length ≠ 0 ↔
      w.checkpointInput.bitmapsToCheckpoint.entries ++ w.checkpointInput.inodeBitmapsToCheckpoint.entries ≠ [] := by
    rw [← length_append, ne_eq, length_eq_zero_iff]
  simp only [CheckpointWorker.prepareForCheckpointing, ne_eq, length_eq_zero_iff, HasMemory] at hlen ⊢
  by_cases h1 : w.checkpointInput.inodesToCheckpoint.entries ≠ [] ∧ w.zmallocInodes = false
  · rw [if_pos h1]
    refine .inr ⟨fun h => ?_, rfl⟩
    rw [h.1 h1.1] at h1
    cases h1.2
  rw [if_neg h1]
  split
  · rename_i h2
    refine .inr ⟨fun h => ?_, rfl⟩
    rw [h.2 (hlen.1 h2.1)] at h2
    cases h2.2
  · rename_i h2
    refine .inl ⟨⟨fun h => ?_, fun h => ?_⟩, _, rfl, ?_⟩
    · simpa using fun hf => h1 ⟨h, hf⟩
    · simpa using fun hf => h2 ⟨hlen.2 h, hf⟩
    · split <;> split <;> rfl

theorem prepare_all (h : ∀ w ∈ workers, HasMemory w) :
    ∃ cis : List (CheckpointInput δ), (workers.map fun w => w.prepareForCheckpointing.1) = cis.map some ∧
      cis.flatMap writes = promised workers := by
  induction workers with
  | nil => exact ⟨[], rfl, rfl⟩
  | cons w ws ih =>
    obtain ⟨cis, hc, hp⟩ := ih fun v hv => h v (mem_cons_of_mem _ hv)
    rcases prepare_cases w with ⟨-, ci, hci, hwr⟩ | ⟨hno, -⟩
    · refine ⟨ci :: cis, ?_, ?_⟩
      · rw [map_cons, map_cons, hci, hc]
      · rw [flatMap_cons, hwr, hp, promised, promised, flatMap_cons]
    · exact absurd (h w (mem_cons_self ..)) hno

/-! ## The report -/

/-- Every worker is told of a success on its input, and all that was promised is written without
error; or every worker is told of a failure on its input. -/
def Truthful (workers : List (CheckpointWorker δ)) (fails : ℕ → Bool)
    (res : List (Notification δ) × CheckpointWrites δ) : Prop :=
  res.1.length = workers.length ∧
  ((∀ n ∈ res.1, ∃ ci, n = .onCheckpointSuccess (some ci)) ∧ res.2.accepted = promised workers ∧
      (∀ k < res.2.accepted.length, fails k = false) ∨
    ∀ n ∈ res.1, ∃ ci, n = .onCheckpointFailure (some ci))

theorem not_truthful_of_none {fails : ℕ → Bool} {cis : List (Option (CheckpointInput δ))} (hc : none ∈ cis)
    (s : CheckpointWrites δ) :
    ¬ Truthful workers fails (notifyAllProcsOnCheckpointComplete cis false, s) := by
  have hm : Notification.onCheckpointFailure none ∈ notifyAllProcsOnCheckpointComplete cis false :=
    mem_map.2 ⟨none, hc, rfl⟩
  rintro ⟨-, h | h⟩
  · obtain ⟨ci, hci⟩ := h.1 _ hm
    cases hci
  · obtain ⟨ci, hci⟩ := h _ hm
    cases hci

/-- When all workers have prepared, and all accepted writes are complete, the report is true if all
writes were accepted or one of them failed. -/
theorem report_truthful_iff {fails : ℕ → Bool} {cis : List (CheckpointInput δ)} (hlen : cis.length = workers.length)
    (hwr : cis.flatMap writes = promised workers) {t : CheckpointWrites δ} (ht : Counted fails t)
    (hcomp : t.nCompleted = t.accepted.length) (hshort : t.accepted.length ≤ (promised workers).length) :
    Truthful workers fails (notifyAllProcsOnCheckpointComplete (cis.map some) (decide (t.nFailed = 0)), t) ↔
      t.accepted = promised workers ∨ ∃ k < t.accepted.length, fails k = true := by
  have hfailed : t.nFailed = 0 ↔ ∀ k < t.accepted.length, fails k = false := by
    rw [ht.failed, hcomp, countP_eq_zero]
    simp
  by_cases h0 : t.nFailed = 0
  · have hok := hfailed.1 h0
    have hsome : ∀ n ∈ notifyAllProcsOnCheckpointComplete (cis.map some) true, ∃ ci,
      n = .onCheckpointSuccess (some ci) := by
      simp [notifyAllProcsOnCheckpointComplete]
    rw [decide_eq_true h0]
    constructor
    · rintro ⟨-, ⟨-, h, -⟩ | h⟩
      · exact .inl h
      · -- Without workers there is nothing to write.
        have hnil : cis = [] := eq_nil_iff_forall_not_mem.2 fun ci hci => by
          obtain ⟨ci', hci'⟩ := h (.onCheckpointSuccess (some ci)) (by simp [notifyAllProcsOnCheckpointComplete, hci])
          cases hci'
        rw [← hwr, hnil] at hshort ⊢
        exact .inl (length_eq_zero_iff.1 (Nat.le_zero.1 hshort))
    · rintro (h | ⟨k, hk, hf⟩)
      · exact ⟨by simp [notifyAllProcsOnCheckpointComplete, hlen], .inl ⟨hsome, h, hok⟩⟩
      · rw [hok k hk] at hf
        cases hf
  · -- An accepted write failed, and all are told so.
    have hfail : ∃ k < t.accepted.length, fails k = true := by
      by_contra hno
      refine h0 (hfailed.2 fun k hk => ?_)
      simpa using fun hf => hno ⟨k, hk, hf⟩
    rw [decide_eq_false h0]
    refine iff_of_true ⟨by simp [notifyAllProcsOnCheckpointComplete, hlen], .inr ?_⟩ (.inr hfail)
    simp [notifyAllProcsOnCheckpointComplete]

theorem checkpoint_of_no_memory {w : CheckpointWorker δ} (hw : w ∈ workers) (hno : ¬ HasMemory w) (rcs : List ℤ)
    (fails : ℕ → Bool) :
    ∃ cis, none ∈ cis ∧ checkpointAllJournals workers rcs fails = some
      (notifyAllProcsOnCheckpointComplete cis false, .none) := by
  have hnone : none ∈ workers.map fun w => w.prepareForCheckpointing.1 := by
    rcases prepare_cases w with ⟨h, -⟩ | ⟨-, h⟩
    · exact absurd h hno
    · exact mem_map.2 ⟨w, hw, h⟩
  have hcount : (workers.map fun w => w.prepareForCheckpointing.1).countP Option.isSome ≠ workers.length := by
    intro h
    rw [← length_map fun w : CheckpointWorker δ => w.prepareForCheckpointing.1] at h
    cases countP_eq_length.1 h none hnone
  exact ⟨_, hnone, by rw [checkpointAllJournals, if_pos hcount]⟩

/-- When all workers have the memory they ask for, the checkpoint ends if every write gets a code
other than `-ENOMEM`. -/
theorem checkpoint_of_memory (hmem : ∀ w ∈ workers, HasMemory w) (rcs : List ℤ) (fails : ℕ → Bool) :
    ((finalCodes rcs).length < (promised workers).length → checkpointAllJournals workers rcs fails = none) ∧
    ((promised workers).length ≤ (finalCodes rcs).length → ∃ (cis : List (CheckpointInput δ)) (t : _),
      checkpointAllJournals workers rcs fails = some (notifyAllProcsOnCheckpointComplete (cis.map some)
        (decide (t.nFailed = 0)), t) ∧
      cis.length = workers.length ∧ cis.flatMap writes = promised workers ∧ Counted fails t ∧
      t.nCompleted = t.accepted.length ∧ t.accepted = acceptedOf (promised workers) (finalCodes rcs)) := by
  obtain ⟨cis, hcis, hwr⟩ := prepare_all hmem
  have hlen : cis.length = workers.length := by
    have := congrArg List.length hcis
    simpa using this.symm
  have hcount : (cis.map some).countP Option.isSome = workers.length := by
    rw [countP_map, ← hlen, countP_eq_length]
    exact fun _ _ => rfl
  have hid : (cis.map some).filterMap id = cis := by simp [filterMap_map]
  have hstart : Counted fails (CheckpointWrites.none : CheckpointWrites δ) := ⟨rfl, Nat.le_refl _, rfl⟩
  simp only [checkpointAllJournals, hcis, hcount, ne_eq, not_true_eq_false, if_false, hid, submitInputs_eq, hwr]
  refine ⟨fun hlt => by rw [submitWrites_of_lt hlt]; rfl, fun hle => ?_⟩
  obtain ⟨rcs', s, hs, hcs, hacc⟩ := submitWrites_of_le hstart hle
  obtain ⟨hcw, hacc', hcomp⟩ := hcs.wait
  rw [hs]
  simp only [bind, Option.bind_some]
  generalize s.waitForCheckpointWriteCompletions fails = t at hcw hacc' hcomp ⊢
  refine ⟨cis, t, ?_, hlen, hwr, hcw, by rw [hcomp, hacc'], ?_⟩
  · rcases Nat.eq_zero_or_pos t.nFailed with h0 | h0
    · rw [if_neg (by omega), decide_eq_true h0]
    · rw [if_pos h0, decide_eq_false (Nat.ne_of_gt h0)]
  · rw [hacc', hacc, CheckpointWrites.none, nil_append]

/-- The checkpoint reports the truth if and only if every worker has the memory it asks for, every
write gets a code other than `-ENOMEM`, and either all these are 0 or an accepted write fails. -/
theorem checkpoint_truthful_iff (workers : List (CheckpointWorker δ)) (rcs : List ℤ) (fails : ℕ → Bool) :
    (∃ res, checkpointAllJournals workers rcs fails = some res ∧ Truthful workers fails res) ↔
      (∀ w ∈ workers, HasMemory w) ∧ (promised workers).length ≤ (finalCodes rcs).length ∧
        ((∀ rc ∈ (finalCodes rcs).take (promised workers).length, rc = 0) ∨
          ∃ k < ((finalCodes rcs).take (promised workers).length).count 0, fails k = true) := by
  by_cases hmem : ∀ w ∈ workers, HasMemory w
  swap
  · refine iff_of_false ?_ fun h => hmem h.1
    simp only [not_forall] at hmem
    obtain ⟨w, hw, hno⟩ := hmem
    obtain ⟨cis, hnone, heq⟩ := checkpoint_of_no_memory hw hno rcs fails
    rintro ⟨res, hres, htrue⟩
    cases heq.symm.trans hres
    exact not_truthful_of_none hnone _ htrue
  obtain ⟨hlt, hge⟩ := checkpoint_of_memory hmem rcs fails
  by_cases hle : (promised workers).length ≤ (finalCodes rcs).length
  swap
  · refine iff_of_false ?_ fun h => hle h.2.1
    rw [hlt (Nat.lt_of_not_le hle)]
    rintro ⟨res, hres, -⟩
    cases hres
  obtain ⟨cis, t, heq, hlen, hwr, hcw, hcomp, hacc⟩ := hge hle
  have hall : t.accepted = promised workers ↔
      ∀ rc ∈ (finalCodes rcs).take (promised workers).length, rc = 0 := by
    rw [hacc, acceptedOf_eq_self hle]
  have hlenacc : t.accepted.length = ((finalCodes rcs).take (promised workers).length).count 0 := by
    rw [hacc, length_acceptedOf]
  have hshort : t.accepted.length ≤ (promised workers).length := by
    rw [hlenacc]
    exact Nat.le_trans List.count_le_length (List.length_take_le ..)
  rw [← hlenacc, ← hall, and_iff_right hmem, and_iff_right hle,
    ← report_truthful_iff hlen hwr hcw hcomp hshort, heq]
  simp

/-- A checkpoint that a worker is told has succeeded, and in which no write was refused, has written
all that was promised. -/
theorem accepted_of_success {fails : ℕ → Bool} {res : List (Notification δ) × CheckpointWrites δ}
    (hres : checkpointAllJournals workers rcs fails = some res)
    (hsucc : ∀ n ∈ res.1, ∃ ci, n = .onCheckpointSuccess ci) (hrcs : ∀ rc ∈ rcs, rc = 0 ∨ rc = enomem) :
      res.2.accepted = promised workers := by
  by_cases hmem : ∀ w ∈ workers, HasMemory w
  swap
  · simp only [not_forall] at hmem
    obtain ⟨w, hw, hno⟩ := hmem
    obtain ⟨cis, hnone, heq⟩ := checkpoint_of_no_memory hw hno rcs fails
    cases heq.symm.trans hres
    obtain ⟨ci, hci⟩ := hsucc _ (mem_map.2 ⟨none, hnone, rfl⟩)
    cases hci
  obtain ⟨hlt, hge⟩ := checkpoint_of_memory hmem rcs fails
  by_cases hle : (promised workers).length ≤ (finalCodes rcs).length
  swap
  · rw [hlt (Nat.lt_of_not_le hle)] at hres
    cases hres
  obtain ⟨cis, t, heq, -, -, -, -, hacc⟩ := hge hle
  cases heq.symm.trans hres
  rw [hacc, acceptedOf_eq_self hle]
  intro rc hrc
  have hf := mem_filter.1 (mem_of_mem_take hrc)
  rcases hrcs rc hf.1 with h | h
  · exact h
  · simp [h] at hf

/-- When all workers have the memory they ask for and the device accepts and completes all writes, the
checkpoint succeeds. -/
theorem exists_success (hmem : ∀ w ∈ workers, HasMemory w) :
    ∃ (rcs : List ℤ) (fails : ℕ → Bool) (res : List (Notification δ) × CheckpointWrites δ),
      checkpointAllJournals workers rcs fails = some res ∧ (∀ n ∈ res.1, ∃ ci, n = .onCheckpointSuccess ci) ∧
        ∀ rc ∈ rcs, rc = 0 ∨ rc = enomem := by
  have hcodes : finalCodes (List.replicate (promised workers).length 0) = List.replicate
    (promised workers).length 0 := by
    apply filter_eq_self.2
    intro rc hrc
    rw [eq_of_mem_replicate hrc]
    decide
  obtain ⟨cis, t, heq, -, -, hcw, -, -⟩ :=
    (checkpoint_of_memory hmem (List.replicate (promised workers).length 0) fun _ => false).2
      (by rw [hcodes, length_replicate])
  have h0 : t.nFailed = 0 := by
    rw [hcw.failed, countP_eq_zero]
    exact fun _ _ => Bool.false_ne_true
  refine ⟨_, _, _, heq, ?_, fun rc hrc => .inl (eq_of_mem_replicate hrc)⟩
  rw [decide_eq_true h0]
  intro n hn
  obtain ⟨ci, -, rfl⟩ := mem_map.1 hn
  exact ⟨ci, rfl⟩

/-- One inode to write, and memory for it. -/
def oneInode : CheckpointWorker ℕ where
  checkpointInput := { CheckpointInput.new with inodesToCheckpoint := ⟨[⟨7, none⟩], by simp [List.NodupKeys]⟩ }
  checkpointInProgress := false
  images := ⟨id, id, id⟩
  size := 2
  zmallocInodes := true
  zmallocBitmaps := true

/-- The write of the inode is refused with `-EIO`: the checkpoint is reported as a success, and
nothing is written. -/
theorem checkpoint_skips_write : ∃ ci s, checkpointAllJournals [oneInode] [-5] (fun _ => false) = some
    ([.onCheckpointSuccess (some ci)], s) ∧
    s.accepted = [] ∧ ¬ Truthful [oneInode] (fun _ => false) ([.onCheckpointSuccess (some ci)], s) := by
  refine ⟨_, _, rfl, rfl, ?_⟩
  rintro ⟨-, h | h⟩
  · exact absurd h.2.1 (by decide)
  · obtain ⟨ci, hci⟩ := h _ (List.mem_singleton_self _)
    cases hci

end Ufs.Proof.Checkpoint
