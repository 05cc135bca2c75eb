import Mathlib.Algebra.Order.BigOperators.Group.Finset
import Ufs.Framework.Run
import Ufs.Impl.Batch

/-!
# A batch of inodes completes once

The counter of the old owner has the inodes whose context is gone, that of the new owner those that
were imported (`Counted`). An inode that is not there any more counts for the old owner only.
`batch_completes_iff`: every run of a batch ends after at most five steps for each inode, never
accesses the `BatchedCtx` after it was deleted, and calls the callback of the old owner once, after
all imports; that of the new owner is called once if and only if all inodes are there.
-/

namespace Ufs.Proof.Ownership

open Impl
open Function (update update_of_ne update_self)
open ReassignmentOp (State)

namespace Batch

variable {wid : ℕ} {inodeMap inoVec : Finset ℕ} {s s' : Batch} {ino : ℕ} {l : Batch.Label}

/-! ## The invariant -/

/-- Whether an inode in this stage was imported, if it is there. -/
def wasImported : BatchStage → Bool
  | .sent .kPrimaryImportSuccessNotification | .sent .kOldOwnerExportSuccessNotification | .ended => true
  | _ => false

/-- The inodes of the batch whose reassignment has ended. -/
def endedOf (inoVec : Finset ℕ) (s : Batch) : Finset ℕ := inoVec.filter fun ino => s.stage ino = .ended

/-- The inodes of the batch that the new owner has. -/
def importedOf (inodeMap inoVec : Finset ℕ) (s : Batch) : Finset ℕ :=
  inoVec.filter fun ino => ino ∈ inodeMap ∧ wasImported (s.stage ino) = true

theorem mem_endedOf : ino ∈ endedOf inoVec s ↔ ino ∈ inoVec ∧ s.stage ino = .ended := Finset.mem_filter

theorem mem_importedOf : ino ∈ importedOf inodeMap inoVec s ↔ ino ∈ inoVec ∧ ino ∈ inodeMap ∧
    wasImported (s.stage ino) = true := Finset.mem_filter

/-- The counters of the batch are the numbers of inodes at each stage, and each callback was called
once, when its counter was complete. -/
structure Counted (inodeMap inoVec : Finset ℕ) (s : Batch) : Prop where
  total : s.ctx.nTotal = inoVec.card
  completeOld : s.ctx.nCompleteOld = (endedOf inoVec s).card
  completeNew : s.ctx.nCompleteNew = (importedOf inodeMap inoVec s).card
  deleted : s.ctx.deleted = decide (s.ctx.nCompleteOld = s.ctx.nTotal)
  oldCalls : s.ctx.oldOwnerCalls = if s.ctx.nCompleteOld = s.ctx.nTotal then 1 else 0
  newCalls : s.ctx.newOwnerCalls = if s.ctx.nCompleteNew = s.ctx.nTotal then 1 else 0
  imported : s.imported = importedOf inodeMap inoVec s
  sent (ino : ℕ) (state : State) : s.stage ino = .sent state → ino ∈ inoVec ∧ ino ∈ inodeMap

theorem counted_start (hne : inoVec.Nonempty) : Counted inodeMap inoVec (Batch.start inoVec) := by
  have hcard := Finset.card_pos.2 hne
  have hended : endedOf inoVec (Batch.start inoVec) = ∅ := by
    ext ino
    simp [endedOf, Batch.start]
  have himported : importedOf inodeMap inoVec (Batch.start inoVec) = ∅ := by
    ext ino
    simp [importedOf, Batch.start, wasImported]
  refine ⟨rfl, by rw [hended]; rfl, by rw [himported]; rfl, ?_, ?_, ?_, himported.symm, nofun⟩
  · exact (decide_eq_false (by show ¬ 0 = inoVec.card; omega)).symm
  · exact (if_neg (by show ¬ 0 = inoVec.card; omega)).symm
  · exact (if_neg (by show ¬ 0 = inoVec.card; omega)).symm

theorem Counted.not_deleted (h : Counted inodeMap inoVec s) (hin : ino ∈ inoVec) (hstage : s.stage ino ≠ .ended) :
    s.ctx.deleted = false ∧ s.ctx.nCompleteOld < s.ctx.nTotal := by
  have hlt : s.ctx.nCompleteOld < s.ctx.nTotal := by
    rw [h.completeOld, h.total]
    refine Finset.card_lt_card (Finset.ssubset_iff_of_subset (Finset.filter_subset ..) |>.2 ⟨ino, hin, fun hmem => ?_⟩)
    exact hstage (Finset.mem_filter.1 hmem).2
  rw [h.deleted]
  exact ⟨decide_eq_false (Nat.ne_of_lt hlt), hlt⟩

variable {x : BatchStage}

theorem endedOf_set (hstage : s'.stage = update s.stage ino x) (hold : s.stage ino ≠ .ended) (hx : x ≠ .ended) :
    endedOf inoVec s' = endedOf inoVec s := by
  refine Finset.filter_congr fun i _ => ?_
  rw [hstage]
  rcases eq_or_ne i ino with rfl | hne
  · simp [hold, hx]
  · simp [hne]

theorem endedOf_end (hstage : s'.stage = update s.stage ino .ended) (hin : ino ∈ inoVec) :
    endedOf inoVec s' = insert ino (endedOf inoVec s) := by
  ext i
  rw [Finset.mem_insert, mem_endedOf, mem_endedOf, hstage]
  rcases eq_or_ne i ino with rfl | hne
  · simp [hin]
  · simp [hne]

theorem importedOf_set (hstage : s'.stage = update s.stage ino x)
    (hsame : ino ∈ inodeMap → wasImported x = wasImported (s.stage ino)) :
    importedOf inodeMap inoVec s' = importedOf inodeMap inoVec s := by
  refine Finset.filter_congr fun i _ => ?_
  rw [hstage]
  rcases eq_or_ne i ino with rfl | hne
  · by_cases hi : i ∈ inodeMap
    · simp [hi, hsame hi]
    · simp [hi]
  · simp [hne]

theorem importedOf_import (hstage : s'.stage = update s.stage ino x) (hin : ino ∈ inoVec) (hmap : ino ∈ inodeMap)
    (hx : wasImported x = true) : importedOf inodeMap inoVec s' = insert ino (importedOf inodeMap inoVec s) := by
  ext i
  rw [Finset.mem_insert, mem_importedOf, mem_importedOf, hstage]
  rcases eq_or_ne i ino with rfl | hne
  · simp [hin, hmap, hx]
  · simp [hne]

theorem sent_set (h : Counted inodeMap inoVec s) (hstage : s'.stage = update s.stage ino x)
    (hx : ∀ state, x = .sent state → ino ∈ inoVec ∧ ino ∈ inodeMap) (i : ℕ) (state : State)
    (hi : s'.stage i = .sent state) : i ∈ inoVec ∧ i ∈ inodeMap := by
  rw [hstage] at hi
  rcases eq_or_ne i ino with rfl | hne
  · rw [update_self] at hi
    exact hx state hi
  · rw [update_of_ne hne] at hi
    exact h.sent i state hi

/-! ## Steps -/

section

variable (h : Counted inodeMap inoVec s) (hin : ino ∈ inoVec)

include h hin

theorem Counted.pass (hmap : ino ∈ inodeMap) {state : State}
    (hold : s.stage ino ≠ .ended) (hsame : wasImported (.sent state) = wasImported (s.stage ino)) :
    Counted inodeMap inoVec (s.setStage ino (.sent state)) := by
  have hended : endedOf inoVec (s.setStage ino (.sent state)) = endedOf inoVec s := endedOf_set rfl hold (by simp)
  have himported : importedOf inodeMap inoVec (s.setStage ino (.sent state)) = importedOf inodeMap inoVec s :=
    importedOf_set rfl fun _ => hsame
  refine ⟨h.total, ?_, ?_, h.deleted, h.oldCalls, h.newCalls, ?_, sent_set h rfl fun _ _ => ⟨hin, hmap⟩⟩
  · rw [hended]
    exact h.completeOld
  · rw [himported]
    exact h.completeNew
  · rw [himported]
    exact h.imported

theorem Counted.old (hold : s.stage ino ≠ .ended) (himp : ino ∈ inodeMap → wasImported (s.stage ino) = true) :
    ∃ b, s.ctx.perInodeOldOwnerCallback = some b ∧ Counted inodeMap inoVec { s.setStage ino .ended with ctx := b } := by
  obtain ⟨hdel, hlt⟩ := h.not_deleted hin hold
  have hnot : ino ∉ endedOf inoVec s := fun hmem => hold (mem_endedOf.1 hmem).2
  have hcard (b : BatchedCtx) : (endedOf inoVec { s.setStage ino .ended with ctx := b }).card =
    s.ctx.nCompleteOld + 1 := by
    rw [endedOf_end (s := s) rfl hin, Finset.card_insert_of_notMem hnot, h.completeOld]
  have hsame (b : BatchedCtx) : importedOf inodeMap inoVec { s.setStage ino .ended with ctx := b } =
      importedOf inodeMap inoVec s := importedOf_set rfl fun hmap => (himp hmap).symm
  have hsent (b : BatchedCtx) (i : ℕ) (state : State) : ({ s.setStage ino .ended with ctx := b } : Batch).stage i =
    .sent state →
      i ∈ inoVec ∧ i ∈ inodeMap := sent_set h rfl (by simp) i state
  unfold BatchedCtx.perInodeOldOwnerCallback
  rw [hdel]
  dsimp only
  by_cases hall : s.ctx.nCompleteOld + 1 = s.ctx.nTotal
  · rw [if_pos hall]
    refine ⟨_, rfl, h.total, (hcard _).symm, ?_, ?_, ?_, ?_, ?_, hsent _⟩
    · rw [hsame]
      exact h.completeNew
    · exact (decide_eq_true hall).symm
    · refine Eq.trans ?_ (if_pos hall).symm
      show s.ctx.oldOwnerCalls + 1 = 1
      rw [h.oldCalls, if_neg (Nat.ne_of_lt hlt)]
    · exact h.newCalls
    · rw [hsame]
      exact h.imported
  · rw [if_neg hall]
    refine ⟨_, rfl, h.total, (hcard _).symm, ?_, ?_, ?_, ?_, ?_, hsent _⟩
    · rw [hsame]
      exact h.completeNew
    · exact (decide_eq_false hall).symm
    · refine Eq.trans ?_ (if_neg hall).symm
      show s.ctx.oldOwnerCalls = 0
      rw [h.oldCalls, if_neg (Nat.ne_of_lt hlt)]
    · exact h.newCalls
    · rw [hsame]
      exact h.imported

theorem Counted.new (hmap : ino ∈ inodeMap) (hstage : s.stage ino = .sent .kNewOwnerImport) :
    ∃ b, s.ctx.perInodeNewOwnerCallback = some b ∧
      Counted inodeMap inoVec { s.setStage ino (.sent .kPrimaryImportSuccessNotification) with ctx := b, imported := insert ino s.imported } := by
  have hold : s.stage ino ≠ .ended := by simp [hstage]
  obtain ⟨hdel, -⟩ := h.not_deleted hin hold
  have hnot : ino ∉ importedOf inodeMap inoVec s := fun hmem => by
    have := (mem_importedOf.1 hmem).2.2
    rw [hstage] at this
    cases this
  have hlt : s.ctx.nCompleteNew < s.ctx.nTotal := by
    rw [h.completeNew, h.total]
    exact Finset.card_lt_card (Finset.ssubset_iff_of_subset (Finset.filter_subset ..) |>.2 ⟨ino, hin, hnot⟩)
  obtain ⟨s', hs'⟩ : ∃ s' : BatchedCtx → Batch, s' = fun b =>
    { s.setStage ino (.sent .kPrimaryImportSuccessNotification) with ctx := b, imported := insert ino s.imported } := ⟨_, rfl⟩
  have hupdate (b : BatchedCtx) : (s' b).stage = update s.stage ino (.sent .kPrimaryImportSuccessNotification) := by
    rw [hs']
    rfl
  have hset (b : BatchedCtx) : importedOf inodeMap inoVec (s' b) = insert ino (importedOf inodeMap inoVec s) :=
    importedOf_import (hupdate b) hin hmap rfl
  have hcard (b : BatchedCtx) : (importedOf inodeMap inoVec (s' b)).card = s.ctx.nCompleteNew + 1 := by
    rw [hset, Finset.card_insert_of_notMem hnot, h.completeNew]
  have hended (b : BatchedCtx) : endedOf inoVec (s' b) = endedOf inoVec s := endedOf_set (hupdate b) hold (by simp)
  have hsent (b : BatchedCtx) := sent_set h (hupdate b) fun _ _ => ⟨hin, hmap⟩
  have himported (b : BatchedCtx) : insert ino s.imported = importedOf inodeMap inoVec
    (s' b) := by rw [hset, ← h.imported]
  rw [hs'] at hcard hended hsent himported
  unfold BatchedCtx.perInodeNewOwnerCallback
  rw [hdel]
  dsimp only
  by_cases hall : s.ctx.nCompleteNew + 1 = s.ctx.nTotal
  · rw [if_pos hall]
    refine ⟨_, rfl, h.total, ?_, (hcard _).symm, hdel ▸ h.deleted, h.oldCalls, ?_, himported _, hsent _⟩
    · rw [hended]
      exact h.completeOld
    · refine Eq.trans ?_ (if_pos hall).symm
      show s.ctx.newOwnerCalls + 1 = 1
      rw [h.newCalls, if_neg (Nat.ne_of_lt hlt)]
  · rw [if_neg hall]
    refine ⟨_, rfl, h.total, ?_, (hcard _).symm, hdel ▸ h.deleted, h.oldCalls, ?_, himported _, hsent _⟩
    · rw [hended]
      exact h.completeOld
    · refine Eq.trans ?_ (if_neg hall).symm
      show s.ctx.newOwnerCalls = 0
      rw [h.newCalls, if_neg (Nat.ne_of_lt hlt)]

end

/-- The messages that a stage is away from the end. -/
def rankOf : BatchStage → ℕ
  | .waiting => 5
  | .sent .kPrimaryRequestNewOwnerImport => 4
  | .sent .kNewOwnerImport => 3
  | .sent .kPrimaryImportSuccessNotification => 2
  | .sent .kOldOwnerExportSuccessNotification => 1
  | .ended => 0

/-- The messages that the batch is away from its end. -/
def rank (inoVec : Finset ℕ) (s : Batch) : ℕ := ∑ ino ∈ inoVec, rankOf (s.stage ino)

theorem rank_set (hin : ino ∈ inoVec) (hlt : rankOf x < rankOf (s.stage ino))
    (hstage : s'.stage = update s.stage ino x) : rank inoVec s' < rank inoVec s := by
  refine Finset.sum_lt_sum (fun i _ => ?_) ⟨ino, hin, ?_⟩
  · rw [hstage]
    rcases eq_or_ne i ino with rfl | hne
    · rw [update_self]
      exact Nat.le_of_lt hlt
    · rw [update_of_ne hne]
  · rw [hstage, update_self]
    exact hlt

/-- A step that counts and comes nearer to the end. -/
structure Takes (inodeMap inoVec : Finset ℕ) (s s' : Batch) : Prop where
  counted : Counted inodeMap inoVec s'
  rank : rank inoVec s' < rank inoVec s

theorem Counted.process (h : Counted inodeMap inoVec s) {state : State} (hstage : s.stage ino = .sent state) :
    ∃ s', s.processReassignmentCtx ino state = some s' ∧ Takes inodeMap inoVec s s' := by
  obtain ⟨hin, hmap⟩ := h.sent ino state hstage
  have hold : s.stage ino ≠ .ended := by simp [hstage]
  cases state with
  | kPrimaryRequestNewOwnerImport =>
    refine ⟨_, rfl, h.pass hin hmap hold (by rw [hstage]; rfl), rank_set hin ?_ rfl⟩
    rw [hstage]
    decide
  | kNewOwnerImport =>
    obtain ⟨b, hb, hcounted⟩ := h.new hin hmap hstage
    unfold Batch.processReassignmentCtx
    rw [hb]
    refine ⟨_, rfl, hcounted, rank_set hin ?_ rfl⟩
    rw [hstage]
    decide
  | kPrimaryImportSuccessNotification =>
    refine ⟨_, rfl, h.pass hin hmap hold (by rw [hstage]; rfl), rank_set hin ?_ rfl⟩
    rw [hstage]
    decide
  | kOldOwnerExportSuccessNotification =>
    obtain ⟨b, hb, hcounted⟩ := h.old hin hold fun _ => by rw [hstage]; rfl
    unfold Batch.processReassignmentCtx
    rw [hb]
    refine ⟨_, rfl, hcounted, rank_set hin ?_ rfl⟩
    rw [hstage]
    decide

section

variable (h : Counted inodeMap inoVec s) (hwid : wid = kMasterWidConst ∨ inoVec ⊆ inodeMap)

include h hwid

theorem Counted.export (hin : ino ∈ inoVec)
    (hstage : s.stage ino = .waiting) : ∃ s', s.ownerExportThroughPrimary wid inodeMap ino = some s' ∧
      Takes inodeMap inoVec s s' := by
  unfold Batch.ownerExportThroughPrimary
  by_cases hmap : ino ∈ inodeMap
  · rw [if_pos hmap]
    refine ⟨_, rfl, h.pass hin hmap (by simp [hstage]) (by rw [hstage]; rfl), rank_set hin ?_ rfl⟩
    rw [hstage]
    decide
  · obtain ⟨b, hb, hcounted⟩ := h.old hin (by simp [hstage]) fun hin => absurd hin hmap
    rw [if_neg hmap, if_pos (hwid.resolve_right fun hsub => hmap (hsub hin)), hb]
    refine ⟨_, rfl, hcounted, rank_set hin ?_ rfl⟩
    rw [hstage]
    decide

theorem Counted.step (hstep : Batch.step wid inodeMap inoVec l s = some s') : Takes inodeMap inoVec s s' := by
  cases l with
  | ownerExportThroughPrimary ino =>
    unfold Batch.step at hstep
    dsimp only at hstep
    split at hstep
    · next hcan =>
      obtain ⟨s1, hs1, htakes⟩ := h.export hwid hcan.1 hcan.2
      rw [hs1] at hstep
      exact Option.some.inj hstep ▸ htakes
    · cases hstep
  | processReassignmentCtx ino =>
    unfold Batch.step at hstep
    dsimp only at hstep
    split at hstep
    · next state hstage =>
      obtain ⟨s1, hs1, htakes⟩ := h.process hstage
      rw [hs1] at hstep
      exact Option.some.inj hstep ▸ htakes
    · cases hstep

theorem Counted.enabled (hin : ino ∈ inoVec) (hstage : s.stage ino ≠ .ended) :
    ∃ s', Batch.step wid inodeMap inoVec (.ownerExportThroughPrimary ino) s = some s' ∨
      Batch.step wid inodeMap inoVec (.processReassignmentCtx ino) s = some s' := by
  cases hs : s.stage ino with
  | waiting =>
    obtain ⟨s', hs', -⟩ := h.export hwid hin hs
    refine ⟨s', .inl ?_⟩
    unfold Batch.step
    dsimp only
    rw [if_pos ⟨hin, hs⟩, hs']
  | sent state =>
    obtain ⟨s', hs', -⟩ := h.process hs
    refine ⟨s', .inr ?_⟩
    unfold Batch.step
    dsimp only
    rw [hs]
    exact hs'
  | ended => exact absurd hs hstage

/-! ## Runs -/

theorem counted_run {ls : List Batch.Label} (hrun : run (Batch.step wid inodeMap inoVec) ls s = some s') :
    Counted inodeMap inoVec s' ∧ ls.length + rank inoVec s' ≤ rank inoVec s := by
  induction ls generalizing s with
  | nil =>
    cases hrun
    exact ⟨h, by simp⟩
  | cons l ls ih =>
    obtain ⟨s1, hstep, hrun⟩ := run_cons_eq_some.1 hrun
    have htakes := h.step hwid hstep
    obtain ⟨hcounted, hle⟩ := ih htakes.counted hrun
    have := htakes.rank
    rw [List.length_cons]
    exact ⟨hcounted, by omega⟩

end

theorem exists_ended (hwid : wid = kMasterWidConst ∨ inoVec ⊆ inodeMap) (s : Batch) (h : Counted inodeMap inoVec s) :
    ∃ ls s', run (Batch.step wid inodeMap inoVec) ls s = some s' ∧ ∀ ino ∈ inoVec, s'.stage ino = .ended := by
  induction hrank : rank inoVec s using Nat.strong_induction_on generalizing s with
  | _ n ih =>
    by_cases hall : ∀ ino ∈ inoVec, s.stage ino = .ended
    · exact ⟨[], s, rfl, hall⟩
    · rw [not_forall] at hall
      obtain ⟨ino, hino⟩ := hall
      rw [Classical.not_imp] at hino
      obtain ⟨s1, hstep⟩ := h.enabled hwid hino.1 hino.2
      have hgo {l : Batch.Label} (hstep : Batch.step wid inodeMap inoVec l s = some s1) : ∃ ls s',
          run (Batch.step wid inodeMap inoVec) ls s = some s' ∧ ∀ ino ∈ inoVec, s'.stage ino = .ended := by
        have htakes := h.step hwid hstep
        obtain ⟨ls, s', hrun, hended⟩ := ih _ (hrank ▸ htakes.rank) s1 htakes.counted rfl
        exact ⟨l :: ls, s', run_cons_eq_some.2 ⟨s1, hstep, hrun⟩, hended⟩
      rcases hstep with hstep | hstep
      · exact hgo hstep
      · exact hgo hstep

section

variable (h : Counted inodeMap inoVec s) (hended : ∀ ino ∈ inoVec, s.stage ino = .ended)

include h hended

theorem Counted.old_calls_of_ended : s.ctx.oldOwnerCalls = 1 := by
  rw [h.oldCalls, if_pos]
  rw [h.completeOld, h.total, endedOf, Finset.filter_true_of_mem hended]

theorem Counted.new_calls_of_ended : s.ctx.newOwnerCalls = 1 ↔ inoVec ⊆ inodeMap := by
  have hset : importedOf inodeMap inoVec s = inoVec ∩ inodeMap := by
    ext ino
    rw [mem_importedOf, Finset.mem_inter]
    refine ⟨fun h => ⟨h.1, h.2.1⟩, fun h => ⟨h.1, h.2, ?_⟩⟩
    rw [hended ino h.1]
    rfl
  rw [h.newCalls, h.completeNew, h.total, hset]
  constructor
  · intro hone
    split at hone
    · next hcard =>
      rw [← Finset.inter_eq_left]
      exact Finset.eq_of_subset_of_card_le Finset.inter_subset_left hcard.ge
    · cases hone
  · intro hsub
    rw [Finset.inter_eq_left.2 hsub, if_pos rfl]

end

theorem Counted.imported_of_old (h : Counted inodeMap inoVec s) (hold : s.ctx.oldOwnerCalls = 1) (hin : ino ∈ inoVec)
    (hmap : ino ∈ inodeMap) : ino ∈ s.imported := by
  rw [h.oldCalls] at hold
  split at hold
  · next hall =>
    rw [h.completeOld, h.total] at hall
    have hended : endedOf inoVec s = inoVec := Finset.eq_of_subset_of_card_le (Finset.filter_subset ..) hall.ge
    rw [h.imported, mem_importedOf]
    rw [← hended, mem_endedOf] at hin
    refine ⟨hin.1, hmap, ?_⟩
    rw [hin.2]
    rfl
  · cases hold

/-- What should hold of a batch in every state that is reached. -/
structure Orderly (wid : ℕ) (inodeMap inoVec : Finset ℕ) (s : Batch) : Prop where
  /-- Whoever has not ended goes on, with the `BatchedCtx` still there. -/
  enabled (ino : ℕ) : ino ∈ inoVec → s.stage ino ≠ .ended →
    ∃ s', Batch.step wid inodeMap inoVec (.ownerExportThroughPrimary ino) s = some s' ∨
      Batch.step wid inodeMap inoVec (.processReassignmentCtx ino) s = some s'
  atMostOnce : s.ctx.oldOwnerCalls ≤ 1 ∧ s.ctx.newOwnerCalls ≤ 1
  afterImports : s.ctx.oldOwnerCalls = 1 → ∀ ino ∈ inoVec, ino ∈ inodeMap → ino ∈ s.imported
  atEnd : (∀ ino ∈ inoVec, s.stage ino = .ended) → s.ctx.oldOwnerCalls = 1 ∧ s.ctx.newOwnerCalls = 1

/-- A batch of inodes of any worker, some of which may not be there any more when the worker is the
primary: every run has at most five steps for each inode, and is orderly in every state, if and only
if all inodes are there. -/
theorem batch_completes_iff (wid : ℕ) (inodeMap inoVec : Finset ℕ) (hne : inoVec.Nonempty)
    (hwid : wid = kMasterWidConst ∨ inoVec ⊆ inodeMap) :
    (∀ ls s, run (Batch.step wid inodeMap inoVec) ls (Batch.start inoVec) = some s →
      ls.length ≤ 5 * inoVec.card ∧ Orderly wid inodeMap inoVec s) ↔ inoVec ⊆ inodeMap := by
  have hstart : Counted inodeMap inoVec (Batch.start inoVec) := counted_start hne
  constructor
  · intro h
    obtain ⟨ls, s, hrun, hended⟩ := exists_ended hwid _ hstart
    exact ((counted_run hstart hwid hrun).1.new_calls_of_ended hended).mp ((h ls s hrun).2.atEnd hended).2
  · intro hsub ls s hrun
    obtain ⟨hcounted, hle⟩ := counted_run hstart hwid hrun
    have hrank : rank inoVec (Batch.start inoVec) = 5 * inoVec.card := by
      exact (Finset.sum_const_nat fun _ _ => rfl).trans (Nat.mul_comm ..)
    refine ⟨by omega, fun ino hin hstage => hcounted.enabled hwid hin hstage, ?_, fun hold ino hin hmap =>
      hcounted.imported_of_old hold hin hmap, fun hended => ⟨hcounted.old_calls_of_ended hended,
      (hcounted.new_calls_of_ended hended).mpr hsub⟩⟩
    rw [hcounted.oldCalls, hcounted.newCalls]
    refine ⟨?_, ?_⟩ <;> split <;> omega

theorem batch_completes_two : ({3, 5} : Finset ℕ).Nonempty ∧ ∀ ls s,
    run (Batch.step 0 {3, 5, 7} {3, 5}) ls (Batch.start {3, 5}) = some s →
      ls.length ≤ 5 * ({3, 5} : Finset ℕ).card ∧ Orderly 0 {3, 5, 7} {3, 5} s :=
  ⟨by decide, (batch_completes_iff 0 {3, 5, 7} {3, 5} (by decide) (Or.inl rfl)).mpr (by decide)⟩

/-- The primary exports two inodes, one of which it does not have any more: all is done, the
`BatchedCtx` is deleted, and the callback of the new owner was not called. -/
theorem new_owner_not_called : ∃ ls s, run (Batch.step 0 {3} {3, 5}) ls (Batch.start {3, 5}) = some s ∧
    (∀ ino ∈ ({3, 5} : Finset ℕ), s.stage ino = .ended) ∧ s.ctx = ⟨2, 2, 1, true, 1, 0⟩ :=
  ⟨[.ownerExportThroughPrimary 3, .ownerExportThroughPrimary 5, .processReassignmentCtx 3, .processReassignmentCtx 3,
    .processReassignmentCtx 3, .processReassignmentCtx 3], _, rfl, by decide, rfl⟩

end Batch

end Ufs.Proof.Ownership
