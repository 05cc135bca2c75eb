import Ufs.Impl.JournalManager
import Ufs.Impl.SyncBatches

/-!
# Batches divide the inodes and fit into the journal

`Holds` says of a batch which inodes were put into it, and that the size it keeps is that of its
journal entry. The loop keeps it for every batch, and the batches one after the other have the
inodes that were visited.
-/

namespace Ufs.Proof.Sync

open Impl SyncBatchedContext

variable {logEntry : ℕ → InodeLogEntry} {c c' : SyncBatchedContext} {ino : ℕ} {part : List ℕ}

/-- A batch with the log entries of some inodes, in the order in which they were added. -/
structure Holds (logEntry : ℕ → InodeLogEntry) (part : List ℕ) (c : SyncBatchedContext) : Prop where
  entries : c.jentry.ileVec = part.map logEntry
  inodes : c.inodes = part.toFinset
  size : c.curLogEntrySize = c.jentry.calcBodySize
  fits : c.jentry.calcBodySize ≤ kMaxJournalBodySize

theorem holds_new : Holds logEntry [] new := ⟨rfl, rfl, rfl, by decide⟩

theorem Holds.tryAdd (h : Holds logEntry part c) (hadd : c.tryAdd ino (logEntry ino) = some c') :
    Holds logEntry (part ++ [ino]) c' := by
  unfold SyncBatchedContext.tryAdd at hadd
  split at hadd
  · cases hadd
  · next hfit =>
    cases hadd
    have hsize : JournalEntry.calcBodySize { c.jentry with ileVec := c.jentry.ileVec ++ [logEntry ino] } =
        c.jentry.calcBodySize + (logEntry ino).calcSize := by
      simp [JournalEntry.calcBodySize, Nat.add_assoc]
    refine ⟨by simp [h.entries], ?_, ?_, ?_⟩
    · rw [List.toFinset_append, ← h.inodes, Finset.union_comm]
      rfl
    · rw [hsize, ← h.size]
    · rw [hsize, ← h.size]
      exact Nat.le_of_not_lt hfit

theorem tryAdd_new_eq_none : new.tryAdd ino (logEntry ino) = none ↔
    kMaxJournalBodySize < JournalEntry.calcBodySize { JournalEntry.new with ileVec := [logEntry ino] } := by
  unfold SyncBatchedContext.tryAdd
  simp only [ite_eq_left_iff, reduceCtorEq, imp_false, Decidable.not_not]
  simp [new, JournalEntry.calcBodySize, JournalEntry.new]

/-- What the loop ends with: the batches that were full, and from there on batches that are not empty, or the exception
for one of the inodes. The batch it begins with is empty. -/
theorem addInodes_spec {inodes : List ℕ} (batches : List SyncBatchedContext) (h : Holds logEntry part c)
    (hnil : part = [] → c = new ∧ inodes ≠ []) : (addInodes logEntry inodes batches c = none ↔ ∃ i ∈ inodes,
      new.tryAdd i (logEntry i) = none) ∧
    ∀ all, addInodes logEntry inodes batches c = some all → ∃ last parts, all = batches ++ last ∧
      List.Forall₂ (Holds logEntry) parts last ∧ [] ∉ parts ∧ parts.flatten = part ++ inodes := by
  induction inodes generalizing batches c part with
  | nil =>
    refine ⟨by simp [addInodes], fun all hall => ⟨[c], [part], ?_, .cons h .nil, ?_, by simp⟩⟩
    · exact (Option.some.inj hall).symm
    · rw [List.mem_singleton]
      exact fun he => (hnil he.symm).2 rfl
  | cons i is ih =>
    unfold addInodes
    cases hadd : c.tryAdd i (logEntry i) with
    | some c' =>
      obtain ⟨hnone, hsome⟩ := ih batches (h.tryAdd hadd) (by simp)
      refine ⟨hnone.trans ?_, fun all hall => ?_⟩
      · -- what fits into this batch fits into an empty one
        have hfits : new.tryAdd i (logEntry i) ≠ none := by
          unfold SyncBatchedContext.tryAdd at hadd ⊢
          split at hadd
          · cases hadd
          · next hfit =>
            have h48 : new.curLogEntrySize ≤ c.curLogEntrySize := by
              rw [h.size]
              exact Nat.le_add_right 48 _
            rw [if_neg (by omega)]
            exact Option.some_ne_none _
        simp [hfits]
      · obtain ⟨last, parts, rfl, hall2, hempty, hflat⟩ := hsome all hall
        exact ⟨last, parts, rfl, hall2, hempty, by rw [hflat, List.append_assoc]; rfl⟩
    | none =>
      cases hnew : new.tryAdd i (logEntry i) with
      | none => exact ⟨by simp [hnew], nofun⟩
      | some c' =>
        obtain ⟨hnone, hsome⟩ := ih (batches ++ [c]) (holds_new.tryAdd hnew) (by simp)
        refine ⟨hnone.trans (by simp [hnew]), fun all hall => ?_⟩
        obtain ⟨last, parts, rfl, hall2, hempty, hflat⟩ := hsome all hall
        refine ⟨c :: last, part :: parts, by simp, .cons h hall2, ?_, by simp [hflat]⟩
        rw [List.mem_cons, not_or]
        refine ⟨fun he => ?_, hempty⟩
        rw [(hnil he.symm).1, hnew] at hadd
        cases hadd

theorem Holds.jblocksRequired_le (h : Holds logEntry part c) :
    JournalManager.jblocksRequired c.jentry.calcBodySize ≤ maxBlocks := by
  have hfits := h.fits
  simp only [JournalManager.jblocksRequired, maxBlocks, kMaxJournalBodySize, kMaxJournalEntrySize, bsize] at *
  omega

/-- `submitSyncBatches` throws, with nothing submitted, if and only if an entry is too large by
itself. Otherwise the batches, none of them empty, have the log entries of the inodes, each where
the inode is visited; each keeps the size of its journal entry, and is small enough for the journal.
The request has the number of the batches if and only if there are inodes or it had a zero. -/
theorem submitSyncBatches_divides_iff (logEntry : ℕ → InodeLogEntry) (q : SyncReq) (inodes : List ℕ) :
    (submitSyncBatches logEntry q inodes = none ↔ ∃ i ∈ inodes,
      kMaxJournalBodySize < JournalEntry.calcBodySize { JournalEntry.new with ileVec := [logEntry i] }) ∧
    ∀ q' batches, submitSyncBatches logEntry q inodes = some (q', batches) →
      (∃ parts, parts.flatten = inodes ∧ [] ∉ parts ∧ List.Forall₂ (fun part c => c.jentry.ileVec = part.map logEntry ∧
        c.inodes = part.toFinset ∧ c.curLogEntrySize = c.jentry.calcBodySize ∧
        JournalManager.jblocksRequired c.jentry.calcBodySize ≤ maxBlocks) parts batches) ∧
      (q'.syncBatchesCreated = batches.length ↔ inodes ≠ [] ∨ q.syncBatchesCreated = 0) := by
  unfold submitSyncBatches
  split
  · next hnil =>
    subst hnil
    refine ⟨by simp, fun q' batches h => ?_⟩
    cases h
    exact ⟨⟨[], rfl, List.not_mem_nil, .nil⟩, by simp⟩
  · next hne =>
    obtain ⟨hnone, hsome⟩ := addInodes_spec [] (holds_new : Holds logEntry [] new) fun _ => ⟨rfl, hne⟩
    refine ⟨?_, fun q' batches h => ?_⟩
    · rw [Option.map_eq_none_iff, hnone]
      simp only [tryAdd_new_eq_none]
    · obtain ⟨all, hall, heq⟩ := Option.map_eq_some_iff.mp h
      cases heq
      obtain ⟨last, parts, rfl, hall₂, hempty, hflat⟩ := hsome _ hall
      refine ⟨⟨parts, hflat, hempty, hall₂.imp fun part c hc =>
        ⟨hc.entries, hc.inodes, hc.size, hc.jblocksRequired_le⟩⟩, ?_⟩
      exact iff_of_true rfl (Or.inl hne)

/-- A syncunlinked with nothing to be synced, for which a request is used that had two batches before. -/
theorem created_of_last_use : ∃ q' : SyncReq, (∀ logEntry : ℕ → InodeLogEntry,
    submitSyncBatches logEntry ⟨.syncunlinked none, .syncunlinkedGuard, 0, false, 2, 2, 1, none⟩ [] = some (q', [])) ∧
    q'.syncBatchesCreated = 2 ∧ q'.syncBatchesFailed = 1 := ⟨_, fun _ => rfl, rfl, rfl⟩

end Ufs.Proof.Sync
