import Mathlib.Data.Finset.Basic
import Ufs.Framework.Run

/-!
# Journal, checkpoint and superblock writes on a device with a write cache (`FsProc_Journal.cc`)

A completed write is durable when it carried `fua_flag`, as commit blocks and superblocks do, or
when a flush that was issued after its completion has completed. A write that was issued may be on
the device. The slots that a checkpoint releases are no longer covered by new superblocks, and new
entries may use them.
-/

namespace Ufs.Impl

open Function (update)

/-- A write that is sent to the device. -/
inductive DevWrite where
  | data (entry k : ℕ)
  | body (entry : ℕ)
  | commit (entry : ℕ)
  | image (checkpoint k : ℕ)
  | jsuper (n : ℕ)
deriving Repr, DecidableEq

def DevWrite.fua : DevWrite → Bool
  | .commit _ => true
  | .jsuper _ => true
  | _ => false

/-- The write is of the data of entry `e`. -/
def DevWrite.isData (e : ℕ) : DevWrite → Bool
  | .data e' _ => e' == e
  | _ => false

def DevWrite.isImage (c : ℕ) : DevWrite → Bool
  | .image c' _ => c' == c
  | _ => false

/-- `JournalEntryState`, with the writes that were completed when the flush was issued. -/
inductive CachedEntry where
  | unsubmitted
  | writeBody
  | flush (completed : Finset DevWrite)
  | writeCommit
deriving DecidableEq

/-- `flushed` has the writes that each completed flush covers; `released` the checkpoints that have
released their slots, `covers` those that a superblock was written after, and `usesSlotOf` the one
that released the slots of an entry. -/
structure WriteCache where
  issued : Finset DevWrite
  completed : Finset DevWrite
  durable : Finset DevWrite
  flushed : List (Finset DevWrite)
  entry : ℕ → CachedEntry
  usesSlotOf : ℕ → Option ℕ
  released : Finset ℕ
  covers : ℕ → Finset ℕ

namespace WriteCache

/-- A write is issued or completes, a flush, or a step of an entry or a checkpoint. -/
inductive Label where
  | writeData (e k : ℕ)
  | complete (w : DevWrite)
  /-- In slots that a checkpoint has released or that were never used. -/
  | submitEntry (e : ℕ) (slotOf : Option ℕ)
  /-- The body is written: `FLUSH`. -/
  | flush (e : ℕ)
  /-- The flush is completed: `WRITE_COMMIT`. -/
  | writeCommit (e : ℕ)
  | writeImage (c k : ℕ)
  | onCheckpointSuccess (c : ℕ)
  | writeJSuper (n : ℕ)
deriving Repr, DecidableEq

def issue (s : WriteCache) (w : DevWrite) : WriteCache := { s with issued := insert w s.issued }

/-- An entry is submitted when the data of its fsync is completed, and a checkpoint succeeds when its images are. -/
def step : Label → WriteCache → Option WriteCache
  | .writeData e k, s => if s.entry e = .unsubmitted ∧ .data e k ∉ s.issued then some (s.issue (.data e k)) else none
  | .complete w, s =>
    if w ∈ s.issued then some { s with
      completed := insert w s.completed
      durable := if w.fua then insert w s.durable else s.durable }
    else none
  | .submitEntry e slotOf, s =>
    if s.entry e = .unsubmitted ∧ (∀ w ∈ s.issued, w.isData e → w ∈ s.completed) ∧ (∀ c ∈ slotOf, c ∈ s.released) then
      some { s.issue (.body e) with
        entry := update s.entry e .writeBody
        usesSlotOf := update s.usesSlotOf e slotOf }
    else none
  | .flush e, s =>
    if s.entry e = .writeBody ∧ .body e ∈ s.completed then
      some { s with entry := update s.entry e (.flush s.completed) }
    else none
  | .writeCommit e, s =>
    match s.entry e with
    | .flush covered => some { s.issue (.commit e) with
        durable := s.durable ∪ covered
        flushed := covered :: s.flushed
        entry := update s.entry e .writeCommit }
    | _ => none
  | .writeImage c k, s => if c ∉ s.released ∧ .image c k ∉ s.issued then some (s.issue (.image c k)) else none
  | .onCheckpointSuccess c, s =>
    if ∀ w ∈ s.issued, w.isImage c → w ∈ s.completed then some { s with released := insert c s.released } else none
  | .writeJSuper n, s =>
    if .jsuper n ∈ s.issued then none
    else some { s.issue (.jsuper n) with covers := update s.covers n s.released }

/-- Nothing is issued. -/
def start : WriteCache := ⟨∅, ∅, ∅, [], fun _ => .unsubmitted, fun _ => none, ∅, fun _ => ∅⟩

end WriteCache

end Ufs.Impl
