import Mathlib

/-!
# The journal superblock (`FsProc_JSuper.h`)

Each function holds `mutex_` and is one atomic step. Sums and differences of the counters are those
of `uint64_t`, which wrap (`u64Add`, `u64Sub`); assertions are compiled out (`Release`, the
default).
-/

namespace Ufs.Impl

/-- `a + b` of `uint64_t` values. -/
def u64Add (a b : ℕ) : ℕ := (a + b) % 2 ^ 64

theorem u64Add_of_lt {a b : ℕ} (h : a + b < 2 ^ 64) : u64Add a b = a + b := Nat.mod_eq_of_lt h

/-- `a - b` of `uint64_t` values. -/
def u64Sub (a b : ℕ) : ℕ := if b ≤ a then a - b else a + 2 ^ 64 - b

theorem u64Sub_of_le {a b : ℕ} (h : b ≤ a) : u64Sub a b = a - b := if_pos h

def bsize : ℕ := 4096

/-- `MAX_JOURNAL_ENTRY_SIZE`: the size of the largest journal entry, its commit block
included. -/
def kMaxJournalEntrySize : ℕ := 128 * 1024

def kMaxJournalBodySize : ℕ := kMaxJournalEntrySize - bsize

def maxUnaccountedJournalBytes : ℕ := 200 * (1024 * 1024)

def maxBlocks : ℕ := kMaxJournalEntrySize / bsize

/-- The hard watermark: how many blocks the superblock on the device may not account for. -/
def kMaxUnaccountedBlocks : ℕ := maxUnaccountedJournalBytes / bsize

/-- The soft watermark, `0.8 * kMaxUnaccountedBlocks`. -/
def kSoftMaxUnaccountedBlocks : ℕ := 8 * kMaxUnaccountedBlocks / 10

def jsuperMagic : ℕ := 0xBEEFBEEFBEEFBEEF

/-- The superblock of a journal as it is on the device. -/
structure JSuperOnDisk where
  jmagic : ℕ
  jsuperBlockno : ℕ
  jstartBlockno : ℕ
  jendBlockno : ℕ
  capacity : ℕ
  nUsed : ℕ
  head : ℕ
  tail : ℕ
  lastChkptTs : ℕ
deriving Repr, DecidableEq

/-- `JSuper`: the superblock in memory, the blocks that the device does not know of, and whether a
write is in progress. -/
structure JSuper where
  djsuper : JSuperOnDisk
  nblocksUnaccounted : ℕ
  writeInProgress : Bool
deriving Repr, DecidableEq

/-- `startIdx` and `writeJsuper` are left uninitialized (`none`) when the request is refused. -/
structure Slot where
  startIdx : Option ℕ
  noSpace : Bool
  writeJsuper : Option Bool
  retryAfterJsuperWritten : Bool
deriving Repr, DecidableEq

def Slot.Granted (s : Slot) : Prop := s.noSpace = false ∧ s.retryAfterJsuperWritten = false

instance (s : Slot) : Decidable s.Granted := inferInstanceAs (Decidable (_ ∧ _))

namespace JSuper

/-- The `JSuper` after its superblock was read. -/
def ofDisk (j : JSuperOnDisk) : JSuper := ⟨j, 0, false⟩

def capacity (j : JSuper) : ℕ := j.djsuper.capacity

def empty (j : JSuper) : Bool := j.djsuper.nUsed == 0

def size (j : JSuper) : ℕ := j.djsuper.nUsed

def getLastCheckpoint (j : JSuper) : ℕ := j.djsuper.lastChkptTs

def idxToBlockNo (j : JSuper) (idx : ℕ) : ℕ := j.djsuper.jstartBlockno + idx % j.djsuper.capacity

def noLoopArounds (j : JSuper) (startIdx nblocks : ℕ) : Bool :=
  let startBlock := j.idxToBlockNo startIdx
  let endIdx := u64Sub (u64Add startIdx nblocks) 1
  let endBlock := j.idxToBlockNo endIdx
  decide (startBlock < endBlock)

def unsafeCanAllocateNSlots (j : JSuper) (n : ℕ) : Bool :=
  decide (u64Add j.djsuper.nUsed n ≤ j.djsuper.capacity)

def unsafeShouldWriteJSuper (j : JSuper) : Bool :=
  decide (kSoftMaxUnaccountedBlocks < j.nblocksUnaccounted) && !j.writeInProgress

def unsafeShouldWaitTillJSuperWritten (j : JSuper) : Bool :=
  decide (kMaxUnaccountedBlocks ≤ j.nblocksUnaccounted)

def shouldWriteJSuper (j : JSuper) : Bool := j.unsafeShouldWriteJSuper

def unsafeNItemsEnqueued (j : JSuper) (n : ℕ) : JSuper :=
  { j with djsuper := { j.djsuper with
      head := u64Add j.djsuper.head n % j.djsuper.capacity
      nUsed := u64Add j.djsuper.nUsed n } }

def unsafeNItemsDequeued (j : JSuper) (n : ℕ) : JSuper :=
  { j with djsuper := { j.djsuper with
      tail := u64Add j.djsuper.tail n % j.djsuper.capacity
      nUsed := u64Sub j.djsuper.nUsed n } }

def nblocksTillEnd (j : JSuper) : ℕ := u64Add (u64Sub j.djsuper.jendBlockno (j.idxToBlockNo j.djsuper.head)) 1

/-- Fills the rest of the region when a maximal entry does not fit in it, if there is space; returns
the number of blocks. -/
def unsafeEnsureNextContiguousRegion (j : JSuper) : ℕ × JSuper :=
  if maxBlocks < j.nblocksTillEnd then (0, j)
  else if j.unsafeCanAllocateNSlots j.nblocksTillEnd then
    (j.nblocksTillEnd, j.unsafeNItemsEnqueued j.nblocksTillEnd)
  else (0, j)

def addUnaccounted (j : JSuper) (n : ℕ) : JSuper :=
  { j with nblocksUnaccounted := u64Add j.nblocksUnaccounted n }

def acquireNextNSlots (j : JSuper) (n : ℕ) : Slot × JSuper :=
  let retryAfterJsuperWritten := j.unsafeShouldWaitTillJSuperWritten
  let noSpace := !j.unsafeCanAllocateNSlots n
  if noSpace || retryAfterJsuperWritten then
    (⟨none, noSpace, none, retryAfterJsuperWritten⟩, j)
  else
    let j₁ := (j.unsafeNItemsEnqueued n).addUnaccounted n
    let (nfill, j₂) := j₁.unsafeEnsureNextContiguousRegion
    let j₃ := j₂.addUnaccounted nfill
    (⟨some j.djsuper.head, noSpace, some j₃.unsafeShouldWriteJSuper, retryAfterJsuperWritten⟩, j₃)

def releaseFirstNSlots (j : JSuper) (n : ℕ) : JSuper := (j.unsafeNItemsDequeued n).addUnaccounted n

/-- What is to be written, and the count that the completion subtracts; nothing while a write is in
progress. -/
def trySetWriteInProgress (j : JSuper) : Option (JSuperOnDisk × ℕ) × JSuper :=
  if j.writeInProgress then (none, j)
  else (some (j.djsuper, j.nblocksUnaccounted), { j with writeInProgress := true })

def onWriteComplete (j : JSuper) (oldNblocksUnaccounted : ℕ) : JSuper :=
  { j with
    writeInProgress := false
    nblocksUnaccounted := u64Sub j.nblocksUnaccounted oldNblocksUnaccounted }

def setLastCheckpoint (j : JSuper) (ts : ℕ) : JSuper :=
  { j with djsuper := { j.djsuper with lastChkptTs := ts } }.addUnaccounted kSoftMaxUnaccountedBlocks

end JSuper

/-- The superblock that `mkfs` (`fsRW.cc`) writes at block `sb`, `next` being the first
block after the journal. -/
def mkfsJSuper (sb next ts : ℕ) : JSuperOnDisk :=
  let jstart := sb + 1
  let jend := next - 1
  ⟨jsuperMagic, sb, jstart, jend, jend - jstart + 1, 0, 0, 0, ts⟩

def localJournalNblocks : ℕ := 4 * (1024 * 1024 * 1024) / bsize

def nmaxFspWorker : ℕ := 10

/-- After the superblock and the inode bitmaps. -/
def getWorkerJournalSb (widIdx : ℕ) : ℕ := 2 + (125000 / (8 * bsize) + 1) + widIdx * localJournalNblocks

/-- The superblock that `mkfs` writes for the global journal. -/
def globalJSuper (ts : ℕ) : JSuperOnDisk :=
  mkfsJSuper (getWorkerJournalSb 0) (getWorkerJournalSb nmaxFspWorker) ts

end Ufs.Impl
