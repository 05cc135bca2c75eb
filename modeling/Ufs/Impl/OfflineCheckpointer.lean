import Ufs.Impl.Inode
import Ufs.Impl.JournalIterator

/-!
# The offline checkpointer (`fsOfflineCheckpointer.cc`)

`Metadata` is what the device holds of the inodes and bitmap blocks, with the changes. `checkpoint`
takes the entries from the iterator of the global journal, the only item of its queue; a step is a
turn of the outer loop up to the inner one, or a turn of the inner one. Which reads are complete is
the environment's choice.
-/

namespace Ufs.Impl

/-- The inodes and bitmap blocks on the device. -/
structure Metadata where
  inodes : ℕ → CfsDinode
  bitmaps : ℕ → Bitmap

namespace Metadata

def changeBit (m : Metadata) (block nr : ℕ) (set : Bool) : Metadata :=
  { m with
    bitmaps := Function.update m.bitmaps block
      (if set then blockSetBit nr (m.bitmaps block) else blockClearBit nr (m.bitmaps block)) }

/-- One turn of the loop over `blocks_add_or_del`. -/
def changeBlock (m : Metadata) (x : (_ : UInt64) × Bool) : Metadata :=
  let lba := convPbaToLba x.1.toNat
  m.changeBit (getBmapBlockForLba lba) (lba % bpb) x.2

/-- One turn of the loop of `processJournalEntry`. -/
def processInodeLogEntry (m : Metadata) (ile : InodeLogEntry) : Metadata :=
  let sector := ino2SectorNo ile.inode.toNat
  let (dinode, blocksAddOrDel) := ile.applyChangesTo (m.inodes sector) ∅
  let m := { m with inodes := Function.update m.inodes sector dinode }
  let m := blocksAddOrDel.entries.foldl changeBlock m
  if ile.has InodeLogEntry.bitmapOpIDX then
    m.changeBit (getImapForInode ile.inode.toNat) (ile.inode.toNat % bpb) (ile.bitmapOp != 0)
  else m

/-- The inode log entries of the journal entry, one after the other. -/
def processJournalEntry (m : Metadata) (je : JournalEntry) : Metadata := je.ileVec.foldl processInodeLogEntry m

/-- The entries, one after the other. -/
def processJournal (m : Metadata) (jes : List JournalEntry) : Metadata := jes.foldl processJournalEntry m

def dependsOnConstraintSatisfied (m : Metadata) (dependsOn : AList fun _ : UInt64 => UInt64) : Bool :=
  dependsOn.entries.all fun kv => !decide ((m.inodes (ino2SectorNo kv.1.toNat)).syncID ≤ kv.2)

/-- In the global journal, `syncIDConstraintSatisfied` is true. -/
def canProcessJournalEntry (m : Metadata) (je : JournalEntry) : Bool :=
  je.ileVec.all fun ile => m.dependsOnConstraintSatisfied ile.dependsOn

end Metadata

open JournalIterator

/-- The loop that is at its head: the outer one, or the one over the entries. -/
inductive LoopHead where
  | queue
  | process
deriving DecidableEq

/-- The locals of `checkpoint` and the metadata. -/
structure Checkpointing where
  head : LoopHead
  ji : JournalIterator
  jentry : Option JournalEntry
  timesJentryEnqueued : ℕ
  numJentriesProcessed : ℕ
  metadata : Metadata

/-- The run goes on, has ended, or has ended with an exception or outside the buffer. -/
inductive Outcome where
  | running (s : Checkpointing)
  | finished (s : Checkpointing)
  | threw (s : Checkpointing) (what : String)
  | terminate
  | outOfBounds

namespace Checkpointing

def takeNextEntry (dev : Device) (s : Checkpointing) (next : LoopHead) : Outcome :=
  match s.ji.getNextEntry dev with
  | .entry je ji => .running { s with ji, jentry := some je, timesJentryEnqueued := 1, head := .process }
  | .null ji => .running { s with ji, jentry := none, timesJentryEnqueued := 0, head := next }
  | .terminate => .terminate
  | .outOfBounds => .outOfBounds

def turn (dev : Device) (s : Checkpointing) : Outcome :=
  if s.jentry.isNone && s.ji.empty then .finished s
  else if s.ji.pendingIO then .running s
  else
    match s.jentry with
    | none => s.takeNextEntry dev .queue
    | some je =>
      if decide (5 < s.timesJentryEnqueued) && !s.metadata.canProcessJournalEntry je then
        .threw s "QItem cannot make progress"
      else .running { s with head := .process }

def innerTurn (dev : Device) (s : Checkpointing) : Outcome :=
  match s.jentry with
  | none => .running { s with head := .queue }
  | some je =>
    if s.metadata.canProcessJournalEntry je then
      takeNextEntry dev
        { s with
          numJentriesProcessed := s.numJentriesProcessed + 1
          metadata := s.metadata.processJournalEntry je } .process
    else .running { s with head := .queue, timesJentryEnqueued := s.timesJentryEnqueued + 1 }

/-- `completes` says whether a pending read is complete. -/
def processCompletions (completes : Bool) (s : Checkpointing) : Checkpointing :=
  if completes then { s with ji := s.ji.onReadComplete } else s

/-- One turn of the loops, in which the device completes a read or not. -/
def step (dev : Device) (completes : Bool) (s : Checkpointing) : Outcome :=
  match s.head with
  | .queue => (s.processCompletions completes).turn dev
  | .process => s.innerTurn dev

def steps (dev : Device) (completes : ℕ → Bool) : ℕ → ℕ → Checkpointing → Outcome
  | 0, _, s => .running s
  | n + 1, t, s =>
    match s.step dev (completes t) with
    | .running s => steps dev completes n (t + 1) s
    | o => o

def seed (dev : Device) (m : Metadata) (ji : JournalIterator) : Outcome :=
  match ji.getNextEntry dev with
  | .entry je ji => .running ⟨.queue, ji, some je, 1, 0, m⟩
  | .null ji => .running ⟨.queue, ji, none, 0, 0, m⟩
  | .terminate => .terminate
  | .outOfBounds => .outOfBounds

end Checkpointing

/-- For at most `n` steps of its loop, on the superblock `dj` at the block `sb`. -/
def checkpointLoop (dev : Device) (completes : ℕ → Bool) (n sb devBufBlocks : ℕ) (m : Metadata)
    (dj : JSuperOnDisk) : Except String Outcome := do
  validateJSuper sb (JSuper.ofDisk dj)
  let jsuper ← extendToUnaccountedRegion (JSuper.ofDisk dj)
  match Checkpointing.seed dev m (JournalIterator.ofJSuper jsuper devBufBlocks) with
  | .running s => pure (s.steps dev completes n 0)
  | o => pure o

/-- After a loop that has finished, at the time `now`: it is not written if there was no entry. -/
def jsuperAfter (now : ℕ) (dj : JSuperOnDisk) (s : Checkpointing) : JSuperOnDisk :=
  if s.numJentriesProcessed = 0 then dj else writeEmptyJSuper now s.ji.jsuper

end Ufs.Impl
