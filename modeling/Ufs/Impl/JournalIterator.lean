import Ufs.Impl.JournalEntry

/-!
# The journal iterator of the offline checkpointer (`fsOfflineCheckpointer.cc`)

A read is issued by `fillDevBuffer` and is pending until the throttler completes it; `devBuf` has
the blocks from the cursor on, and reads do not fail. An exception that leaves `getNextEntry`, which
is `noexcept`, ends the process (`terminate`). A body is decoded where it is in `dev_buf_`, so that
one that goes past the blocks that its header counts is read on from what the buffer has behind
them; a read past the end of the buffer is `outOfBounds`.
-/

namespace Ufs.Impl

abbrev Block := { bytes : List UInt8 // bytes.length = bsize }

/-- What the iterator reads from. `block` is the device. `behind` says of the entry at a block what is in
`dev_buf_` after the blocks of the entry when it is decoded: blocks of the same read, of an earlier
one, or the zeros of `spdk_dma_zmalloc`, up to the end of the buffer. -/
structure Device where
  block : ℕ → Block
  behind : ℕ → List UInt8

instance : CoeFun Device fun _ => ℕ → Block := ⟨Device.block⟩

/-- `devBufBlocks` is `dev_buf_size_ / BSIZE`. `refills` is what was left of the region at each
read, the last one first. -/
structure JournalIterator where
  jsuper : JSuper
  devBufBlocks : ℕ
  devBuf : List Block
  pendingIO : Bool
  refills : List ℕ

namespace JournalIterator

/-- The checks of a superblock at start-up. -/
def validateJSuper (sb : ℕ) (jsuper : JSuper) : Except String Unit :=
  let dj := jsuper.djsuper
  if dj.jmagic ≠ jsuperMagic then throw "invalid jsuper"
  else if sb ≠ dj.jsuperBlockno then throw "invalid jsuper"
  else if dj.capacity ≤ u64Add dj.nUsed kMaxUnaccountedBlocks then
    throw "unaccounted journal blocks overflowing into valid journal entries"
  else pure ()

/-- The ring is extended by the blocks that may have been used since the superblock was written. -/
def extendToUnaccountedRegion (jsuper : JSuper) : Except String JSuper :=
  let nUsed := jsuper.size
  let capacity := jsuper.capacity
  let nFree := u64Sub capacity nUsed
  let n := if kMaxUnaccountedBlocks < nFree then kMaxUnaccountedBlocks else nFree
  let (slot, jsuper') := jsuper.acquireNextNSlots n
  if slot.noSpace then throw "Failed to extend past the journal" else pure jsuper'

/-- The superblock that ends recovery. -/
def writeEmptyJSuper (now : ℕ) (jsuper : JSuper) : JSuperOnDisk :=
  { jsuper.djsuper with lastChkptTs := now, head := 0, tail := 0, nUsed := 0 }

def ofJSuper (jsuper : JSuper) (devBufBlocks : ℕ) : JournalIterator := ⟨jsuper, devBufBlocks, [], false, []⟩

def empty (it : JournalIterator) : Bool := it.jsuper.empty

/-- Unless there are none left. It reads no further than the end of the region. -/
def blocksToRead (it : JournalIterator) : ℕ :=
  let dj := it.jsuper.djsuper
  let blocksToRead := min it.devBufBlocks dj.nUsed
  let startBlock := it.jsuper.idxToBlockNo dj.tail
  let endBlock := it.jsuper.idxToBlockNo (u64Sub (u64Add dj.tail blocksToRead) 1)
  let endBlock := if endBlock < startBlock then dj.jendBlockno else endBlock
  u64Sub (endBlock + 1) startBlock

def fillDevBuffer (dev : Device) (it : JournalIterator) : JournalIterator :=
  if min it.devBufBlocks it.jsuper.size = 0 then it
  else
    let startBlock := it.jsuper.idxToBlockNo it.jsuper.djsuper.tail
    { it with
      devBuf := (List.range it.blocksToRead).map fun i => dev (startBlock + i)
      pendingIO := true
      refills := it.jsuper.size :: it.refills }

def onReadComplete (it : JournalIterator) : JournalIterator := { it with pendingIO := false }

def consume (nblocks : ℕ) (it : JournalIterator) : JournalIterator :=
  { it with devBuf := it.devBuf.drop nblocks, jsuper := it.jsuper.releaseFirstNSlots nblocks }

def isJournalHeaderValid (lastChkptTs : ℕ) (je : JournalEntry) : Bool :=
  decide (je.state = .deserializedPartial) && decide (lastChkptTs < je.ustimeSerialized.toNat)

/-- What the iterator finds at its cursor. -/
inductive AtCursor where
  | skip (nblocks : ℕ)
  | entry (je : JournalEntry) (nblocks : ℕ)
  | refill
  | terminate
  | outOfBounds

def readEntry (nblocks : ℕ) (buf : List UInt8) : AtCursor :=
  let bufSize := nblocks * bsize
  match JournalEntry.ofBuf buf bufSize with
  | .error .outOfBounds => .outOfBounds
  | .error (.runtimeError _) => .terminate
  | .ok je =>
    match je.deserializeBody buf bufSize with
    | .error .outOfBounds => .outOfBounds
    | .error (.runtimeError _) => .skip nblocks
    | .ok je =>
      match je.isValidCommitBlock (buf.drop ((nblocks - 1) * bsize)) bsize with
      | .error _ => .outOfBounds
      | .ok false => .skip nblocks
      | .ok true => .entry je nblocks

/-- `behind` is what the buffer has behind the entry at the cursor. -/
def atCursor (lastChkptTs : ℕ) (behind : List UInt8) (devBuf : List Block) : AtCursor :=
  match devBuf with
  | [] => .refill
  | block :: _ =>
    match JournalEntry.new.parseJournalEntryHeader block.1 with
    | .error _ => .outOfBounds
    | .ok (je, _) =>
      if !isJournalHeaderValid lastChkptTs je then .skip 1
      else if devBuf.length < je.nblocks.toNat then .refill
      else readEntry je.nblocks.toNat ((devBuf.take je.nblocks.toNat).flatMap Subtype.val ++ behind)

def cursor (dev : Device) (it : JournalIterator) : AtCursor :=
  atCursor it.jsuper.getLastCheckpoint (dev.behind (it.jsuper.idxToBlockNo it.jsuper.djsuper.tail)) it.devBuf

/-- What `getNextEntry` returns: an entry or a null pointer, unless it ends the process. -/
inductive NextEntry where
  | entry (je : JournalEntry) (it : JournalIterator)
  | null (it : JournalIterator)
  | terminate
  | outOfBounds

/-- For at most `n` turns; each but the last one consumes a block of the buffer. -/
def getNextEntryLoop (dev : Device) : ℕ → JournalIterator → NextEntry
  | 0, it => .null it
  | n + 1, it =>
    if it.empty then .null it
    else
      match it.cursor dev with
      | .skip nblocks => getNextEntryLoop dev n (it.consume nblocks)
      | .entry je nblocks => .entry je (it.consume nblocks)
      | .refill => .null (it.fillDevBuffer dev)
      | .terminate => .terminate
      | .outOfBounds => .outOfBounds

def getNextEntry (dev : Device) (it : JournalIterator) : NextEntry :=
  if it.empty || it.pendingIO then .null it
  else getNextEntryLoop dev (it.devBuf.length + 1) it

end JournalIterator

end Ufs.Impl
