import Ufs.Impl.Checkpoint
import Ufs.Impl.JournalEntry

/-!
# Inodes and bitmaps (`FsProc_FsInternal.h`, `FsProc_JournalBasic.cc`)

An extent offset past the last extent has the array index `-1` (`none`), and the assignments to that
element change the 16 bytes before the array, which are those of `mtime`.
-/

namespace Ufs.Impl

/-! ## Extents and blocks -/

/-- The blocks of a full extent at index `i`. -/
def extentArrIdx2BlockAllocUnit (i : ℕ) : ℕ :=
  if nextentArr ≤ i then 0
  else if i = 0 then 1
  else if i = 1 then 2048
  else if i = nextentArr - 1 then lastExtentAllocUnitByte / bsize
  else bpb * 2 ^ (i - 2)

def findExtentArrIdx (iBlockIdx : ℕ) : List (Fin nextentArr) → ℕ → Option (Fin nextentArr)
  | [], _ => none
  | i :: is, blockNum =>
    let blockNum := blockNum + extentArrIdx2BlockAllocUnit i
    if iBlockIdx < blockNum then some i else findExtentArrIdx iBlockIdx is blockNum

/-- The extent of a block of a file, `none` being `-1`. -/
def getCurrentExtentArrIdx (iBlockIdx : UInt32) : Option (Fin nextentArr) :=
  findExtentArrIdx iBlockIdx.toNat (List.finRange nextentArr) 0

def getImapStartBlock : ℕ := 1 + 1

def getWidForBitmapBlock (bitmapBlockNo : ℕ) : ℕ :=
  u64Sub bitmapBlockNo getBmapStartBlock / getDevBmapNumBlocksForWorker

def convPbaToLba (pba : ℕ) : ℕ := u64Sub pba getDataStartBlock

/-- The argument and the result are `uint32_t`. -/
def getBmapBlockForPba (pba : ℕ) : ℕ := getBmapBlockForLba (convPbaToLba (pba % 2 ^ 32))

def getImapForInode (inode : ℕ) : ℕ := (inode / bpb + getImapStartBlock) % 2 ^ 32

/-! ## Bitmap blocks -/

/-- The bits of a bitmap block. -/
abbrev Bitmap := ℕ → Bool

def blockSetBit (nr : ℕ) (b : Bitmap) : Bitmap := Function.update b nr true

def blockClearBit (nr : ℕ) (b : Bitmap) : Bitmap := Function.update b nr false

/-! ## Inodes -/

/-- An extent on the device. -/
structure CfsExtent where
  iBlockOffset : UInt32
  numBlocks : UInt32
  blockNo : UInt64
deriving Repr, DecidableEq

/-- An inode on the device. -/
structure CfsDinode where
  nlink : UInt8
  iDentryCount : UInt16
  type : UInt32
  iNo : UInt32
  iUid : UInt32
  iGid : UInt32
  iBlockCount : UInt32
  size : UInt64
  syncID : UInt64
  atime : Timeval
  ctime : Timeval
  mtime : Timeval
  extArray : Fin nextentArr → CfsExtent

/-- An inode of zeros. -/
def CfsDinode.zero : CfsDinode :=
  ⟨0, 0, 0, 0, 0, 0, 0, 0, 0, ⟨0, 0⟩, ⟨0, 0⟩, ⟨0, 0⟩, fun _ => ⟨0, 0, 0⟩⟩

def CfsDinode.setExtent (d : CfsDinode) (idx : Option (Fin nextentArr)) (x : CfsExtent) : CfsDinode :=
  match idx with
  | some i => { d with extArray := Function.update d.extArray i x }
  | none => { d with mtime := ⟨x.iBlockOffset.toUInt64 + x.numBlocks.toUInt64 * 2 ^ 32, x.blockNo⟩ }

namespace InodeLogEntry

def modeIDX : UInt32 := 0x1
def uidIDX : UInt32 := 0x2
def gidIDX : UInt32 := 0x4
def atimeIDX : UInt32 := 0x8
def mtimeIDX : UInt32 := 0x10
def ctimeIDX : UInt32 := 0x20
def sizeIDX : UInt32 := 0x40
def blockCountIDX : UInt32 := 0x80
def bitmapOpIDX : UInt32 := 0x100
def dentryCountIDX : UInt32 := 0x200
def nlinkIDX : UInt32 := 0x400

def has (e : InodeLogEntry) (idx : UInt32) : Bool := e.optfieldBitarr &&& idx != 0

def applyFields (e : InodeLogEntry) (dst : CfsDinode) : CfsDinode :=
  let dst := { dst with syncID := e.syncID }
  let dst := if e.has modeIDX then { dst with type := e.mode } else dst
  let dst := if e.has uidIDX then { dst with iUid := e.uid } else dst
  let dst := if e.has gidIDX then { dst with iGid := e.gid } else dst
  let dst := if e.has atimeIDX then { dst with atime := e.atime } else dst
  let dst := if e.has ctimeIDX then { dst with ctime := e.ctime } else dst
  let dst := if e.has mtimeIDX then { dst with mtime := e.mtime } else dst
  let dst := if e.has sizeIDX then { dst with size := e.size } else dst
  let dst := if e.has blockCountIDX then { dst with iBlockCount := e.blockCount } else dst
  let dst := if e.has dentryCountIDX then { dst with iDentryCount := e.dentryCount } else dst
  if e.has nlinkIDX then { dst with nlink := e.nlink } else dst

abbrev BlocksAddOrDel := AList fun _ : UInt64 => Bool

def addExtent (dst : CfsDinode) (x : (_ : UInt64) × ExtMapVal) : CfsDinode :=
  dst.setExtent (getCurrentExtentArrIdx x.2.iBlockOffset)
    ⟨x.2.iBlockOffset, x.2.numBlocks, x.1 - UInt64.ofNat getDataStartBlock⟩

def delExtent (dst : CfsDinode) (x : (_ : UInt64) × ExtMapVal) : CfsDinode :=
  dst.setExtent (getCurrentExtentArrIdx x.2.iBlockOffset) ⟨0, 0, x.1 - UInt64.ofNat getDataStartBlock⟩

/-- `block_to_ts`, which has the `seq_no` of the blocks that are added, has none for it or an older one. -/
def deletes (e : InodeLogEntry) (x : (_ : UInt64) × ExtMapVal) : Bool :=
  match e.extAdd.lookup x.1 with
  | none => true
  | some val => decide (val.seqNo < x.2.seqNo)

def record (add : Bool) (m : BlocksAddOrDel) (x : (_ : UInt64) × ExtMapVal) : BlocksAddOrDel :=
  if x.2.bmapModified then m.insert x.1 add else m

/-- The inode after the log entry, and the bits that it sets and clears. -/
def applyChangesTo (e : InodeLogEntry) (dst : CfsDinode) (blocksAddOrDel : BlocksAddOrDel) :
    CfsDinode × BlocksAddOrDel :=
  let dst := e.applyFields dst
  let dst := e.extAdd.entries.foldl addExtent dst
  let blocksAddOrDel := e.extAdd.entries.foldl (record true) blocksAddOrDel
  let dels := e.extDel.entries.filter e.deletes
  (dels.foldl delExtent dst, dels.foldl (record false) blocksAddOrDel)

end InodeLogEntry

end Ufs.Impl
