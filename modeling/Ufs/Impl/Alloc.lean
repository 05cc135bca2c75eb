import Ufs.Impl.Inode

/-!
# Taking a unit of data blocks (`FsImpl::allocateDataBlocks`, `util.cc`)

A unit is found by its bitmap blocks: one bit for a unit of one block, a bit in each 2048 for the
second extent, and the first word of the first bitmap block of a larger unit. The loop around the
search may go on forever; it has no result when the fuel is used up.
-/

namespace Ufs.Impl

/-! ## Free bits (`util.cc`) -/

/-- The first clear bit among `n` bits that are `jump` apart. -/
def findClear (b : Bitmap) (jump : ℕ) : ℕ → ℕ → Option ℕ
  | 0, _ => none
  | n + 1, bitNo => if b bitNo then findClear b jump n (bitNo + jump) else some bitNo

/-- The first clear bit after `startBitNo`. -/
def findBlockFreeBitNoStartFrom (b : Bitmap) (startBitNo : ℤ) (numBitsPerBlock : ℕ) : Option ℕ :=
  findClear b 1 (numBitsPerBlock - (startBitNo + 1).toNat) (startBitNo + 1).toNat

/-- For `start_bit_no = 0`, the only one it is called with. -/
def findBlockFreeJumpBitsNo (b : Bitmap) (numBitsPerBlock numBitsJump : ℕ) : Option ℕ :=
  (findClear b numBitsJump ((numBitsPerBlock + numBitsJump - 1) / numBitsJump) 0).filter
    fun bitNo => decide (numBitsJump ≤ numBitsPerBlock - bitNo)

def firstIntZero (b : Bitmap) : Bool := (List.range 32).all fun nr => !b nr

/-- `memset(buf, 1, BSIZE)`: every byte is 1. -/
def memsetOne : Bitmap := fun nr => nr % 8 == 0

/-! ## The search -/

/-- For each size of units the cursor of the search, a bitmap block of the extent and a bit in it,
and the bitmap blocks in memory. -/
structure AllocState where
  nextDataBlockAllocWithinUnitBlockIdx : ℕ → ℕ
  nextDataBlockAllocCurBlkBitNo : ℕ → ℤ
  bmapBlockBuf : ℕ → Option Bitmap

/-- The bit `bit` of the `i`-th bitmap block of the extent, a bitmap block to be read (0), or no unit (-1). -/
inductive AllocResult where
  | allocated (i bit : ℕ)
  | reading
  | full
deriving Repr, DecidableEq

namespace AllocState

/-- A worker's search after the device was formatted: all bitmap blocks are in memory and empty. The
cursors are those of a new `FsImpl`, as nothing calls `initDataBlockAllocNextFreeBlockIdx`. -/
def formatted : AllocState := ⟨fun _ => 0, fun _ => 0, fun _ => some fun _ => false⟩

def setIdx (st : AllocState) (unit i : ℕ) : AllocState :=
  { st with nextDataBlockAllocWithinUnitBlockIdx :=
      Function.update st.nextDataBlockAllocWithinUnitBlockIdx unit i }

def setBitNo (st : AllocState) (unit : ℕ) (bitNo : ℤ) : AllocState :=
  { st with nextDataBlockAllocCurBlkBitNo :=
      Function.update st.nextDataBlockAllocCurBlkBitNo unit bitNo }

def setBmap (st : AllocState) (bno : ℕ) (b : Bitmap) : AllocState :=
  { st with bmapBlockBuf := Function.update st.bmapBlockBuf bno (some b) }

end AllocState

section

-- `curBmapBlockDiskBlockNo`, `curMaxBmapBlocks` and `curAllocationUnit`
variable (curBmap curMax unit : ℕ)

def curBmapBlockNo (i : ℕ) : ℕ := (curBmap + i) % 2 ^ 32

/-- The search for a unit of one block, `n` turns before its end. -/
def allocOneBlock : ℕ → ℕ → AllocState → AllocResult × AllocState
  | 0, _, st => (.full, st)
  | n + 1, k, st =>
    let i := k % curMax
    let st := st.setIdx unit i
    match st.bmapBlockBuf (curBmapBlockNo curBmap i) with
    | none => (.reading, st)
    | some b =>
      match findBlockFreeBitNoStartFrom b (st.nextDataBlockAllocCurBlkBitNo unit) bpb with
      | some bit =>
        (.allocated i bit, (st.setBmap (curBmapBlockNo curBmap i) (blockSetBit bit b)).setBitNo unit bit)
      | none =>
        let st := st.setBitNo unit (-1)
        match if curMax = 1 then findBlockFreeBitNoStartFrom b (-1) bpb else none with
        | some bit =>
          (.allocated i bit, (st.setBmap (curBmapBlockNo curBmap i) (blockSetBit bit b)).setBitNo unit bit)
        | none => allocOneBlock n (k + 1) st

/-- The search for a unit that is a part of what a bitmap block describes. -/
def allocJump : ℕ → ℕ → AllocState → AllocResult × AllocState
  | 0, _, st => (.full, st)
  | n + 1, k, st =>
    let i := k % curMax
    let st := st.setIdx unit i
    match st.bmapBlockBuf (curBmapBlockNo curBmap i) with
    | none => (.reading, st)
    | some b =>
      match findBlockFreeJumpBitsNo b bpb unit with
      | some bit => (.allocated i bit, st.setBmap (curBmapBlockNo curBmap i) (blockSetBit bit b))
      | none => allocJump n (k + 1) st

/-- The search for a unit that has bitmap blocks of its own, of which only the first is marked. -/
def allocBmapBlocks : ℕ → ℕ → AllocState → AllocResult × AllocState
  | 0, _, st => (.full, st)
  | n + 1, i, st =>
    match st.bmapBlockBuf (curBmapBlockNo curBmap i) with
    | none => (.reading, st)
    | some b =>
      if firstIntZero b then (.allocated i 0, st.setBmap (curBmapBlockNo curBmap i) memsetOne)
      else allocBmapBlocks n (i + unit / bpb) st

end

namespace Layout

/-- A `uint32_t`. -/
def curBmapBlockDiskBlockNo (L : Layout) (idx : ℕ) (k : Fin nextentArr) : ℕ :=
  (L.getBmapStartBlockForWorker idx +
    L.getDataBMapStartBlockNoForExtentArrIdx k L.getDevBmapNumBlocksForWorker) % 2 ^ 32

def curMaxBmapBlocks (L : Layout) (k : Fin nextentArr) : ℕ :=
  L.maxBmapBlockNum k L.getDevBmapNumBlocksForWorker

/-- The turns of `for (k = start; k < start + curMaxBmapBlocks; ++k)`, all `uint32_t`. -/
def turns (L : Layout) (k : Fin nextentArr) (start : ℕ) : ℕ :=
  (start + L.curMaxBmapBlocks k) % 2 ^ 32 - start

/-- The part of `allocateDataBlocks` that takes a unit for extent `k`, on the worker with index `idx`. -/
def allocUnit (L : Layout) (idx : ℕ) (k : Fin nextentArr) (st : AllocState) : AllocResult × AllocState :=
  let unit := extentArrIdx2BlockAllocUnit k
  let start := st.nextDataBlockAllocWithinUnitBlockIdx unit
  if unit = 1 then
    allocOneBlock (L.curBmapBlockDiskBlockNo idx k) (L.curMaxBmapBlocks k) unit (L.turns k start) start st
  else if unit < bpb then
    allocJump (L.curBmapBlockDiskBlockNo idx k) (L.curMaxBmapBlocks k) unit (L.turns k start) start st
  else
    -- `for (i = 0; i < curMaxBmapBlocks; i += curAllocationBmapBlockNum)`
    allocBmapBlocks (L.curBmapBlockDiskBlockNo idx k) unit
      ((L.curMaxBmapBlocks k + unit / bpb - 1) / (unit / bpb)) 0 st

def blockNo (L : Layout) (idx : ℕ) (k : Fin nextentArr) (i bit : ℕ) : ℕ :=
  ((u64Sub (L.curBmapBlockDiskBlockNo idx k) (L.getBmapStartBlockForWorker 0) + i) * bpb + bit) % 2 ^ 64

end Layout

/-! ## The loop -/

/-- An extent of an inode, as far as the allocation reads it. -/
structure BlockExtent where
  blockNo : ℕ
  numBlocks : ℕ
  iBlockOffset : ℕ
deriving Repr, DecidableEq

/-- The block count and the extents of an inode. -/
structure InodeBlocks where
  iBlockCount : ℕ
  extArray : Fin nextentArr → BlockExtent

namespace InodeBlocks

def setExtent (d : InodeBlocks) (k : Fin nextentArr) (x : BlockExtent) : InodeBlocks :=
  { d with extArray := Function.update d.extArray k x }

end InodeBlocks

namespace Layout

/-- The loop, with `n` blocks added. It returns the blocks allocated, 0 for a bitmap block to be read, or -1. -/
def allocLoop (L : Layout) (idx numBlocks : ℕ) :
    ℕ → ℕ → ℕ → InodeBlocks → AllocState → Option (ℤ × InodeBlocks × AllocState)
  | 0, _, _, _, _ => none
  | fuel + 1, n, curIblockCount, d, st =>
    if numBlocks ≤ n then
      some (((curIblockCount - d.iBlockCount : ℕ) : ℤ), { d with iBlockCount := curIblockCount }, st)
    else
      match getCurrentExtentArrIdx (UInt32.ofNat curIblockCount) with
      | none => some (-1, d, st)
      | some k =>
        if (d.extArray k).numBlocks = 0 then
          match L.allocUnit idx k st with
          | (.allocated i bit, st) => L.allocLoop idx numBlocks fuel (n + 1) (curIblockCount + 1)
              (d.setExtent k ⟨L.blockNo idx k i bit, 1, curIblockCount⟩) st
          | (.reading, st) => some (0, { d with iBlockCount := curIblockCount }, st)
          | (.full, st) => some (-1, d, st)
        else
          let m := min (numBlocks - n) (extentArrIdx2BlockAllocUnit k - (d.extArray k).numBlocks)
          L.allocLoop idx numBlocks fuel (n + m) (curIblockCount + m)
            (d.setExtent k { d.extArray k with numBlocks := (d.extArray k).numBlocks + m }) st

/-- `numBlocks` blocks are added to the inode; the first part of the result is the number that the
code returns. -/
def allocateDataBlocks (L : Layout) (idx fuel : ℕ) (numBlocks : UInt32) (d : InodeBlocks) (st : AllocState) :
    Option (ℤ × InodeBlocks × AllocState) :=
  L.allocLoop idx numBlocks.toNat fuel 0 d.iBlockCount d st

end Layout

end Ufs.Impl
