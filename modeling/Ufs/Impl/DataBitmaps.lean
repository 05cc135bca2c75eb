import Ufs.Framework.Run
import Ufs.Impl.Alloc

/-!
# The data bitmaps of a worker (`FileMng::updateBlockBitmaps`)

A worker marks the units it allocates in its dirty bitmaps; `updateBlockBitmaps`, given the first
block of each unit, changes the stable ones when the entry is committed. The state also has the
inodes, live or unlinked, that refer to a unit, and whether the entry of the allocation is
outstanding.
-/

namespace Ufs.Impl

open Function (update)

/-- A unit of allocation: the index of its extent, its bitmap block and its bit there. -/
structure AllocUnit where
  k : Fin nextentArr
  i : ℕ
  bit : ℕ
deriving Repr, DecidableEq

/-- Whether an inode has the unit: none, one, or one that is being freed. -/
inductive UnitRef where
  | free
  | live
  | dying
deriving Repr, DecidableEq

/-- The bitmaps in memory and the stable ones, with what each unit is used for. -/
structure DataBitmaps where
  alloc : AllocState
  stable : ℕ → Bitmap
  ref : AllocUnit → UnitRef
  unset : AllocUnit → Bool

namespace DataBitmaps

/-- A unit is allocated, its allocation committed, its inode unlinked, or the dealloc committed. -/
inductive Label where
  | allocate (k : Fin nextentArr)
  /-- A turn of the loop over `blocks_to_set`. -/
  | commitAlloc (u : AllocUnit)
  | unlink (u : AllocUnit)
  /-- A turn of the loop over `blocks_to_clear`. -/
  | commitDealloc (u : AllocUnit)
deriving Repr, DecidableEq

section

variable (L : Layout)

def setBlock (s : DataBitmaps) (lba : ℕ) : DataBitmaps :=
  let bmapDiskBno := L.getBmapBlockForLba lba
  { s with stable := update s.stable bmapDiskBno (blockSetBit (lba % bpb) (s.stable bmapDiskBno)) }

def clearBlock (s : DataBitmaps) (lba : ℕ) : Option DataBitmaps :=
  let bmapDiskBno := L.getBmapBlockForLba lba
  (s.alloc.bmapBlockBuf bmapDiskBno).map fun dirty =>
    { s with
      stable := update s.stable bmapDiskBno (blockClearBit (lba % bpb) (s.stable bmapDiskBno))
      alloc := s.alloc.setBmap bmapDiskBno (blockClearBit (lba % bpb) dirty) }

/-- One step of worker `idx`; an allocation that finds nothing has no result. -/
def step (idx : ℕ) : Label → DataBitmaps → Option DataBitmaps
  | .allocate k, s =>
    match L.allocUnit idx k s.alloc with
    | (.allocated i bit, st) => some { s with
        alloc := st
        ref := update s.ref ⟨k, i, bit⟩ .live
        unset := update s.unset ⟨k, i, bit⟩ true }
    | (_, st) => some { s with alloc := st }
  | .commitAlloc u, s =>
    if s.unset u then
      some { s.setBlock L (L.blockNo idx u.k u.i u.bit) with unset := update s.unset u false }
    else none
  | .unlink u, s => if s.ref u = .live then some { s with ref := update s.ref u .dying } else none
  | .commitDealloc u, s =>
    if s.ref u = .dying then
      (s.clearBlock L (L.blockNo idx u.k u.i u.bit)).map fun s =>
        { s with ref := update s.ref u .free, unset := update s.unset u false }
    else none

end

/-- After the device was formatted. -/
def formatted : DataBitmaps := ⟨.formatted, fun _ _ => false, fun _ => .free, fun _ => false⟩

end DataBitmaps

end Ufs.Impl
