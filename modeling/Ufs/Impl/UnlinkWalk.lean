import Ufs.Impl.Alloc

/-!
# The extents that an unlink visits (`FsProc_FileMngOps.cc`)

Both walks go through the extents until the size, less the bytes of each, a product of 32 bits, is
not positive. The walk of `Ufs.Impl.Unlink` ends with the array; this one tells when the code goes
on behind it.
-/

namespace Ufs.Impl

namespace InodeBlocks

variable (d : InodeBlocks)

/-- With the extents that are left; `none` when the one after the last is read. -/
def visits : ℤ → List (Fin nextentArr) → Option (List (Fin nextentArr))
  | size, [] => if 0 < size then none else some []
  | size, k :: ks =>
    if 0 < size then (visits (size - ((d.extArray k).numBlocks * bsize % 2 ^ 32 : ℕ)) ks).map (k :: ·) else some []

/-- The extents that the walk comes to. -/
def visited (size : ℤ) : Option (List (Fin nextentArr)) := d.visits size (List.finRange nextentArr)

def bmapOf (k : Fin nextentArr) : ℕ := getBmapBlockForLba (d.extArray k).blockNo

/-- The bitmap blocks of those extents that worker `wid` has. -/
def bmapsOfWorker (wid : ℕ) (ks : List (Fin nextentArr)) : Finset ℕ :=
  (ks.map d.bmapOf).toFinset.filter fun bmap =>
    Layout.standard.getBmapStartBlockForWorker wid ≤ bmap ∧ bmap < Layout.standard.getBmapStartBlockForWorker (wid + 1)

/-- `local_bmaps` of `OwnerEnsureLocalBitmapsInMem`. -/
def localBmaps (wid : ℕ) (size : ℤ) : Option (Finset ℕ) := (d.visited size).map (d.bmapsOfWorker wid)

/-- The extents that `OwnerDeallocResources` puts into the log entry. -/
def deallocated : List (Fin nextentArr) :=
  (List.finRange nextentArr).filter fun k => 0 < (d.extArray k).blockNo ∧ 0 < (d.extArray k).numBlocks

/-- One turn of the second loop, with `bmap_counts` and `max_idx`. -/
def countExtent (c : (ℕ → ℕ) × ℕ) (k : Fin nextentArr) : (ℕ → ℕ) × ℕ :=
  let wid := getWidForBitmapBlock (d.bmapOf k)
  let counts := Function.update c.1 wid (c.1 wid + (d.extArray k).numBlocks)
  (counts, if counts c.2 < counts wid then wid else c.2)

/-- The worker with most of the blocks, or -1. -/
def calculateWorkerWithMaximumDeallocs (size : ℤ) : Option ℤ :=
  (d.visited size).map fun ks =>
    let c := ks.foldl d.countExtent (fun _ => 0, 0)
    if c.1 c.2 = 0 then -1 else c.2

end InodeBlocks

end Ufs.Impl
