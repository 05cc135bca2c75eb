import Ufs.Impl.Inode
import Ufs.Impl.Reassignment

/-!
# Unlinking an inode that some worker has (`FsProc_FileMngOps.cc`, `UnlinkOp`)

`OwnerDeallocResources` is left for later while descriptors refer to the inode; it moves the inode
to the worker that has most of its blocks in its bitmaps; and it waits for bitmap blocks that are
not in memory, with a generic request that goes on with the pointer it was given. A replaced
destination of `RenameOp` goes the same way.
-/

namespace Ufs.Impl

open ReassignmentOp
open Function (update)

/-- The size of an extent in bytes is a `uint32_t`. -/
def maximumDeallocs : ℤ → List CfsExtent → (ℕ → ℕ) → ℕ → Option ℕ
  | fileSize, ext :: arr, bmapCounts, maxIdx =>
    if 0 < fileSize then
      let fileSize := fileSize - (ext.numBlocks.toNat * bsize % 2 ^ 32 : ℕ)
      let wid := getWidForBitmapBlock (getBmapBlockForLba ext.blockNo.toNat)
      let bmapCounts := update bmapCounts wid (bmapCounts wid + ext.numBlocks.toNat)
      maximumDeallocs fileSize arr bmapCounts (if bmapCounts maxIdx < bmapCounts wid then wid else maxIdx)
    else if bmapCounts maxIdx = 0 then none else some maxIdx
  | _, [], bmapCounts, maxIdx => if bmapCounts maxIdx = 0 then none else some maxIdx

/-- `none` is `-1`. -/
def calculateWorkerWithMaximumDeallocs (d : CfsDinode) : Option ℕ :=
  maximumDeallocs d.size.toNat (List.ofFn d.extArray) (fun _ => 0) 0

/-- The bitmap blocks of the extents that are a worker's own, in `OwnerEnsureLocalBitmapsInMem`. -/
def localBmaps (w : ℕ) : ℤ → List CfsExtent → Finset ℕ
  | size, ext :: arr =>
    if 0 < size then
      let bmap := getBmapBlockForLba ext.blockNo.toNat
      let rest := localBmaps w (size - (ext.numBlocks.toNat * bsize % 2 ^ 32 : ℕ)) arr
      if Layout.standard.getBmapStartBlockForWorker w ≤ bmap ∧
          bmap < Layout.standard.getBmapStartBlockForWorker (w + 1) then insert bmap rest
      else rest
    else ∅
  | _, [] => ∅

/-- The data bitmap blocks with a stable copy on each worker, the generic requests that wait for
bitmap blocks, and, for runs, how many links of an inode were removed and how often it was unlinked
on an owner. -/
structure Unlinks where
  owners : Owners
  inodeData : ℕ → CfsDinode
  unlinkDeallocResourcesOnClose : ℕ → Bool
  stableDataBitmaps : ℕ → Finset ℕ
  genericRequests : ℕ → List (ℕ × Finset ℕ)
  removed : ℕ → ℕ
  unlinked : ℕ → ℕ

namespace Unlinks

def setOwners (s : Unlinks) (o : Owners) : Unlinks := { s with owners := o }

def noAppReferring (s : Unlinks) (ino : ℕ) : Prop := (s.owners.minode ino).appFdMap = ∅

instance (s : Unlinks) (ino : ℕ) : Decidable (s.noAppReferring ino) :=
  decEq (s.owners.minode ino).appFdMap ∅

def bestWid (s : Unlinks) (ino : ℕ) : Option ℕ := calculateWorkerWithMaximumDeallocs (s.inodeData ino)

def localUnloadedBmaps (s : Unlinks) (w ino : ℕ) : Finset ℕ :=
  localBmaps w (s.inodeData ino).size.toNat (List.ofFn (s.inodeData ino).extArray) \ s.stableDataBitmaps w

def genGenericRequest (s : Unlinks) (w ino : ℕ) : Unlinks :=
  { s with
    genericRequests := update s.genericRequests w
      (s.genericRequests w ++ [(ino, s.localUnloadedBmaps w ino)]) }

/-- The end of `OwnerDeallocResources`: the inode is left to the next fsync. -/
def markUnlinked (s : Unlinks) (w ino : ℕ) : Unlinks :=
  let x := s.owners.worker w
  s.setOwners (s.owners.setWorker w { x with
    unlinkedInodeSet := insert ino x.unlinkedInodeSet
    dirtyInodeSet := insert ino x.dirtyInodeSet })

/-- `OwnerDeallocResources` where it stays on its worker. -/
def deallocLocal (s : Unlinks) (w ino : ℕ) : Unlinks :=
  if s.localUnloadedBmaps w ino = ∅ then s.markUnlinked w ino else s.genGenericRequest w ino

def ownerDeallocResources (s : Unlinks) (w ino : ℕ) : Option Unlinks :=
  if s.noAppReferring ino then
    match s.bestWid ino with
    | some best =>
      if best = w then some (s.deallocLocal w ino)
      else (s.owners.ownerExportThroughPrimary w ino best none (some .ownerDeallocResources)).map s.setOwners
    | none => some (s.deallocLocal w ino)
  else some { s with
    unlinkDeallocResourcesOnClose := update s.unlinkDeallocResourcesOnClose ino true }

def adjustNlink (s : Unlinks) (ino : ℕ) : Unlinks :=
  { s with
    inodeData := update s.inodeData ino
      { s.inodeData ino with nlink := (s.inodeData ino).nlink - 1 }
    unlinked := update s.unlinked ino (s.unlinked ino + 1) }

/-- `getNlink` returns an `int8_t`, and a negative number ends the server. -/
def ownerUnlinkInode (s : Unlinks) (w ino : ℕ) : Option Unlinks :=
  let s := s.adjustNlink ino
  if 128 ≤ (s.inodeData ino).nlink.toNat then none
  else if (s.inodeData ino).nlink = 0 then s.ownerDeallocResources w ino
  else some s

/-- The message for the worker `-1` would go to a ring that does not exist. -/
def primaryHandoffToOwner (s : Unlinks) (ino : ℕ) : Option Unlinks :=
  let ownerWid := s.owners.getInodeOwner ino
  let s := { s with removed := update s.removed ino (s.removed ino + 1) }
  if ownerWid = kMasterWidConst then s.ownerUnlinkInode kMasterWidConst ino
  else if ownerWid < 0 then none
  else some (s.setOwners (s.owners.sendMessage kMasterWidConst ownerWid.toNat (.kOwnerUnlinkInode ino)))

/-- A context, whose callback on the new owner may be `OwnerDeallocResources`. -/
def processReassignmentCtx (s : Unlinks) (w id : ℕ) : Option Unlinks :=
  (s.owners.ctx id).bind fun c =>
    if c.deleted = false ∧ c.state = .kNewOwnerImport ∧ c.newOwnerCallback = some .ownerDeallocResources then
      ((s.setOwners (s.owners.importExported w id c)).ownerDeallocResources w c.exportedInode.ino).map fun s =>
        s.setOwners (s.owners.notifyImported w id c)
    else (s.owners.processReassignmentCtx (fun _ _ o => o) w id).map s.setOwners

/-- A worker that does not find the inode to be unlinked uses a null pointer. -/
def process (s : Unlinks) (src dst : ℕ) : Option Unlinks :=
  (s.owners.recvMessage src dst).bind fun x =>
    match x.1 with
    | .kReassignment id => (s.setOwners x.2).processReassignmentCtx dst id
    | .kOwnerUnlinkInode ino =>
      if ino ∈ (x.2.worker dst).inodeMap then (s.setOwners x.2).ownerUnlinkInode dst ino else none

def releaseFsReq (s : Unlinks) (w k : ℕ) (bmaps : Finset ℕ) : Unlinks :=
  { s with
    genericRequests := update s.genericRequests w ((s.genericRequests w).eraseIdx k)
    stableDataBitmaps := update s.stableDataBitmaps w (s.stableDataBitmaps w ∪ bmaps) }

/-- A request that waited for bitmap blocks goes on. -/
def resume (s : Unlinks) (w k : ℕ) : Option Unlinks :=
  (s.genericRequests w)[k]?.bind fun x => (s.releaseFsReq w k x.2).ownerDeallocResources w x.1

def processClose (s : Unlinks) (w : ℕ) (q : ℕ × ℕ) : Option Unlinks :=
  ((s.owners.worker w).ownerAppFdMap q).bind fun ino =>
    let s := s.setOwners (s.owners.delFdMappingOnClose w ino q)
    if s.unlinkDeallocResourcesOnClose ino ∧ s.noAppReferring ino then s.ownerDeallocResources w ino else some s

def modify (s : Unlinks) (ino : ℕ) (d : CfsDinode) (onClose : Bool) : Unlinks :=
  { s with
    inodeData := update s.inodeData ino d
    unlinkDeallocResourcesOnClose := update s.unlinkDeallocResourcesOnClose ino onClose }

/-! ## Steps -/

/-- An export, also after the fsync of an unlinked inode (`reassign`); a message; an unlink, or a
rename that replaces its destination; the end of the I/O of a generic request; and what else the
worker that has an inode does with it. -/
inductive Label where
  | reassign (w ino newOwnerWid : ℕ) (called : Bool)
  | process (src dst : ℕ)
  | unlink (ino : ℕ)
  | resume (w k : ℕ)
  | openFd (w ino : ℕ) (q : ℕ × ℕ)
  | closeFd (w : ℕ) (q : ℕ × ℕ)
  | modify (w ino : ℕ) (d : CfsDinode) (onClose : Bool)

/-- One step; there is none of a worker that is not idle or has no such message. -/
def step : Label → Unlinks → Option Unlinks
  | .reassign w ino newOwnerWid called, s =>
    let callback := if called then some CallbackFn.other else none
    if s.owners.Idle w then
      (s.owners.ownerExportThroughPrimary w ino newOwnerWid callback callback).map s.setOwners
    else none
  | .process src dst, s => s.process src dst
  -- the primary finds the inode in its map, or among those that it keeps
  | .unlink ino, s =>
    if s.owners.Idle kMasterWidConst ∧
        (ino ∈ (s.owners.worker kMasterWidConst).inodeMap ∨ ino ∈ s.owners.unsafeReassignedInodes) then
      s.primaryHandoffToOwner ino
    else none
  | .resume w k, s => if s.owners.Idle w then s.resume w k else none
  | .openFd w ino q, s =>
    if s.owners.Idle w ∧ ino ∈ (s.owners.worker w).inodeMap then some
      (s.setOwners (s.owners.addFdMappingOnOpen w ino q))
    else none
  | .closeFd w q, s => if s.owners.Idle w then s.processClose w q else none
  | .modify w ino d onClose, s =>
    if s.owners.Idle w ∧ ino ∈ (s.owners.worker w).inodeMap then some (s.modify ino d onClose) else none

/-- No unlink is under way. -/
def start (owners : Owners) (inodeData : ℕ → CfsDinode) : Unlinks :=
  { owners := owners
    inodeData := inodeData
    unlinkDeallocResourcesOnClose := fun _ => false
    stableDataBitmaps := fun _ => ∅
    genericRequests := fun _ => []
    removed := fun _ => 0
    unlinked := fun _ => 0 }

end Unlinks

end Ufs.Impl
