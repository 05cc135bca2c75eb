import Mathlib.Data.Finset.Card
import Ufs.Framework.Run

/-!
# The last close of an unlinked file (`FsProc_FileMng.cc`, `FsProc_FsImpl.h`, `FsProc_FileMngOps.cc`)

`OwnerDeallocResources` is called when the last link goes, when the last descriptor is closed after
that, when the inode arrives at the worker with most of its blocks, and when its bitmap blocks were
read; the last two are up to the environment (`DeallocEnv`). The primary removes a directory entry
and tells the worker that its map has for the inode to take the link. `dentries`, `deallocs` and
`exited` are not read by the code.
-/

namespace Ufs.Impl

open Function (update)

/-- The part of `InMemInode` that opens, closes and unlinks change. -/
structure FdInode where
  ref : ℤ
  appFdMap : Finset (ℕ × ℕ)
  nlink : ℕ
  unlinkDeallocResourcesOnClose : Bool

namespace FdInode

def addFd (d : FdInode) (q : ℕ × ℕ) : FdInode :=
  { d with appFdMap := insert q d.appFdMap, ref := if q ∈ d.appFdMap then d.ref else d.ref + 1 }

def delFd (d : FdInode) (q : ℕ × ℕ) : FdInode :=
  { d with appFdMap := d.appFdMap.erase q, ref := if q ∈ d.appFdMap then d.ref - 1 else d.ref }

end FdInode

/-- An inode is with a worker, or on its way to one that may have to free it. -/
inductive InodePlace where
  | owned (wid : ℕ)
  | inFlight (importerWid : ℕ) (dealloc : Bool)
deriving Repr, DecidableEq

/-- What the outside decides about a dealloc: the worker that has most of an inode's blocks, and
whether the bitmaps are in memory. -/
structure DeallocEnv where
  bestWid : ℕ → Option ℕ
  inMem : ℕ → Bool

/-- The inodes, the workers' tables of descriptors, and what is under way. -/
structure FdTables where
  inode : ℕ → FdInode
  place : ℕ → InodePlace
  ownerAppFdMap : ℕ → List ((ℕ × ℕ) × ℕ)
  generic : List (ℕ × ℕ)
  usedFds : Finset (ℕ × ℕ)
  /-- The messages `kOwnerUnlinkInode` that were not received yet, each with its receiver. -/
  unlinkMsgs : List (ℕ × ℕ)
  /-- The directory entries of an inode. -/
  dentries : ℕ → ℕ
  deallocs : ℕ → ℕ
  exited : ℕ → List ℕ

namespace FdTables

def setInode (s : FdTables) (ino : ℕ) (d : FdInode) : FdTables := { s with inode := update s.inode ino d }

/-- With `delExportedInodeFdMappings`. A worker that does not have the inode uses a null pointer. -/
def ownerExport (s : FdTables) (w ino importerWid : ℕ) (dealloc : Bool) : Option FdTables :=
  if s.place ino = .owned w then
    some { s with
      place := update s.place ino (.inFlight importerWid dealloc)
      ownerAppFdMap := update s.ownerAppFdMap w
        ((s.ownerAppFdMap w).filter fun x => x.1 ∉ (s.inode ino).appFdMap) }
  else none

def deallocLocal (s : FdTables) (w ino : ℕ) (inMem : Bool) : FdTables :=
  if inMem then { s with deallocs := update s.deallocs ino (s.deallocs ino + 1) }
  else { s with generic := (w, ino) :: s.generic }

def ownerDeallocResources (s : FdTables) (env : DeallocEnv) (w ino : ℕ) : Option FdTables :=
  if (s.inode ino).ref = 0 then
    match env.bestWid ino with
    | some best =>
      if best = w then some (s.deallocLocal w ino (env.inMem ino)) else s.ownerExport w ino best true
    | none => some (s.deallocLocal w ino (env.inMem ino))
  else some (s.setInode ino { s.inode ino with unlinkDeallocResourcesOnClose := true })

def ownerUnlinkInode (s : FdTables) (env : DeallocEnv) (w ino : ℕ) : Option FdTables :=
  match (s.inode ino).nlink with
  | 0 => none
  | nlink + 1 =>
    let s := s.setInode ino { s.inode ino with nlink := nlink }
    if nlink = 0 then s.ownerDeallocResources env w ino else some s

/-- The owner that the primary's map has is `none` while the inode is in transfer: the map then has
`-1`, for which there is no ring. A message from the primary to itself stands for the call it makes
when it has the inode. -/
def primaryHandoffToOwner (s : FdTables) (ownerWid : Option ℕ) (ino : ℕ) : Option FdTables :=
  match s.dentries ino with
  | 0 => none
  | n + 1 =>
    some { s with
      dentries := update s.dentries ino n
      unlinkMsgs := match ownerWid with
        | some wid => (wid, ino) :: s.unlinkMsgs
        | none => s.unlinkMsgs }

/-- The message is received. A worker that does not have the inode any more takes no link: it finds a
null pointer. -/
def receiveUnlink (s : FdTables) (env : DeallocEnv) (w ino : ℕ) : Option FdTables :=
  let s := { s with unlinkMsgs := s.unlinkMsgs.erase (w, ino) }
  if s.place ino = .owned w then s.ownerUnlinkInode env w ino else some s

def deallocOnClose (s : FdTables) (env : DeallocEnv) (w ino : ℕ) : Option FdTables :=
  if (s.inode ino).unlinkDeallocResourcesOnClose ∧ (s.inode ino).ref = 0 then s.ownerDeallocResources env w ino
  else some s

def addFdMappingOnOpen (s : FdTables) (w ino : ℕ) (q : ℕ × ℕ) : FdTables :=
  { s.setInode ino ((s.inode ino).addFd q) with
    ownerAppFdMap := update s.ownerAppFdMap w ((q, ino) :: s.ownerAppFdMap w)
    usedFds := insert q s.usedFds }

def delFdMappingOnClose (s : FdTables) (w ino : ℕ) (q : ℕ × ℕ) : FdTables :=
  { s.setInode ino ((s.inode ino).delFd q) with
    ownerAppFdMap := update s.ownerAppFdMap w ((s.ownerAppFdMap w).filter fun x => x.1 ≠ q) }

def processClose (s : FdTables) (env : DeallocEnv) (w : ℕ) (q : ℕ × ℕ) (ino : ℕ) : Option FdTables :=
  (s.delFdMappingOnClose w ino q).deallocOnClose env w ino

def delFds (s : FdTables) (xs : List ((ℕ × ℕ) × ℕ)) : FdTables :=
  xs.foldl (fun s x => s.setInode x.2 ((s.inode x.2).delFd x.1)) s

def deallocAll (s : FdTables) (env : DeallocEnv) (w : ℕ) : List ℕ → Option FdTables
  | [] => some s
  | ino :: inos => (s.deallocOnClose env w ino).bind fun s => s.deallocAll env w inos

def fdsOf (s : FdTables) (w pid : ℕ) : List ((ℕ × ℕ) × ℕ) := (s.ownerAppFdMap w).filter fun x => x.1.1 = pid

def closeAllFileDescriptors (s : FdTables) (env : DeallocEnv) (w pid : ℕ) : Option FdTables :=
  let fds := s.fdsOf w pid
  ((s.delFds fds).deallocAll env w (fds.map (·.2)).dedup).map fun s =>
    { s with
      ownerAppFdMap := update s.ownerAppFdMap w ((s.ownerAppFdMap w).filter fun x => x.1.1 ≠ pid)
      exited := update s.exited pid (w :: s.exited pid) }

def importInode (s : FdTables) (env : DeallocEnv) (ino : ℕ) (fds : List (ℕ × ℕ)) : Option FdTables :=
  match s.place ino with
  | .owned _ => none
  | .inFlight w dealloc =>
    let s := { s with
      place := update s.place ino (.owned w)
      ownerAppFdMap := update s.ownerAppFdMap w (fds.map (·, ino) ++ s.ownerAppFdMap w) }
    if dealloc then s.ownerDeallocResources env w ino else some s

/-- An open, a close, the exit of a process at a worker, an unlink and its message, or a
reassignment. -/
inductive Label where
  | openFd (w ino : ℕ) (q : ℕ × ℕ)
  | closeFd (env : DeallocEnv) (w : ℕ) (q : ℕ × ℕ) (ino : ℕ)
  | exit (env : DeallocEnv) (w pid : ℕ)
  | unlink (ownerWid : Option ℕ) (ino : ℕ)
  | receiveUnlink (env : DeallocEnv) (w ino : ℕ)
  | reassign (w ino importerWid : ℕ)
  /-- The descriptors are those of the inode, in the order of the map. -/
  | importInode (env : DeallocEnv) (ino : ℕ) (fds : List (ℕ × ℕ))
  | resume (env : DeallocEnv) (w ino : ℕ)

/-- Descriptors are not used twice. -/
def step : Label → FdTables → Option FdTables
  | .openFd w ino q, s =>
    if s.place ino = .owned w ∧ q ∉ s.usedFds then some (s.addFdMappingOnOpen w ino q) else none
  | .closeFd env w q ino, s => if (q, ino) ∈ s.ownerAppFdMap w then s.processClose env w q ino else none
  | .exit env w pid, s => s.closeAllFileDescriptors env w pid
  | .unlink ownerWid ino, s => s.primaryHandoffToOwner ownerWid ino
  | .receiveUnlink env w ino, s => if (w, ino) ∈ s.unlinkMsgs then s.receiveUnlink env w ino else none
  | .reassign w ino importerWid, s => s.ownerExport w ino importerWid false
  | .importInode env ino fds, s =>
    if fds.toFinset = (s.inode ino).appFdMap then s.importInode env ino fds else none
  | .resume env w ino, s =>
    if (w, ino) ∈ s.generic then { s with generic := s.generic.erase (w, ino) }.ownerDeallocResources env w ino else none

/-- Nothing is open; inode `ino` has a link for each of its entries. -/
def start (owner links : ℕ → ℕ) : FdTables where
  inode ino := ⟨0, ∅, links ino + 1, false⟩
  place ino := .owned (owner ino)
  ownerAppFdMap _ := []
  generic := []
  usedFds := ∅
  unlinkMsgs := []
  dentries ino := links ino + 1
  deallocs _ := 0
  exited _ := []

end FdTables

end Ufs.Impl
