import Ufs.Impl.Reassignment

/-!
# Requests with descriptors (`FsProc_Worker.cc`, `FsProc.cc`, `FsLib.cc`)

A client goes to the worker in its `fdWidMap`. A worker that does not find the descriptor sends it
to the primary, which sends it on by `recentlyReassignedAppFdToInodes_`, or tells it to retry, or
that the descriptor is bad.
-/

namespace Ufs.Impl

open Function (update)

def kFdBase : ℕ := 100000

def updateFdIncrByWid (wid : ℕ) : ℕ := wid * 10000000 + kFdBase

/-- How a worker answers a request on a descriptor. -/
inductive FdAnswer where
  | processed (ino : ℕ)
  | redirect (wid : ℕ)
  | inTransfer
  | ebadf
deriving Repr, DecidableEq

namespace Owners

def getFileObjForFd (o : Owners) (w : ℕ) (q : ℕ × ℕ) : Option ℕ := (o.worker w).ownerAppFdMap q

/-- 0 where there is no entry. -/
def getRecentlyReassignedInodeFromFd (o : Owners) (q : ℕ × ℕ) : ℕ := (o.recentlyReassignedAppFdToInodes q).getD 0

def delRecentlyReassignedInodeEntries (o : Owners) (q : ℕ × ℕ) : Owners :=
  { o with recentlyReassignedAppFdToInodes := update o.recentlyReassignedAppFdToInodes q none }

def primaryRouteToOwner (o : Owners) (ino : ℕ) : FdAnswer :=
  if o.getInodeOwner ino = -1 then .inTransfer else .redirect (o.getInodeOwner ino).toNat

def primaryHandleUnknownFdReq (o : Owners) (w : ℕ) (q : ℕ × ℕ) : FdAnswer × Owners :=
  if w = kMasterWidConst then
    let ino := o.getRecentlyReassignedInodeFromFd q
    if ino = 0 then (.ebadf, o)
    else match o.primaryRouteToOwner ino with
      | .redirect owner => (.redirect owner, o.delRecentlyReassignedInodeEntries q)
      | answer => (answer, o)
  else (.redirect kMasterWidConst, o)

def ownerProcessFdReq (o : Owners) (w : ℕ) (q : ℕ × ℕ) : FdAnswer × Owners :=
  match o.getFileObjForFd w q with
  | some ino => (.processed ino, o)
  | none => o.primaryHandleUnknownFdReq w q

end Owners

/-- The owners, the next descriptor of each process at each worker, and the clients' maps. -/
structure Descriptors where
  owners : Owners
  fdIncr : ℕ → ℕ → ℕ
  fdWidMap : ℕ × ℕ → ℕ

namespace Descriptors

/-- Worker `w` opens inode `ino` for a process. -/
def openFd (s : Descriptors) (w ino pid : ℕ) : Descriptors :=
  let q := (pid, s.fdIncr pid w)
  { owners := s.owners.addFdMappingOnOpen w ino q
    fdIncr := update s.fdIncr pid (update (s.fdIncr pid) w (s.fdIncr pid w + 1))
    fdWidMap := update s.fdWidMap q w }

def checkUpdateFdWid (s : Descriptors) (q : ℕ × ℕ) : FdAnswer → Descriptors
  | .redirect wid => { s with fdWidMap := update s.fdWidMap q wid }
  | _ => s

/-- A client's request on descriptor `q` to worker `w`, which closes it if `close`. -/
def request (s : Descriptors) (q : ℕ × ℕ) (w : ℕ) (close : Bool) : Descriptors :=
  let (answer, o) := s.owners.ownerProcessFdReq w q
  match answer, close with
  | .processed ino, true => { s with owners := o.delFdMappingOnClose w ino q }
  | answer, _ => { s with owners := o }.checkUpdateFdWid q answer

/-! ## Steps -/

/-- A step of a reassignment, an open, or a request on a descriptor. -/
inductive Label where
  | reassign (l : Owners.Label)
  | openFd (w ino pid : ℕ)
  | request (q : ℕ × ℕ) (w : ℕ) (close : Bool)
deriving Repr, DecidableEq

/-- A lookup gives inode 0 where there is none, which cannot be opened. -/
def step : Label → Descriptors → Option Descriptors
  | .reassign l, s => (Owners.step (fun _ _ o => o) l s.owners).map fun o => { s with owners := o }
  | .openFd w ino pid, s =>
    if s.owners.Idle w ∧ ino ∈ (s.owners.worker w).inodeMap ∧ ino ≠ 0 then some (s.openFd w ino pid) else none
  | .request q w close, s => if s.owners.Idle w then some (s.request q w close) else none

/-- Every inode is with the primary, and no file is open. -/
def start (inodes : Finset ℕ) : Descriptors :=
  { owners := Owners.start inodes (fun _ => ∅) fun _ => none
    fdIncr := fun _ wid => updateFdIncrByWid wid
    fdWidMap := fun _ => kMasterWidConst }

end Descriptors

end Ufs.Impl
