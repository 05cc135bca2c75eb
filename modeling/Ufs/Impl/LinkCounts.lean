import Mathlib.Data.Int.Notation
import Mathlib.Data.List.Count
import Ufs.Framework.Run

/-!
# Link and entry counts (`FsProc_FsImpl.h`, `FsProc_FileMng.cc`, `FsProc_FileMngOps.cc`)

Directories that are unlinked or replaced are empty. `made` (how many directories were made in each)
and `unlinked` (what `OwnerUnlinkInode` did) are not read by the code.
-/

namespace Ufs.Impl

open Function (update)

/-- An entry of a directory. -/
structure NamedEntry where
  dir : ℕ
  name : ℕ
  ino : ℕ
deriving Repr, DecidableEq

/-- How an unlink ends at the owner. -/
inductive UnlinkEnd where
  | threw
  | kept
  | deallocated
deriving Repr, DecidableEq

/-- The counters of the inodes, with the entries that they count. -/
structure LinkCounts where
  isDir : ℕ → Bool
  nlink : ℕ → BitVec 8
  dentryCount : ℕ → BitVec 16
  live : ℕ → Bool
  dentries : List NamedEntry
  nextIno : ℕ
  made : ℕ → ℕ
  unlinked : List (ℕ × UnlinkEnd)

namespace LinkCounts

/-- The root directory alone. -/
def init : LinkCounts := ⟨fun i => i = 0, fun _ => 1, fun _ => 2, fun i => i = 0, [], 1, fun _ => 0, []⟩

def adjustDentryCount (t : LinkCounts) (ino : ℕ) (delta : BitVec 16) : LinkCounts :=
  { t with dentryCount := update t.dentryCount ino (t.dentryCount ino + delta) }

def adjustNlink (t : LinkCounts) (ino : ℕ) (delta : BitVec 8) : LinkCounts :=
  { t with nlink := update t.nlink ino (t.nlink ino + delta) }

/-- What `OwnerUnlinkInode` does for a link count, an `int8_t`. -/
def unlinkEnd (nlink : BitVec 8) : UnlinkEnd :=
  if nlink.toInt < 0 then .threw else if nlink.toInt = 0 then .deallocated else .kept

def ownerUnlinkInode (t : LinkCounts) (ino : ℕ) : LinkCounts :=
  let t := t.adjustNlink ino (-1)
  { t with
    live := if unlinkEnd (t.nlink ino) = .deallocated then update t.live ino false else t.live
    unlinked := t.unlinked ++ [(ino, unlinkEnd (t.nlink ino))] }

/-- The entry of a name. -/
def lookup (t : LinkCounts) (dir name : ℕ) : Option NamedEntry := t.dentries.find? fun e => e.dir = dir ∧ e.name = name

/-- Mkdir sets the count of the new directory to 2 and links it to its parent. -/
def create (t : LinkCounts) (dir name : ℕ) (isDir : Bool) : LinkCounts :=
  let t := { t with
    isDir := update t.isDir t.nextIno isDir
    nlink := update t.nlink t.nextIno 1
    dentryCount := update t.dentryCount t.nextIno (if isDir then 2 else 0)
    live := update t.live t.nextIno true
    dentries := ⟨dir, name, t.nextIno⟩ :: t.dentries
    nextIno := t.nextIno + 1 }
  let t := t.adjustDentryCount dir 1
  if isDir then { t.adjustNlink dir 1 with made := update t.made dir (t.made dir + 1) } else t

/-- The entry is removed, and the owner takes a link. -/
def unlink (t : LinkCounts) (e : NamedEntry) : LinkCounts :=
  ({ t with dentries := t.dentries.erase e }.adjustDentryCount e.dir (-1)).ownerUnlinkInode e.ino

def modifyDstDir (t : LinkCounts) (ino dstDir dstName : ℕ) : Option NamedEntry → LinkCounts
  | none => { t with dentries := ⟨dstDir, dstName, ino⟩ :: t.dentries }.adjustDentryCount dstDir 1
  | some dst => { t with dentries := ⟨dst.dir, dst.name, ino⟩ :: t.dentries.erase dst }

def rename (t : LinkCounts) (e : NamedEntry) (dstDir dstName : ℕ) : LinkCounts :=
  let dst := t.lookup dstDir dstName
  let t := t.modifyDstDir e.ino dstDir dstName dst
  let t := { t with dentries := t.dentries.erase e }.adjustDentryCount e.dir (-1)
  dst.elim t fun dst => t.ownerUnlinkInode dst.ino

/-- A create or mkdir, an unlink, or a rename. -/
inductive Label where
  | create (dir name : ℕ) (isDir : Bool)
  | unlink (dir name : ℕ)
  | rename (dir name dstDir dstName : ℕ)
deriving Repr, DecidableEq

/-- Names are looked up; a directory that goes has no entries, and an entry is not renamed to itself. -/
def step : Label → LinkCounts → Option LinkCounts
  | .create dir name isDir, t =>
    if (t.live dir ∧ t.isDir dir) ∧ t.lookup dir name = none then some (t.create dir name isDir) else none
  | .unlink dir name, t =>
    (t.lookup dir name).bind fun e => if ∀ x ∈ t.dentries, x.dir ≠ e.ino then some (t.unlink e) else none
  | .rename dir name dstDir dstName, t =>
    (t.lookup dir name).bind fun e =>
      if (t.live dstDir ∧ t.isDir dstDir) ∧ (dir, name) ≠ (dstDir, dstName) ∧
        ∀ dst ∈ t.lookup dstDir dstName, ∀ x ∈ t.dentries, x.dir ≠ dst.ino
      then some (t.rename e dstDir dstName) else none

end LinkCounts

end Ufs.Impl
