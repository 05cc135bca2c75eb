import Mathlib.Data.Finset.Card
import Ufs.Impl.Reassignment

/-!
# Several inodes that move together (`BatchedOwnerExportThroughPrimary`)

The turn of an inode in the loop, each message of its context and its deletion are steps, in
whatever order. A callback that accesses the `BatchedCtx` after it was deleted, and an export of an
inode that is not there by another worker than the primary (its assert is compiled out), have no
result.
-/

namespace Ufs.Impl

open ReassignmentOp

/-- `BatchedContext`: its counters, whether it was deleted, and how often each callback was called.
-/
structure BatchedCtx where
  nTotal : ℕ
  nCompleteOld : ℕ
  nCompleteNew : ℕ
  deleted : Bool
  oldOwnerCalls : ℕ
  newOwnerCalls : ℕ
deriving Repr, DecidableEq

namespace BatchedCtx

def new (nTotal : ℕ) : BatchedCtx := ⟨nTotal, 0, 0, false, 0, 0⟩

def perInodeOldOwnerCallback (b : BatchedCtx) : Option BatchedCtx :=
  if b.deleted then none
  else
    let b := { b with nCompleteOld := b.nCompleteOld + 1 }
    if b.nCompleteOld = b.nTotal then some { b with oldOwnerCalls := b.oldOwnerCalls + 1, deleted := true } else some b

def perInodeNewOwnerCallback (b : BatchedCtx) : Option BatchedCtx :=
  if b.deleted then none
  else
    let b := { b with nCompleteNew := b.nCompleteNew + 1 }
    if b.nCompleteNew = b.nTotal then some { b with newOwnerCalls := b.newOwnerCalls + 1 } else some b

end BatchedCtx

/-- How far the reassignment of one inode of the batch is. -/
inductive BatchStage where
  | waiting
  | sent (state : State)
  | ended
deriving Repr, DecidableEq

/-- A batch of inodes on their way from one worker to another. -/
structure Batch where
  ctx : BatchedCtx
  stage : ℕ → BatchStage
  imported : Finset ℕ

namespace Batch

/-- No inode of the batch is sent. -/
def start (inoVec : Finset ℕ) : Batch := ⟨.new inoVec.card, fun _ => .waiting, ∅⟩

/-- An inode is exported, or one message of its reassignment is handled. -/
inductive Label where
  | ownerExportThroughPrimary (ino : ℕ)
  | processReassignmentCtx (ino : ℕ)
deriving Repr, DecidableEq

def setStage (s : Batch) (ino : ℕ) (x : BatchStage) : Batch := { s with stage := Function.update s.stage ino x }

section

-- the exporter, its `inodeMap_`, and the inodes of the batch
variable (wid : ℕ) (inodeMap inoVec : Finset ℕ)

def ownerExportThroughPrimary (s : Batch) (ino : ℕ) : Option Batch :=
  if ino ∈ inodeMap then some (s.setStage ino (.sent .kPrimaryRequestNewOwnerImport))
  else if wid = kMasterWidConst then s.ctx.perInodeOldOwnerCallback.map fun b => { s.setStage ino .ended with ctx := b }
  else none

def processReassignmentCtx (s : Batch) (ino : ℕ) : State → Option Batch
  | .kPrimaryRequestNewOwnerImport => some (s.setStage ino (.sent .kNewOwnerImport))
  | .kNewOwnerImport => s.ctx.perInodeNewOwnerCallback.map fun b =>
    { s.setStage ino (.sent .kPrimaryImportSuccessNotification) with ctx := b, imported := insert ino s.imported }
  | .kPrimaryImportSuccessNotification => some (s.setStage ino (.sent .kOldOwnerExportSuccessNotification))
  | .kOldOwnerExportSuccessNotification => s.ctx.perInodeOldOwnerCallback.map fun b =>
      { s.setStage ino .ended with ctx := b }

/-- One step of the batch; a message is handled at the worker that its state names. -/
def step (l : Label) (s : Batch) : Option Batch :=
  match l with
  | .ownerExportThroughPrimary ino =>
    if ino ∈ inoVec ∧ s.stage ino = .waiting then s.ownerExportThroughPrimary wid inodeMap ino else none
  | .processReassignmentCtx ino =>
    match s.stage ino with
    | .sent state => s.processReassignmentCtx ino state
    | _ => none

end

end Batch

end Ufs.Impl
