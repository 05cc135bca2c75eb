import Mathlib.Data.Int.Notation
import Ufs.Framework.Run

/-!
# Merging a worker away (`TryJoinBack`, `TryExecLbMergePlan`, `ProcessLmJoinAll`)

`num_join` is negative when the worker still has requests in progress: then nothing was exported.
Other reassignments, and new inodes at the primary, go on meanwhile; the load manager decides
nothing else before the acknowledgement.
-/

namespace Ufs.Impl

/-- The context of a join: who joins whom, and who gets the message. -/
structure LmMsgJoinAllCtx where
  srcWid : ℕ
  dstWid : ℕ
  numJoin : ℤ
  recvWid : ℕ
deriving Repr, DecidableEq

/-- How far the join is. -/
inductive JoinPhase where
  | idle
  | sent (ctx : LmMsgJoinAllCtx)
  | joining (ctx : LmMsgJoinAllCtx) (sharedCounter : ℕ)
  | acked (ctx : LmMsgJoinAllCtx)
deriving Repr, DecidableEq

/-- The reassignment of one inode. -/
structure MoveCtx where
  ino : ℕ
  exporterWid : ℕ
  importerWid : ℕ
  imported : Bool
  joins : Bool
deriving Repr, DecidableEq

/-- The inodes of the workers, the reassignments under way, the join, and which workers are active.
-/
structure JoinWorkers where
  inodeMap : ℕ → List ℕ
  ctxs : List MoveCtx
  join : JoinPhase
  active : ℕ → Bool

namespace JoinWorkers

/-- A step of the load manager, of a worker, or of a reassignment. -/
inductive Label where
  /-- `PackAccessFirstPolicy::TryJoinBack` sends the message to the source. -/
  | tryJoinBack (srcWid dstWid : ℕ)
  /-- `PerCoreEfficiencyNCPolicy::TryExecLbMergePlan` sends it to the destination. -/
  | tryExecLbMergePlan (srcWid dstWid : ℕ)
  | processLmJoinAll (numInoInProcessing : ℕ)
  | reassign (ino srcWid dstWid : ℕ)
  | installInode (ino : ℕ)
  | importInode (i : ℕ)
  | oldOwnerCallback (i : ℕ)
  | joinAllAck
deriving Repr, DecidableEq

/-- No join and no reassignment is under way. -/
def start (inodeMap : ℕ → List ℕ) (active : ℕ → Bool) : JoinWorkers := ⟨inodeMap, [], .idle, active⟩

def sendJoinAll (s : JoinWorkers) (srcWid dstWid recvWid : ℕ) : JoinWorkers :=
  if s.join = .idle then { s with join := .sent ⟨srcWid, dstWid, 0, recvWid⟩ } else s

/-- The worker that got the message exports its inodes, or says that some are in use. -/
def processLmJoinAll (s : JoinWorkers) (numInoInProcessing : ℕ) : JoinWorkers :=
  match s.join with
  | .sent ctx =>
    let inodeMap := s.inodeMap ctx.recvWid
    if 0 < numInoInProcessing then { s with join := .acked { ctx with numJoin := -numInoInProcessing } }
    else if inodeMap = [] then { s with join := .acked { ctx with numJoin := 0 } }
    else { s with
      join := .joining { ctx with numJoin := inodeMap.length } inodeMap.length
      inodeMap := Function.update s.inodeMap ctx.recvWid []
      ctxs := s.ctxs ++ inodeMap.map fun ino => ⟨ino, ctx.recvWid, ctx.dstWid, false, true⟩ }
  | _ => s

/-- Another reassignment begins. -/
def reassign (s : JoinWorkers) (ino srcWid dstWid : ℕ) : JoinWorkers :=
  if ino ∈ s.inodeMap srcWid then { s with
    inodeMap := Function.update s.inodeMap srcWid ((s.inodeMap srcWid).erase ino)
    ctxs := s.ctxs ++ [⟨ino, srcWid, dstWid, false, false⟩] }
  else s

def installInode (s : JoinWorkers) (wid ino : ℕ) : JoinWorkers :=
  { s with inodeMap := Function.update s.inodeMap wid (ino :: s.inodeMap wid) }

def importInode (s : JoinWorkers) (i : ℕ) : JoinWorkers :=
  match s.ctxs[i]? with
  | none => s
  | some ctx =>
    if ctx.imported then s
    else { s.installInode ctx.importerWid ctx.ino with ctxs := s.ctxs.set i { ctx with imported := true } }

def oldOwnerCallback (s : JoinWorkers) (i : ℕ) : JoinWorkers :=
  match s.ctxs[i]? with
  | none => s
  | some ctx =>
    if ctx.imported then
      let s := { s with ctxs := s.ctxs.eraseIdx i }
      match s.join with
      | .joining join sharedCounter =>
        if ctx.joins then
          { s with join := if sharedCounter = 1 then .acked join else .joining join (sharedCounter - 1) }
        else s
      | _ => s
    else s

/-- The load manager takes the answer: the worker that joined is no longer active. -/
def joinAllAck (s : JoinWorkers) : JoinWorkers :=
  match s.join with
  | .acked ctx =>
    { s with join := .idle, active := if 0 ≤ ctx.numJoin then Function.update s.active ctx.srcWid false else s.active }
  | _ => s

/-- One step. -/
def step (l : Label) (s : JoinWorkers) : Option JoinWorkers :=
  some <| match l with
  | .tryJoinBack srcWid dstWid => s.sendJoinAll srcWid dstWid srcWid
  | .tryExecLbMergePlan srcWid dstWid => s.sendJoinAll srcWid dstWid dstWid
  | .processLmJoinAll numInoInProcessing => s.processLmJoinAll numInoInProcessing
  | .reassign ino srcWid dstWid => s.reassign ino srcWid dstWid
  | .installInode ino => s.installInode 0 ino
  | .importInode i => s.importInode i
  | .oldOwnerCallback i => s.oldOwnerCallback i
  | .joinAllAck => s.joinAllAck

end JoinWorkers

end Ufs.Impl
