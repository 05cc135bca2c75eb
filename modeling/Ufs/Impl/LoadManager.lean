import Mathlib.Algebra.Ring.Nat
import Mathlib.Data.List.Dedup
import Ufs.Framework.Run

/-!
# The rounds of the load manager (`FsProc_KnowParaLoadMng.cc`)

Modelled are `MinWaitingPolicy`, and the execution of a plan (`ExecLbPlan`) and of a merge plan. The
load of the cores is an input, and the calls of `TryRebalance` are steps. A step without a result is
an exception; a label that does not fit the place where the load manager is has no effect.
-/

namespace Ufs.Impl

/-- `FsProcWorker::kMasterWidConst`. -/
def masterWid : ℕ := 0

/-- `OneTauDstHistory`: where the requests of a thread went, by the rounds in which that changed. -/
abbrev DstHistory := List (ℕ × ℕ)

/-- An entry that is there stays. -/
def DstHistory.emplace (round wid : ℕ) : DstHistory → DstHistory
  | [] => [(round, wid)]
  | (r, w) :: his =>
    if round < r then (round, wid) :: (r, w) :: his
    else if round = r then (r, w) :: his
    else (r, w) :: emplace round wid his

/-- The messages to the workers. -/
inductive LmMsgType where
  | redirectFuture
  | joinAll
deriving Repr, DecidableEq

/-- The load of one task at a worker. -/
structure TauLoad where
  tau : ℕ
  ut : ℤ
  wait : ℤ
deriving Repr, DecidableEq

/-- The load of a worker. -/
structure LoadSummary where
  wid : ℕ
  taus : List TauLoad
deriving Repr, DecidableEq

/-- The messages that are not acknowledged (`core_has_msg_sent_`), those that a worker still has to
acknowledge, and the calls of `TryRebalance` that are left: for each source the destinations, and
whether the first success ends all. -/
structure KPLoadManager where
  futureTb : ℕ → Option DstHistory
  coreHasMsgSent : List (ℕ × LmMsgType)
  messages : List (ℕ × LmMsgType)
  evalRoundId : ℕ
  calls : List (LoadSummary × List ℕ)
  once : Bool

namespace KPLoadManager

/-- No task is known and no message is out. -/
def start : KPLoadManager := ⟨fun _ => none, [], [], 0, [], false⟩

def sendMsg (dstWid : ℕ) (type : LmMsgType) (m : KPLoadManager) : Option KPLoadManager :=
  if m.coreHasMsgSent.any (·.1 == dstWid) then none
  else some { m with
    coreHasMsgSent := (dstWid, type) :: m.coreHasMsgSent, messages := m.messages ++ [(dstWid, type)] }

def sendAll (type : LmMsgType) : List ℕ → KPLoadManager → Option KPLoadManager
  | [], m => some m
  | wid :: wids, m => (m.sendMsg wid type).bind (sendAll type wids)

def checkOneMsgAckMatch (srcWid : ℕ) (type : LmMsgType) (m : KPLoadManager) : Option KPLoadManager :=
  match m.coreHasMsgSent.find? (·.1 == srcWid) with
  | none => none
  | some sent =>
    if sent.2 = type then some { m with coreHasMsgSent := m.coreHasMsgSent.filter (·.1 != srcWid) } else none

/-! ## The routing table -/

/-- The worker that the task is routed to. -/
def getTauCurDstWid (m : KPLoadManager) (tau : ℕ) : Option ℕ := (m.futureTb tau).bind fun his => his.getLast?.map (·.2)

/-- `round_id - 1`, a `uint64_t`. -/
def roundBefore (roundId : ℕ) : ℕ := (roundId + (2 ^ 64 - 1)) % 2 ^ 64

/-- A task that is new is routed to the primary. -/
def initTauToMaster (m : KPLoadManager) (tau : ℕ) : KPLoadManager :=
  { m with futureTb := Function.update m.futureTb tau (some [(roundBefore m.evalRoundId, masterWid)]) }

/-- The earlier entries for `dst` are erased from a copy of the history, and stay in the table. -/
def updateTauDstWid (m : KPLoadManager) (tau src dst : ℕ) : KPLoadManager :=
  match m.futureTb tau with
  | none => m
  | some his =>
    if his.getLast?.map (·.2) = some src then
      { m with futureTb := Function.update m.futureTb tau (some (his.emplace m.evalRoundId dst)) }
    else m

/-! ## `TryRebalance` -/

def initTaus (m : KPLoadManager) (taus : List TauLoad) : KPLoadManager :=
  taus.foldl (fun m x => if (m.getTauCurDstWid x.tau).isNone then m.initTauToMaster x.tau else m) m

def candidates (m : KPLoadManager) (src : LoadSummary) : List TauLoad :=
  src.taus.filter fun x => m.getTauCurDstWid x.tau = some src.wid

/-- The order in which the tasks of a worker are looked at. -/
def TauLoad.before (a b : TauLoad) : Bool := if a.wait ≠ b.wait then b.wait < a.wait else b.ut < a.ut

def firstCandidate : List TauLoad → Option TauLoad
  | [] => none
  | x :: xs => some (xs.foldl (fun best y => if TauLoad.before y best then y else best) x)

/-- To the new worker, and to every other worker in the history, which has to name the master. -/
def redirect (m : KPLoadManager) (tau src dst : ℕ) : Option KPLoadManager := do
  let m ← m.sendMsg dst .redirectFuture
  let m := m.updateTauDstWid tau src dst
  let his := (m.futureTb tau).getD []
  let m ← m.sendAll .redirectFuture ((his.map (·.2)).filter (· != dst))
  if his.any (·.2 == masterWid) then some m else none

/-- A task of `src` is redirected to `dst`, if there is a candidate. -/
def tryRebalance (m : KPLoadManager) (src : LoadSummary) (dst : ℕ) : Option (Bool × KPLoadManager) :=
  let m := m.initTaus src.taus
  match firstCandidate (m.candidates src) with
  | none => some (false, m)
  | some x => (m.redirect x.tau src.wid dst).map (true, ·)

/-! ## Rounds -/

/-- A round of the load manager, or the answer to a message. -/
inductive Label where
  | skip
  | doRebalance (congestCores : List LoadSummary) (underCores : List ℕ)
  | overloadAddOneCore (congestCores : List LoadSummary) (newActivateCid : ℕ)
  /-- `ExecLbPlan` with a plan that is not empty, for the cores that run. -/
  | execLbPlan (srcCid : ℕ) (wids : List ℕ)
  /-- `TryExecLbMergePlan`, when it has been decided on often enough. -/
  | execLbMergePlan (srcWid dstWid : ℕ)
  | tryRebalance
  /-- A worker acknowledges the `i`-th message, and `WaitMsgWorkerResponse` receives that. -/
  | ack (i : ℕ)
deriving Repr, DecidableEq

/-- No call waits for answers. -/
def idle (m : KPLoadManager) : Bool := m.calls.isEmpty && m.coreHasMsgSent.isEmpty

def callsAfter (m : KPLoadManager) (rt : Bool) (src : LoadSummary) (dsts : List ℕ)
    (rest : List (LoadSummary × List ℕ)) :
    List (LoadSummary × List ℕ) :=
  if rt then if m.once then [] else rest else (src, dsts) :: rest

/-- One round or answer. -/
def step (l : Label) (m : KPLoadManager) : Option KPLoadManager :=
  let next := { m with evalRoundId := m.evalRoundId + 1 }
  match l with
  | .skip => some (if m.idle then next else m)
  | .doRebalance congestCores underCores =>
    some (if m.idle then { next with calls := congestCores.map (·, underCores), once := false } else m)
  | .overloadAddOneCore congestCores newActivateCid =>
    some (if m.idle then { next with calls := congestCores.map (·, [newActivateCid]), once := true } else m)
  | .execLbPlan srcCid wids =>
    -- `to_send_msg_map` has each worker once
    if m.idle then next.sendAll .redirectFuture (masterWid :: srcCid :: wids).dedup else some m
  | .execLbMergePlan _ dstWid => if m.idle then next.sendMsg dstWid .joinAll else some m
  | .tryRebalance =>
    match m.calls with
    | [] => some m
    | (_, []) :: rest => some { m with calls := rest }
    | (src, dst :: dsts) :: rest =>
      (m.tryRebalance src dst).map fun (rt, m') => { m' with calls := m'.callsAfter rt src dsts rest }
  | .ack i =>
    -- `WaitMsgWorkerResponse` runs after the policy
    if m.calls.isEmpty then
      match m.messages[i]? with
      | none => some m
      | some (wid, type) => { m with messages := m.messages.eraseIdx i }.checkOneMsgAckMatch wid type
    else some m

end KPLoadManager

end Ufs.Impl
