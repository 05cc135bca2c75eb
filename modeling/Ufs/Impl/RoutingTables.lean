import Mathlib.Data.Finset.Image
import Mathlib.Data.List.AList
import Ufs.Impl.LoadManager

/-!
# The routing tables of the load manager (`FsProc_KnowParaLoadMng.h`, `FsProc_KP_DS.cc`)

`LmMemLessRoutingTable` packs the numbers of a process and of a thread in 64 bits; in the tables for
future requests and for creations a thread is a number, as in `KPLoadManager`. `dst_workers[wid]`
makes an entry when there is none.
-/

namespace Ufs.Impl

open Function (update)

/-- A `pid_t` or a `tid` that is not negative. -/
abbrev TaskId := { v : BitVec 32 // v.msb = false }

/-- The `int`s are converted to `long long`. -/
def assembleTwo32B (var1 var2 : BitVec 32) : BitVec 64 := var1.signExtend 64 <<< 32 ||| var2.signExtend 64

/-- The two tasks of a key. -/
def dessembleOne64B (key : BitVec 64) : BitVec 32 × BitVec 32 :=
  (((key &&& 0xFFFFFFFF00000000#64) >>> 32).setWidth 32, (key &&& 0x00000000FFFFFFFF#64).setWidth 32)

abbrev WidTaus (ω τ : Type) := ω → Option (Finset τ)

namespace WidTaus

variable {ω τ : Type} [DecidableEq ω] [DecidableEq τ]

/-- The tasks that a worker handles. -/
def taus (m : WidTaus ω τ) (w : ω) : Finset τ := (m w).getD ∅

def erase (tau : τ) (m : WidTaus ω τ) (w : ω) : WidTaus ω τ := update m w (some ((m.taus w).erase tau))

def emplace (tau : τ) (m : WidTaus ω τ) (w : ω) : WidTaus ω τ := update m w (some (insert tau (m.taus w)))

end WidTaus

/-! ## `LmMemLessRoutingTable` -/

/-- `std::map<int, float>`: the destinations of a thread, with a share of type `φ` each. -/
abbrev DstMap (φ : Type) := AList fun _ : ℤ => φ

/-- `LmMemLessRoutingTable`: the map from keys to workers, and its inverse. -/
structure LmMemLessRoutingTable (φ : Type) where
  srcRoutingMap : BitVec 64 → Option (DstMap φ)
  dstHandlingTaus : WidTaus ℤ (BitVec 64)

/-- The items of an update, in its order. -/
abbrev RtItems (φ : Type) := List ((TaskId × TaskId) × DstMap φ)

namespace LmMemLessRoutingTable

variable {φ : Type}

/-- An empty table. -/
def init : LmMemLessRoutingTable φ := ⟨fun _ => none, fun _ => none⟩

def updateItem (t : LmMemLessRoutingTable φ) (item : (TaskId × TaskId) × DstMap φ) : LmMemLessRoutingTable φ :=
  let tauId := assembleTwo32B item.1.1.1 item.1.2.1
  let oldDsts := ((t.srcRoutingMap tauId).map AList.keys).getD []
  { srcRoutingMap := update t.srcRoutingMap tauId (some item.2)
    dstHandlingTaus := item.2.keys.foldl (WidTaus.emplace tauId)
      (oldDsts.foldl (WidTaus.erase tauId) t.dstHandlingTaus) }

/-- The items are applied in order, and workers with nothing left are dropped. -/
def updateItems (t : LmMemLessRoutingTable φ) (items : RtItems φ) : LmMemLessRoutingTable φ :=
  let t := items.foldl updateItem t
  { t with dstHandlingTaus := fun w => (t.dstHandlingTaus w).filter (· ≠ ∅) }

/-- The pairs of tasks that a worker handles, added to `tids`. -/
def getWidHandling (t : LmMemLessRoutingTable φ) (dstWid : ℤ) (tids : Finset (BitVec 32 × BitVec 32)) :
    Finset (BitVec 32 × BitVec 32) := tids ∪ (t.dstHandlingTaus.taus dstWid).image dessembleOne64B

end LmMemLessRoutingTable

/-! ## The tables for future requests and for creations -/

/-- `LmWorkerFutureRoutingTable`, and `LmWorkerCreationRoutingTable` with the destination and the
round of each thread. -/
structure RoutingTables where
  history : ℕ → Option DstHistory
  futureWorkers : WidTaus ℕ ℕ
  creation : ℕ → Option (ℕ × ℕ)
  creationWorkers : WidTaus ℕ ℕ
  roundId : ℕ

namespace RoutingTables

/-- Empty tables. -/
def init : RoutingTables := ⟨fun _ => none, fun _ => none, fun _ => none, fun _ => none, 0⟩

/-- The worker that the task is routed to. -/
def getTauCurDstWid (t : RoutingTables) (tau : ℕ) : Option ℕ := (t.history tau).bind fun his => his.getLast?.map (·.2)

/-- `AddWid` of either table: what is there is emptied, and nothing is added. -/
def addWid (m : WidTaus ℕ ℕ) (wid : ℕ) : WidTaus ℕ ℕ := if (m wid).isSome then update m wid (some ∅) else m

/-- A task that is new is routed to the primary. -/
def initTauToMaster (t : RoutingTables) (tau roundId : ℕ) : RoutingTables :=
  { t with
    history := update t.history tau (some [(KPLoadManager.roundBefore roundId, masterWid)])
    futureWorkers := t.futureWorkers.emplace tau masterWid }

/-- With whether it returns 0. The earlier entries for `dst` are erased from a copy of the history. -/
def updateTauDstWid (t : RoutingTables) (tau src dst roundId : ℕ) : Bool × RoutingTables :=
  match t.history tau with
  | none => (false, t)
  | some his =>
    if his.getLast?.map (·.2) = some src then
      (true, { t with
        history := update t.history tau (some (his.emplace roundId dst))
        futureWorkers := (t.futureWorkers.erase tau src).emplace tau dst })
    else (false, t)

def eraseWid (t : RoutingTables) (wid : ℕ) : RoutingTables :=
  { t with
    creation := fun tau => if tau ∈ t.creationWorkers.taus wid then none else t.creation tau
    creationWorkers := update t.creationWorkers wid none }

def updateDstWid (t : RoutingTables) (tau wid roundId : ℕ) : RoutingTables :=
  { t with
    creation := update t.creation tau (some (wid, roundId))
    creationWorkers := ((t.creation tau).elim t.creationWorkers fun x =>
      t.creationWorkers.erase tau x.1).emplace tau wid }

/-- As a set; `none` is an exception. The difference of the rounds is made an `int`. -/
def getActiveTausInDstWithinNumRound (t : RoutingTables) (wid : ℕ) (curRoundId numRound : ℤ) : Option (Finset ℕ) :=
  if ∀ tau ∈ t.creationWorkers.taus wid, (t.creation tau).map Prod.fst = some wid then
    some ((t.creationWorkers.taus wid).filter fun tau =>
      (BitVec.ofInt 32 (curRoundId - ((t.creation tau).map Prod.snd).getD 0 : ℤ)).toInt ≤ numRound)
  else none

/-- An update of the tables. -/
inductive Label where
  | initTauToMaster (tau roundId : ℕ)
  | updateTauDstWid (tau src dst roundId : ℕ)
  | addWidFuture (wid : ℕ)
  | addWidCreation (wid : ℕ)
  | eraseWid (wid : ℕ)
  | updateDstWid (tau wid roundId : ℕ)
deriving Repr, DecidableEq

/-- The rounds do not decrease, and only a thread that is not there yet is sent to the master. -/
def step : Label → RoutingTables → Option RoutingTables
  | .initTauToMaster tau roundId, t =>
    if t.roundId ≤ roundId ∧ t.history tau = none then some { t.initTauToMaster tau roundId with roundId } else none
  | .updateTauDstWid tau src dst roundId, t =>
    if t.roundId ≤ roundId then some { (t.updateTauDstWid tau src dst roundId).2 with roundId } else none
  | .addWidFuture wid, t => some { t with futureWorkers := addWid t.futureWorkers wid }
  | .addWidCreation wid, t => some { t with creationWorkers := addWid t.creationWorkers wid }
  | .eraseWid wid, t => some (t.eraseWid wid)
  | .updateDstWid tau wid roundId, t =>
    if t.roundId ≤ roundId then some { t.updateDstWid tau wid roundId with roundId } else none

end RoutingTables

end Ufs.Impl
