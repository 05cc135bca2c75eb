import Mathlib.Data.Finset.Basic
import Ufs.Framework.Run

/-!
# Requests that wait for reads (`submitFsGeneratedRequests`, `submitDevAsyncReadReqCompletion`)

The completion of a read takes the unit from the requests that wait for it and puts those that have
no other on the ready queue. The device may refuse a read. Blocks and sectors have one map by
`IoUnit` here. `suspensions` and `wakes` count.
-/

namespace Ufs.Impl

open Function (update)

/-- A block or a sector. -/
structure IoUnit where
  isSector : Bool
  iouNo : ℕ
deriving Repr, DecidableEq

/-- Who waits for which reads, and the reads in flight. -/
structure ReadWaits where
  ioUnitPendingMap : ℕ → Finset IoUnit
  readPendingSubmitFsReq : IoUnit → Option ℕ
  readPendingFsReqs : IoUnit → Finset ℕ
  inFlight : IoUnit → ℕ
  suspensions : ℕ → ℕ
  wakes : ℕ → ℕ

namespace ReadWaits

def insertSubmit (s : ReadWaits) (req : ℕ) (u : IoUnit) : ReadWaits :=
  { s with readPendingSubmitFsReq := update s.readPendingSubmitFsReq u (some req) }

def devRead (s : ReadWaits) (u : IoUnit) : ReadWaits :=
  { s with inFlight := update s.inFlight u (s.inFlight u + 1) }

/-- Also `submitPendOnSectorFsReq`. A unit that was not submitted sends the request to the ready queue. -/
def submitPendOn (s : ReadWaits) (req : ℕ) (u : IoUnit) : ReadWaits :=
  match s.readPendingSubmitFsReq u with
  | none => { s with wakes := update s.wakes req (s.wakes req + 1) }
  | some _ => { s with readPendingFsReqs := update s.readPendingFsReqs u (insert req (s.readPendingFsReqs u)) }

/-- The units with whether they are to be submitted. A unit that was submitted already, and a first
unit that is refused, end the server. -/
def submitPendingMap (req : ℕ) (refused : IoUnit → Bool) : Bool → List (IoUnit × Bool) → ReadWaits → Option ReadWaits
  | _, [], s => some s
  | begin, (u, true) :: us, s =>
    if s.readPendingSubmitFsReq u = none then
      if refused u then if begin then none else some (s.insertSubmit req u)
      else submitPendingMap req refused false us (((s.insertSubmit req u).devRead u).submitPendOn req u)
    else none
  | _, (u, false) :: us, s => submitPendingMap req refused false us (s.submitPendOn req u)

def suspend (s : ReadWaits) (req : ℕ) (us : Finset IoUnit) : ReadWaits :=
  { s with
    ioUnitPendingMap := update s.ioUnitPendingMap req us
    suspensions := update s.suspensions req (s.suspensions req + 1) }

def submitFsGeneratedRequests (s : ReadWaits) (req : ℕ) (refused : IoUnit → Bool)
    (blocks sectors : List (IoUnit × Bool)) :
    Option ReadWaits :=
  (submitPendingMap req refused true blocks s).bind (submitPendingMap req refused true sectors)

def submitDevAsyncReadReqCompletion (s : ReadWaits) (u : IoUnit) : ReadWaits :=
  let reqs := s.readPendingFsReqs u
  { ioUnitPendingMap := fun req => if req ∈ reqs then (s.ioUnitPendingMap req).erase u else s.ioUnitPendingMap req
    wakes := fun req => if req ∈ reqs ∧ (s.ioUnitPendingMap req).erase u = ∅ then s.wakes req + 1 else s.wakes req
    readPendingFsReqs := update s.readPendingFsReqs u ∅
    readPendingSubmitFsReq := update s.readPendingSubmitFsReq u none
    inFlight := update s.inFlight u (s.inFlight u - 1)
    suspensions := s.suspensions }

/-- A request submits its reads, or one completes. -/
inductive Label where
  | submit (req : ℕ) (refused : IoUnit → Bool) (blocks sectors : List (IoUnit × Bool))
  | complete (u : IoUnit)

/-- The keys of a map are different, and a request is suspended again only after it was ready. -/
def step : Label → ReadWaits → Option ReadWaits
  | .submit req refused blocks sectors, s =>
    if s.ioUnitPendingMap req = ∅ ∧ ((blocks ++ sectors).map Prod.fst).Nodup ∧ blocks ++ sectors ≠ [] then
      (s.suspend req ((blocks ++ sectors).map Prod.fst).toFinset).submitFsGeneratedRequests req refused blocks sectors
    else none
  | .complete u, s => if 0 < s.inFlight u then some (s.submitDevAsyncReadReqCompletion u) else none

/-- No request waits. -/
def start : ReadWaits := ⟨fun _ => ∅, fun _ => none, fun _ => ∅, fun _ => 0, fun _ => 0, fun _ => 0⟩

end ReadWaits

end Ufs.Impl
