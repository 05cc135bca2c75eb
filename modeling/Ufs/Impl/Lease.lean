import Mathlib.Algebra.Ring.Int.Defs
import Ufs.Framework.Run

/-!
# The leases of a worker (`FsProc_Lease.cc`)

A lease is a context on the heap (`ctx`), from `initLeaseRecord` until `tryInvalidateLease` deletes
it. `genTimestamp` comes with the calls. A call is `none` when it throws or uses what was deleted,
and `initLeaseRecord` also when an assertion of it does not hold.
-/

namespace Ufs.Impl

open Function (update)

/-- `FsProcLeaseType`. -/
inductive FsProcLeaseType where
  | unknown
  | readShare
  | writeExclusive
deriving Repr, DecidableEq

/-- `LeaseCtx`: who has the lease, of which kind and since when. -/
structure LeaseCtx where
  ino : ℕ
  pid : ℤ
  startTs : ℕ
  type : FsProcLeaseType
deriving DecidableEq

/-- `LeaseMng`: the records of read and of write leases, and the contexts they point to. -/
structure LeaseMng where
  readLeaseRecordsMap : ℕ → Option (ℤ → Option ℕ)
  writeLeaseRecordMap : ℕ → Option ℕ
  ctx : ℕ → Option LeaseCtx
  nextCtx : ℕ

namespace LeaseMng

/-- No lease. -/
def init : LeaseMng := ⟨fun _ => none, fun _ => none, fun _ => none, 0⟩

/-- Whether there is a lease, and its type. -/
def queryValidExistingLease (ino : ℕ) (m : LeaseMng) : Option (Bool × FsProcLeaseType) :=
  match m.writeLeaseRecordMap ino, m.readLeaseRecordsMap ino with
  | some _, some _ => none
  | some _, none => some (true, .writeExclusive)
  | none, some _ => some (true, .readShare)
  | none, none => some (false, .unknown)

/-- The lease of a process on an inode; there is no result where the code fails an assertion. -/
def queryValidExistingLeaseForApp (ino : ℕ) (pid : ℤ) (m : LeaseMng) : Option (Option ℕ) :=
  match m.writeLeaseRecordMap ino, m.readLeaseRecordsMap ino with
  | some _, some _ => none
  | some p, none => if 0 < pid then (m.ctx p).map fun c => if c.pid = pid then some p else none else some none
  | none, some rmap => some (if 0 < pid then rmap pid else none)
  | none, none => some none

/-- `emplace` leaves an entry that is there. -/
def emplace {α β : Type} [DecidableEq α] (f : α → Option β) (a : α) (b : β) : α → Option β :=
    if f a = none then update f a (some b) else f

/-- `initLeaseRecord` after its assertions. -/
def addRecord (ino : ℕ) (pid : ℤ) (typ : FsProcLeaseType) (now : ℕ) (m : LeaseMng) : LeaseMng :=
  let made := { m with ctx := update m.ctx m.nextCtx (some ⟨ino, pid, now, typ⟩), nextCtx := m.nextCtx + 1 }
  match typ with
  | .readShare =>
    let rmap := (m.readLeaseRecordsMap ino).getD fun _ => none
    { made with readLeaseRecordsMap := update m.readLeaseRecordsMap ino (some (emplace rmap pid m.nextCtx)) }
  | .writeExclusive => { made with writeLeaseRecordMap := emplace m.writeLeaseRecordMap ino m.nextCtx }
  | .unknown => m

/-- A new lease, where the assertions of the code hold. -/
def initLeaseRecord (ino : ℕ) (pid : ℤ) (typ : FsProcLeaseType) (now : ℕ) (m : LeaseMng) : Option LeaseMng :=
  (m.queryValidExistingLease ino).bind fun (_, tmpTyp) => (m.queryValidExistingLeaseForApp ino pid).bind fun ctxPtr =>
    if tmpTyp ≠ .writeExclusive ∧ ctxPtr = none then some (m.addRecord ino pid typ now) else none

def tryExtendLease (p now : ℕ) (m : LeaseMng) : Option LeaseMng :=
  (m.ctx p).map fun c => { m with ctx := update m.ctx p (some { c with startTs := now }) }

/-- A `pid_t` as a key of type `cfs_ino_t`. -/
def inoOfPid (pid : ℤ) : ℕ := (pid % 2 ^ 32).toNat

/-- The lease ends and its context is deleted. -/
def tryInvalidateLease (p : ℕ) (m : LeaseMng) : Option LeaseMng := (m.ctx p).bind fun c =>
  match c.type with
  | .readShare => (m.readLeaseRecordsMap c.ino).map fun rmap =>
    { m with readLeaseRecordsMap := update m.readLeaseRecordsMap c.ino (some (update rmap c.pid none)), ctx := update m.ctx p none }
  | .writeExclusive =>
    some { m with writeLeaseRecordMap := update m.writeLeaseRecordMap (inoOfPid c.pid) none, ctx := update m.ctx p none }
  | .unknown => some m

/-- A call of the lease manager. -/
inductive Label where
  | initLeaseRecord (ino : ℕ) (pid : ℤ) (typ : FsProcLeaseType) (now : ℕ)
  | tryExtendLease (p now : ℕ)
  | tryInvalidateLease (p : ℕ)

/-- One call. -/
def step : Label → LeaseMng → Option LeaseMng
  | .initLeaseRecord ino pid typ now => initLeaseRecord ino pid typ now
  | .tryExtendLease p now => tryExtendLease p now
  | .tryInvalidateLease p => tryInvalidateLease p

end LeaseMng

end Ufs.Impl
