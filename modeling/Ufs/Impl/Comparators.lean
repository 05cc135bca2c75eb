import Mathlib.Algebra.Order.Ring.Rat
import Ufs.Impl.Reassignment

/-!
# The comparisons of the load manager (`FsProc_KnowParaLoadMng.cc`)

The functions passed to `std::sort`. A utilisation is a finite `float`, given by its value.
-/

namespace Ufs.Impl

/-- The summary of a worker that the comparators read. -/
structure CoreSummary where
  wid : ℤ
  numTau : ℕ
  avgRecvQlen : ℚ
  cpuUt : ℚ
deriving DecidableEq

namespace CoreSummary

/-- The summary is that of the primary. -/
def isMaster (s : CoreSummary) : Prop := s.wid = kMasterWidConst

instance (s : CoreSummary) : Decidable s.isMaster := inferInstanceAs (Decidable (_ = _))

/-- `SpreadThenGroupPolicy::execute`. -/
def spreadBefore (a b : CoreSummary) : Bool :=
  if a.isMaster ∧ 1 < a.numTau then true
  else if b.isMaster ∧ 1 < b.numTau then false
  else if a.numTau ≠ b.numTau then b.numTau < a.numTau
  else if a.avgRecvQlen ≠ b.avgRecvQlen then b.avgRecvQlen < a.avgRecvQlen
  else b.cpuUt < a.cpuUt

/-- The underutilized cores of `PackAccessFirstPolicy`. -/
def underBefore (a b : CoreSummary) : Bool :=
  if a.isMaster then false else if b.isMaster then true else a.cpuUt < b.cpuUt

/-- The overloaded cores of `PackAccessFirstPolicy`. -/
def overBefore (a b : CoreSummary) : Bool :=
  if a.isMaster then true else if b.isMaster then false else b.cpuUt < a.cpuUt

end CoreSummary

/-- The order in which candidates for a rebalance are tried. -/
def rebalanceBefore (a b : ℕ × ℚ) : Bool := b.2 < a.2

/-- A worker that a task may be routed to. -/
@[ext]
structure RoutingTarget where
  ut : ℚ
  numCrt : ℤ

/-- `std::abs(a_ut - b_ut) < 0.01`; the constant is the `double` next to 0.01, and `round` rounds to a `float`. -/
def RoutingTarget.sameLevel (round : ℚ → ℚ) (a b : RoutingTarget) : Prop :=
    |round (a.ut - b.ut)| < 5764607523034235 / 2 ^ 59

instance (round : ℚ → ℚ) (a b : RoutingTarget) : Decidable (a.sameLevel round b) := inferInstanceAs (Decidable (_ < _))

/-- `TryRedirectCreation`. -/
def RoutingTarget.before (round : ℚ → ℚ) (a b : RoutingTarget) : Bool :=
  if a.sameLevel round b then if a.numCrt = b.numCrt then b.ut < a.ut else b.numCrt < a.numCrt
  else b.ut < a.ut

/-- The `double` next to 0.0005. -/
def kZero : ℚ := 1152921504606847 / 2 ^ 61

/-- `FormLbMinusPlan` sorts numbers of cores. -/
def minusBefore (smr : ℤ → CoreSummary) (a b : ℤ) : Bool :=
  if (smr a).isMaster then false
  else if (smr b).isMaster then true
  else if (smr a).cpuUt < kZero ∧ (smr b).cpuUt < kZero then b < a
  else (smr a).cpuUt < (smr b).cpuUt

end Ufs.Impl
