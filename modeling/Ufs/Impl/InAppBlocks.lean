import Mathlib.Algebra.Ring.Nat
import Mathlib.Logic.Function.Basic

/-!
# The pages that a client caches (`FsProc.cc`)

Both loops compare offsets of 32 bits. The offset of a page takes `2 ^ 20` values in such a loop, so
that one which takes more turns goes on forever.
-/

namespace Ufs.Impl

def gFsLibMallocPageSize : ℕ := 4096

/-- The part of an operation that says which bytes it is about. -/
structure RwOpCommon where
  realOffset : ℕ
  realCount : ℕ
  deriving DecidableEq

namespace RwOpCommon

variable (op : RwOpCommon)

def startAlignedOff : ℕ := op.realOffset / gFsLibMallocPageSize * gFsLibMallocPageSize

def curAlignedOff (numPages : ℕ) : ℕ := op.startAlignedOff + numPages * gFsLibMallocPageSize % 2 ^ 32

def GoesOn (numPages : ℕ) : Prop := op.curAlignedOff numPages % 2 ^ 32 ≤ (op.realOffset + op.realCount) % 2 ^ 32

instance (numPages : ℕ) : Decidable (op.GoesOn numPages) := inferInstanceAs (Decidable (_ ≤ _))

end RwOpCommon

abbrev InAppPages := ℕ → Option ℕ

/-- An operation whose pages the client keeps. -/
structure InAppCall where
  op : RwOpCommon
  isWrite : Bool
  accessSeqNo : ℕ

def InAppCall.record (c : InAppCall) (m : InAppPages) (off : ℕ) : InAppPages :=
  Function.update m off (some (if c.isWrite then c.accessSeqNo else (m off).getD 1))

/-- The loop, with a bound on its turns; `none` when it goes on. -/
def InAppCall.extractRwReqPageNos (c : InAppCall) : ℕ → ℕ → InAppPages → Option InAppPages
  | 0, _, _ => none
  | turns + 1, numPages, m =>
    if c.op.GoesOn numPages then
      c.extractRwReqPageNos turns (numPages + 1) (c.record m (c.op.curAlignedOff numPages))
    else some m

def maxTurns : ℕ := 2 ^ 20

def addInAppAllocOpDataBlocks (pending : Option InAppPages) (c : InAppCall) : Option InAppPages :=
  c.extractRwReqPageNos (maxTurns + 1) 0 (pending.getD fun _ => none)

/-- The loop of `retrieveInAppAllocOpDataBlocks`, with `allInApp` and `maxSeq` after it. -/
def RwOpCommon.retrieve (op : RwOpCommon) (m : InAppPages) : ℕ → ℕ → ℕ → Option (Bool × ℕ)
  | 0, _, _ => none
  | turns + 1, numPages, maxSeq =>
    if op.GoesOn numPages then
      match m (op.curAlignedOff numPages) with
      | none => some (false, 0)
      | some seq => op.retrieve m turns (numPages + 1) (if maxSeq < seq then seq else maxSeq)
    else some (true, maxSeq)

/-- Throws for an inode that is not in the map. The caller passes a variable for `maxSeq`. -/
def retrieveInAppAllocOpDataBlocks (pending : Option InAppPages) (op : RwOpCommon) (maxSeq : ℕ) : Option (Bool × ℕ) :=
  pending.bind fun m => (op.retrieve m (maxTurns + 1) 0 maxSeq).map fun r => (r.1 && r.2 != 0, r.2)

end Ufs.Impl
