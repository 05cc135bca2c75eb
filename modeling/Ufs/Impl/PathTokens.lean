import Mathlib.Data.Int.Notation
import Mathlib.Data.Nat.Notation

/-!
# Paths and their components (`util.cc`)

A path is its bytes up to the zero byte. `filepath2Tokens` and `filepath2TokensStandardized` go over
it with the same loop, which bypasses a `/` or takes a component (`items`). A write outside of an
array has no result.
-/

namespace Ufs.Impl

def slash : UInt8 := 47

/-- `getline` up to the next `/`, of which the lines that are not empty are kept. -/
def slowLoop (tokenVec : List (List UInt8)) (intermediate : List UInt8) : List UInt8 → List (List UInt8)
  | [] => if 0 < intermediate.length then tokenVec ++ [intermediate] else tokenVec
  | c :: rest =>
    if c = slash then slowLoop (if 0 < intermediate.length then tokenVec ++ [intermediate] else tokenVec) [] rest
    else slowLoop tokenVec (intermediate ++ [c]) rest

/-- `filepath2TokensSlow`. -/
def filepath2TokensSlow (path : List UInt8) : List (List UInt8) := slowLoop [] [] path

/-- The components that the loop takes from the rest of a path; the number bounds its rounds. -/
def items : ℕ → List UInt8 → List (List UInt8)
  | 0, _ | _, [] => []
  | fuel + 1, c :: rest =>
    if c = slash then items fuel rest
    else
      let item := (c :: rest).takeWhile (· ≠ slash)
      item :: items fuel ((c :: rest).drop (item.length + 1))

/-- `filepath2Tokens`: the parts between the slashes that are not empty. -/
def filepath2Tokens (path : List UInt8) : List (List UInt8) := items path.length path

/-- The buffers of `filepath2TokensStandardized`. -/
structure StandardPath where
  standardPath : List UInt8
  standardPathIdx : ℕ
  pathDelimIdxArr : List ℤ
  depth : ℕ

def memcpyAt (buf : List UInt8) (idx : ℕ) (bytes : List UInt8) : Option (List UInt8) :=
  if idx + bytes.length ≤ buf.length then some (buf.take idx ++ bytes ++ buf.drop (idx + bytes.length)) else none

def storeAt (arr : List ℤ) (i : ℕ) (v : ℤ) : Option (List ℤ) := if i < arr.length then some (arr.set i v) else none

def StandardPath.addItem (s : StandardPath) (item : List UInt8) : Option StandardPath := do
  let arr ← storeAt s.pathDelimIdxArr s.depth s.standardPathIdx
  let buf ← memcpyAt s.standardPath s.standardPathIdx item
  let buf ← memcpyAt buf (s.standardPathIdx + item.length) [slash]
  return ⟨buf, s.standardPathIdx + item.length + 1, arr, s.depth + 1⟩

/-- The last `/` is overwritten. -/
def StandardPath.close (s : StandardPath) : StandardPath :=
  if 0 < s.standardPathIdx ∧ s.standardPath[s.standardPathIdx - 1]? = some slash then
    { s with standardPath := s.standardPath.set (s.standardPathIdx - 1) 0 }
  else s

/-- The path with single slashes and the places of its delimiters; there is no result where the code
writes outside an array. -/
def filepath2TokensStandardized (path : List UInt8) (pathDelimIdxArr : List ℤ) : Option StandardPath := do
  let arr ← storeAt pathDelimIdxArr 0 (-1)
  let s ← (filepath2Tokens path).foldlM StandardPath.addItem ⟨List.replicate (path.length + 1) 0, 0, arr, 0⟩
  return s.close

/-- The bytes before the first zero. -/
def cString (buf : List UInt8) : List UInt8 := buf.takeWhile (· ≠ 0)

def kMaxPathDepth : ℕ := 32

/-- The path tokens of `FsReq`; `split` is `absl::StrSplit` at `"/"`, which is not part of the
repository. -/
def pathTokens (split : List UInt8 → List (List UInt8)) (s : StandardPath) : List (List UInt8) :=
  split (cString s.standardPath)

end Ufs.Impl
