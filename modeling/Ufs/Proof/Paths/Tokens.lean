import Mathlib.Data.List.TakeWhile
import Ufs.Impl.PathTokens

/-!
# The splitters of paths agree

A path is taken apart at its components (`tokens_induct`). The standardized path has the components
with a slash after each (`joined`) and then zeros, until its last slash is overwritten.
-/

namespace Ufs.Proof.Paths

open Impl
open List

variable {ts : List (List UInt8)} {split : List UInt8 → List (List UInt8)}

theorem takeWhile_cases (s : List UInt8) : s.takeWhile (· ≠ slash) = s ∨ ∃ rest,
    s = s.takeWhile (· ≠ slash) ++ slash :: rest := by
  induction s with
  | nil => exact .inl rfl
  | cons c s ih =>
    by_cases hc : c = slash
    · exact .inr ⟨s, by simp [hc]⟩
    · simpa [takeWhile_cons, hc] using ih

/-- Induction on a path, component by component. -/
theorem tokens_induct {P : List UInt8 → List (List UInt8) → Prop} (nil : P [] [])
    (skip : ∀ s ts, P s ts → P (slash :: s) ts)
    (last : ∀ item, item ≠ [] → slash ∉ item → P item [item])
    (next : ∀ item s ts, item ≠ [] → slash ∉ item → P s ts → P (item ++ slash :: s) (item :: ts)) (path : List UInt8) :
    P path (filepath2Tokens path) := by
  suffices h : ∀ fuel (s : List UInt8), s.length ≤ fuel → P s (items fuel s) from h _ path le_rfl
  intro fuel
  induction fuel with
  | zero =>
    intro s hs
    rw [eq_nil_of_length_eq_zero (Nat.le_zero.1 hs)]
    exact nil
  | succ fuel ih =>
    intro s hs
    cases s with
    | nil => exact nil
    | cons c rest =>
      by_cases hc : c = slash
      · rw [items, if_pos hc, hc]
        exact skip _ _ (ih rest (by simpa using hs))
      · rw [items, if_neg hc]
        dsimp only
        have hne : (c :: rest).takeWhile (· ≠ slash) ≠ [] := by simp [hc]
        have hnot : slash ∉ (c :: rest).takeWhile (· ≠ slash) := fun hmem => by simpa using mem_takeWhile_imp hmem
        rcases takeWhile_cases (c :: rest) with heq | ⟨s, heq⟩
        · rw [heq] at hne hnot ⊢
          rw [drop_eq_nil_of_le (Nat.le_succ _)]
          cases fuel <;> exact last _ hne hnot
        · generalize (c :: rest).takeWhile (· ≠ slash) = item at heq hne hnot ⊢
          have hlen := congrArg List.length heq
          simp only [length_append, length_cons] at hlen hs
          rw [heq, show (item ++ slash :: s).drop (item.length + 1) = s by simp]
          exact next _ _ _ hne hnot (ih s (by omega))

theorem slowLoop_append (vec : List (List UInt8)) (cur s : List UInt8) :
    slowLoop vec cur s = vec ++ slowLoop [] cur s := by
  induction s generalizing vec cur with
  | nil =>
    unfold slowLoop
    split <;> simp
  | cons c s ih =>
    unfold slowLoop
    split
    · rw [ih, ih (if 0 < cur.length then _ else _)]
      split <;> simp
    · exact ih ..

theorem slowLoop_item {item : List UInt8} (h : slash ∉ item) (cur rest : List UInt8) :
    slowLoop [] cur (item ++ rest) = slowLoop [] (cur ++ item) rest := by
  induction item generalizing cur with
  | nil => simp
  | cons c item ih =>
    rw [mem_cons, not_or] at h
    rw [cons_append, slowLoop, if_neg (Ne.symm h.1), ih h.2, append_assoc]
    rfl

theorem slow_eq (path : List UInt8) : filepath2TokensSlow path = filepath2Tokens path := by
  refine tokens_induct (P := fun s ts => slowLoop [] [] s = ts) rfl (fun s ts ih => ?_) (fun item hne hnot => ?_)
    (fun item s ts hne hnot ih => ?_) path
  · rw [slowLoop, if_pos rfl]
    exact ih
  · have := slowLoop_item hnot [] []
    rw [append_nil, nil_append] at this
    rw [this, slowLoop, if_pos (length_pos_iff.2 hne), nil_append]
  · rw [slowLoop_item hnot, nil_append, slowLoop, if_pos rfl, if_pos (length_pos_iff.2 hne), slowLoop_append, ih]
    rfl

/-- Each component with a slash after it. -/
def joined (ts : List (List UInt8)) : List UInt8 := ts.flatMap (· ++ [slash])

theorem tokens_spec (path : List UInt8) : (∀ t ∈ filepath2Tokens path, t ≠ [] ∧ slash ∉ t ∧ t ⊆ path) ∧
    (joined (filepath2Tokens path)).length ≤ path.length + 1 := by
  refine tokens_induct (P := fun s ts => (∀ t ∈ ts, t ≠ [] ∧ slash ∉ t ∧ t ⊆ s) ∧ (joined ts).length ≤ s.length + 1)
    ⟨nofun, Nat.zero_le _⟩ (fun s ts ih => ⟨fun t ht => ?_, ?_⟩) (fun item hne hnot => ⟨?_, ?_⟩)
      (fun item s ts hne hnot ih => ⟨?_, ?_⟩) path
  · obtain ⟨hne, hnot, hsub⟩ := ih.1 t ht
    exact ⟨hne, hnot, subset_cons_of_subset _ hsub⟩
  · exact Nat.le_succ_of_le ih.2
  · simpa using ⟨hne, hnot⟩
  · simp [joined]
  · intro t ht
    rcases mem_cons.1 ht with rfl | ht
    · exact ⟨hne, hnot, subset_append_left ..⟩
    · obtain ⟨hne, hnot, hsub⟩ := ih.1 t ht
      exact ⟨hne, hnot, fun c hc => by simp [hsub hc]⟩
  · have := ih.2
    simp [joined] at this ⊢
    omega

theorem joined_eq (h : ts ≠ []) : joined ts = [slash].intercalate ts ++ [slash] := by
  induction ts with
  | nil => exact absurd rfl h
  | cons t ts ih =>
    cases ts with
    | nil => simp [joined]
    | cons t' ts =>
      rw [intercalate_cons_cons, append_assoc _ _ [slash], ← ih (by simp)]
      rfl

/-- Where the components start. -/
def starts (off : ℕ) : List (List UInt8) → List ℤ
  | [] => []
  | t :: ts => off :: starts (off + t.length + 1) ts

theorem starts_getElem (ts : List (List UInt8)) (off i : ℕ) (hi : i < ts.length) :
    (starts off ts)[i]? = some ((off + (joined (ts.take i)).length : ℕ) : ℤ) := by
  induction ts generalizing off i with
  | nil => cases hi
  | cons t ts ih =>
    cases i with
    | zero => rfl
    | succ i =>
      rw [starts, List.getElem?_cons_succ, ih _ i (Nat.lt_of_succ_lt_succ hi)]
      simp [joined]
      omega

theorem memcpyAt_eq (done bytes : List UInt8) {k : ℕ} (hk : bytes.length ≤ k) :
    memcpyAt (done ++ replicate k 0) done.length bytes = some (done ++ bytes ++ replicate (k - bytes.length) 0) := by
  simp [memcpyAt, hk, drop_append]

theorem addItem_eq (done item : List UInt8) {k : ℕ} (pre post : List ℤ) (hk : item.length + 1 ≤ k) :
    StandardPath.addItem ⟨done ++ replicate k 0, done.length, pre ++ post, pre.length⟩ item =
      if 0 < post.length then some ⟨done ++ (item ++ [slash]) ++ replicate (k - (item.length + 1)) 0,
        (done ++ (item ++ [slash])).length, (pre ++ [(done.length : ℤ)]) ++ post.tail,
          (pre ++ [(done.length : ℤ)]).length⟩ else none := by
  have hslash := memcpyAt_eq (done ++ item) [slash] (k := k - item.length) (by simp; omega)
  rw [length_append] at hslash
  unfold StandardPath.addItem
  dsimp only
  rw [memcpyAt_eq done item (by omega)]
  cases post with
  | nil => simp [storeAt]
  | cons p post =>
    simp only [append_assoc] at hslash
    simp [storeAt, hslash, Nat.sub_sub, Nat.add_assoc]

theorem fold_eq (ts : List (List UInt8)) (done : List UInt8) {k : ℕ} (pre post : List ℤ) (hk : (joined ts).length ≤ k) :
    ts.foldlM StandardPath.addItem ⟨done ++ replicate k 0, done.length, pre ++ post, pre.length⟩ =
      if ts.length ≤ post.length then some ⟨done ++ joined ts ++ replicate (k - (joined ts).length) 0,
        (done ++ joined ts).length,
        pre ++ starts done.length ts ++ post.drop ts.length, pre.length + ts.length⟩ else none := by
  induction ts generalizing done k pre post with
  | nil => simp [joined, starts]
  | cons t ts ih =>
    have hjoined : joined (t :: ts) = t ++ [slash] ++ joined ts := rfl
    have hlen : (joined (t :: ts)).length = t.length + 1 + (joined ts).length := by simp [hjoined]; omega
    rw [foldlM_cons, addItem_eq done t pre post (by omega)]
    cases post with
    | nil => simp
    | cons p post =>
      have hrest := ih (done ++ (t ++ [slash])) (k := k - (t.length + 1)) (pre ++ [(done.length : ℤ)]) post (by omega)
      rw [if_pos (by simp : 0 < (p :: post).length)]
      refine hrest.trans ?_
      simp [hjoined, starts, Nat.sub_sub, Nat.add_assoc, Nat.add_comm 1]

theorem takeWhile_zero (k : ℕ) : cString (replicate k 0) = [] := by cases k <;> rfl

/-- The array that is closed holds the components joined. -/
theorem close_eq (hzero : ∀ t ∈ ts, 0 ∉ t) (k : ℕ) (arr : List ℤ) (d : ℕ) :
    ∃ buf, StandardPath.close ⟨joined ts ++ replicate k 0, (joined ts).length, arr, d⟩ =
      ⟨buf, (joined ts).length, arr, d⟩ ∧
      buf.length = (joined ts).length + k ∧ cString buf = [slash].intercalate ts := by
  by_cases h : ts = []
  · subst h
    exact ⟨replicate k 0, rfl, by simp [joined], takeWhile_zero k⟩
  have hnot : ∀ c ∈ joined ts, c ≠ 0 := by
    intro c hc
    obtain ⟨t, ht, hc⟩ := mem_flatMap.1 hc
    rcases mem_append.1 hc with hc | hc
    · exact fun h0 => hzero t ht (h0 ▸ hc)
    · rw [mem_singleton.1 hc]
      decide
  rw [joined_eq h] at hnot ⊢
  generalize [slash].intercalate ts = w at hnot ⊢
  refine ⟨w ++ 0 :: replicate k 0, ?_, by simp; omega, ?_⟩
  · simp [StandardPath.close]
  · rw [cString, takeWhile_append_of_pos fun c hc => by simpa using hnot c (by simp [hc])]
    simp

theorem standardized_eq {path : List UInt8} (hzero : 0 ∉ path) {arr : List ℤ} (harr : arr ≠ []) :
    ((filepath2Tokens path).length ≤ arr.length → ∃ buf rest, filepath2TokensStandardized path arr =
      some ⟨buf, (joined (filepath2Tokens path)).length, starts 0 (filepath2Tokens path) ++ rest,
        (filepath2Tokens path).length⟩ ∧
      buf.length = path.length + 1 ∧ cString buf = [slash].intercalate (filepath2Tokens path)) ∧
    (arr.length < (filepath2Tokens path).length → filepath2TokensStandardized path arr = none) := by
  obtain ⟨htokens, hlen⟩ := tokens_spec path
  have hfold := fold_eq (filepath2Tokens path) [] [] (arr.set 0 (-1)) hlen
  simp only [nil_append, length_nil, length_set, Nat.zero_add] at hfold
  unfold filepath2TokensStandardized
  rw [storeAt, if_pos (length_pos_iff.2 harr)]
  simp only [Option.bind_eq_bind, Option.bind_some, hfold]
  generalize filepath2Tokens path = ts at htokens hlen ⊢
  constructor
  · intro h
    rw [if_pos h, Option.bind_some]
    generalize (arr.set 0 (-1)).drop ts.length = rest
    obtain ⟨buf, hclose, hbuf, hstr⟩ := close_eq (fun t ht hc => hzero ((htokens t ht).2.2 hc))
      (path.length + 1 - (joined ts).length) (starts 0 ts ++ rest) ts.length
    exact ⟨buf, rest, congrArg some hclose, by omega, hstr⟩
  · intro h
    rw [if_neg (by omega)]
    rfl

/-- What `absl::StrSplit` with a delimiter of one byte is documented to return: at least one part,
the parts are what stands between the delimiters, and none has a delimiter in it. -/
structure SplitsAt (delim : UInt8) (split : List UInt8 → List (List UInt8)) : Prop where
  ne_nil : ∀ s, split s ≠ []
  intercalate : ∀ s, [delim].intercalate (split s) = s
  notMem : ∀ s, ∀ t ∈ split s, delim ∉ t

/-- The parts are determined by that. -/
theorem SplitsAt.eq_splitOn (h : SplitsAt slash split) (s : List UInt8) :
    split s = s.splitOn slash := by
  have hjoin := splitOn_intercalate slash (h.notMem s) (h.ne_nil s)
  rw [h.intercalate s] at hjoin
  exact hjoin.symm

theorem splitsAt_splitOn (delim : UInt8) : SplitsAt delim (splitOn delim) where
  ne_nil := splitOn_ne_nil delim
  intercalate s := intercalate_splitOn delim
  notMem s := by
    induction s with
    | nil => simp
    | cons c s ih =>
      rw [splitOn_cons_eq_if_modifyHead]
      split
      · simpa using ih
      · next hc =>
        cases hs : splitOn delim s with
        | nil => exact absurd hs (splitOn_ne_nil delim s)
        | cons t ts =>
          rw [hs] at ih
          intro u hu
          rcases mem_cons.1 hu with rfl | hu
          · intro hmem
            rcases mem_cons.1 hmem with h | h
            · exact hc (by simp [h])
            · exact ih t (mem_cons_self ..) h
          · exact ih u (mem_cons_of_mem _ hu)

theorem SplitsAt.joined (hsplit : SplitsAt slash split) (h : ∀ t ∈ ts, slash ∉ t) :
    split ([slash].intercalate ts) = if ts.length = 0 then [[]] else ts := by
  rw [hsplit.eq_splitOn]
  cases ts with
  | nil => rfl
  | cons t ts => exact splitOn_intercalate _ h (by simp)

/-- The splitters give the same components, the standardized path has them joined, and its parts
are the components, but for the root path. An array that has a slot for each component is long
enough, and no other. -/
theorem path_splitters_agree (hsplit : SplitsAt slash split) (path : List UInt8)
    (hzero : 0 ∉ path) (arr : List ℤ) (harr : arr ≠ []) :
    filepath2TokensSlow path = filepath2Tokens path ∧
    (∀ t ∈ filepath2Tokens path, t ≠ [] ∧ slash ∉ t) ∧
    ((filepath2TokensStandardized path arr).isSome ↔
      (filepath2Tokens path).length ≤ arr.length) ∧
    ∀ r, filepath2TokensStandardized path arr = some r →
      r.depth = (filepath2Tokens path).length ∧
      cString r.standardPath = [slash].intercalate (filepath2Tokens path) ∧
      r.standardPath.length = path.length + 1 ∧
      (∀ i < r.depth,
        r.pathDelimIdxArr[i]? = some ((joined ((filepath2Tokens path).take i)).length : ℤ)) ∧
      pathTokens split r = (if r.depth = 0 then [[]] else filepath2Tokens path) ∧
      ((pathTokens split r).length = r.depth ↔ r.depth ≠ 0) := by
  have htokens := (tokens_spec path).1
  obtain ⟨hfits, hover⟩ := standardized_eq hzero harr
  refine ⟨slow_eq path, fun t ht => ⟨(htokens t ht).1, (htokens t ht).2.1⟩, ?_, ?_⟩
  · rcases Nat.lt_or_ge arr.length (filepath2Tokens path).length with h | h
    · simp [hover h, h]
    · obtain ⟨buf, rest, heq, -⟩ := hfits h
      simp [heq, h]
  · intro r hr
    rcases Nat.lt_or_ge arr.length (filepath2Tokens path).length with h | h
    · rw [hover h] at hr
      cases hr
    obtain ⟨buf, rest, heq, hbuf, hstr⟩ := hfits h
    rw [heq] at hr
    cases hr
    have hparts := hsplit.joined fun t ht => (htokens t ht).2.1
    refine ⟨rfl, hstr, hbuf, fun i hi => ?_, by rw [pathTokens, hstr, hparts], ?_⟩
    · have := starts_getElem (filepath2Tokens path) 0 i hi
      rw [Nat.zero_add] at this
      rw [List.getElem?_append_left (List.getElem?_eq_some_iff.1 this).1, this]
    · rw [pathTokens, hstr, hparts]
      split <;> simp [*]

/-- The path of a file in a directory, with slashes that are bypassed. -/
theorem path_splitters_agree_two : ∃ r,
    filepath2TokensStandardized [47, 47, 97, 47, 47, 98, 99, 47] (replicate kMaxPathDepth 0) =
      some r ∧
    r.depth = 2 ∧ cString r.standardPath = [97, 47, 98, 99] ∧
    pathTokens (splitOn slash) r = [[97], [98, 99]] := by
  have h := path_splitters_agree (splitsAt_splitOn slash) [47, 47, 97, 47, 47, 98, 99, 47]
    (by decide) (replicate kMaxPathDepth 0) (by decide)
  obtain ⟨r, hr⟩ := Option.isSome_iff_exists.1 (h.2.2.1.2 (by decide +kernel))
  obtain ⟨hdepth, hstr, -, -, hparts, -⟩ := h.2.2.2 r hr
  have htwo : r.depth = 2 := hdepth.trans (by decide +kernel)
  refine ⟨r, hr, htwo, hstr.trans (by decide +kernel), ?_⟩
  rw [hparts, htwo]
  decide +kernel

/-- A path of 33 components is stored past the array, and the root path has no component but one
part. -/
theorem path_splitters_differ : ∃ path root : List UInt8,
    0 ∉ path ∧ path.length ≤ 512 ∧
    filepath2TokensStandardized path (replicate kMaxPathDepth 0) = none ∧
    ∃ r, filepath2TokensStandardized root (replicate kMaxPathDepth 0) = some r ∧ r.depth = 0 ∧
      ∀ split, SplitsAt slash split → (pathTokens split r).length = 1 := by
  refine ⟨(replicate 33 [97, 47]).flatten, [47], by decide +kernel, by decide +kernel, ?_, _, rfl,
    rfl, fun split hsplit => ?_⟩
  · exact (standardized_eq (by decide +kernel) (by decide)).2 (by decide +kernel)
  · rw [pathTokens, hsplit.eq_splitOn]
    decide +kernel

end Ufs.Proof.Paths
