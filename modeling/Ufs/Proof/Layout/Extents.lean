import Ufs.Proof.Layout.Units

/-!
# The extents of an inode are filled in order

`allocateDataBlocks` adds blocks to the extents of an inode as it goes, and assigns `i_block_count`
when it is done or suspended, but not when it fails. What the searches for new units give depends on
the bitmaps and the cursors alone: `searches` makes them for the extents that the request comes to
(`needed`). `Keeps` says that they do not run out behind the first block, which is the condition of
`allocateDataBlocks_wellFormed_iff`.
-/

namespace Ufs.Proof.Layout

open Impl
open Layout (standard)
open Function (update_of_ne update_self)
open List

variable {c n fuel : ℕ} {d d' : InodeBlocks} {k : Fin nextentArr} {ret : ℤ}

/-! ## Where the extents start -/

/-- The first block of a file that is in extent `k`: the units of the extents before it. -/
def extentStart (k : Fin nextentArr) : ℕ := ((List.range k).map extentArrIdx2BlockAllocUnit).sum

/-- The blocks of a file all of whose extents are full. -/
def allBlocks : ℕ := extentStart (Fin.last 6) + extentArrIdx2BlockAllocUnit 6

theorem allBlocks_eq : allBlocks = 1542145 := by decide +kernel

theorem extentStart_add_le : ∀ j k : Fin nextentArr, j < k →
    extentStart j + extentArrIdx2BlockAllocUnit j ≤ extentStart k := by decide +kernel

theorem extentStart_add_le_all : ∀ k : Fin nextentArr, extentStart k + extentArrIdx2BlockAllocUnit k ≤
    allBlocks := by decide +kernel

theorem findExtentArrIdx_eq (n : ℕ) : findExtentArrIdx n (List.finRange nextentArr) 0 =
    if n < 1 then some 0 else if n < 2049 then some 1 else if n < 34817 then some 2 else if n < 100353 then some 3
    else if n < 231425 then some 4 else if n < 493569 then some 5 else if n < 1542145 then some 6 else none := rfl

theorem extentStart_eq (k : Fin nextentArr) : extentStart k = ![0, 1, 2049, 34817, 100353, 231425, 493569] k := by
  revert k
  decide +kernel

theorem unit_eq (k : Fin nextentArr) : extentArrIdx2BlockAllocUnit k =
    ![1, 2048, 32768, 65536, 131072, 262144, 1048576] k := by
  revert k
  decide +kernel

theorem getCurrentExtentArrIdx_eq (h : c ≤ allBlocks) :
    getCurrentExtentArrIdx (UInt32.ofNat c) = findExtentArrIdx c (List.finRange nextentArr) 0 := by
  unfold getCurrentExtentArrIdx
  rw [UInt32.toNat_ofNat', Nat.mod_eq_of_lt]
  rw [allBlocks_eq] at h
  omega

theorem getCurrentExtentArrIdx_some (h : c < allBlocks) : ∃ k, getCurrentExtentArrIdx (UInt32.ofNat c) = some k ∧
    extentStart k ≤ c ∧
      c < extentStart k + extentArrIdx2BlockAllocUnit k := by
  rw [getCurrentExtentArrIdx_eq h.le, findExtentArrIdx_eq]
  rw [allBlocks_eq] at h
  split_ifs
  all_goals
    refine ⟨_, rfl, ?_⟩
    rw [extentStart_eq, unit_eq]
    simp
    omega

theorem getCurrentExtentArrIdx_none : getCurrentExtentArrIdx (UInt32.ofNat allBlocks) = none := by
  rw [getCurrentExtentArrIdx_eq le_rfl, allBlocks_eq]
  rfl

theorem extent_cases : ∀ k : Fin nextentArr, k = 0 ∨ k = 1 ∨ k = 2 ∨ k = 3 ∨ k = 4 ∨ k = 5 ∨ k = 6 := by decide

/-! ## Well formed inodes -/

/-- The extents are filled in order, each from where the one before ends, and the count is their
sum. -/
structure WellFormed (d : InodeBlocks) : Prop where
  count : d.iBlockCount = ∑ k, (d.extArray k).numBlocks
  le : ∀ k, (d.extArray k).numBlocks ≤ extentArrIdx2BlockAllocUnit k
  inOrder : ∀ j k, j < k → (d.extArray k).numBlocks ≠ 0 → (d.extArray j).numBlocks = extentArrIdx2BlockAllocUnit j
  offset : ∀ k, (d.extArray k).numBlocks ≠ 0 → (d.extArray k).iBlockOffset = extentStart k

/-- The first `c` blocks of a file are there. -/
structure Filled (x : Fin nextentArr → BlockExtent) (c : ℕ) : Prop where
  le : c ≤ allBlocks
  numBlocks : ∀ k, (x k).numBlocks = min (extentArrIdx2BlockAllocUnit k) (c - extentStart k)
  offset : ∀ k, (x k).numBlocks ≠ 0 → (x k).iBlockOffset = extentStart k

variable {x : Fin nextentArr → BlockExtent}

theorem Filled.sum (h : Filled x c) : ∑ k, (x k).numBlocks = c := by
  have hle := h.le
  rw [allBlocks_eq] at hle
  simp only [h.numBlocks, extentStart_eq, unit_eq]
  rw [Fin.sum_univ_seven]
  simp
  omega

theorem WellFormed.filled (h : WellFormed d) : Filled d.extArray d.iBlockCount := by
  have hsum := h.count
  rw [Fin.sum_univ_seven] at hsum
  have hle := h.le
  have hin := h.inOrder
  simp only [unit_eq] at hle hin
  have h0 := hle 0; have h1 := hle 1; have h2 := hle 2; have h3 := hle 3; have h4 := hle 4; have h5 := hle 5
  have h6 := hle 6
  have i1 := hin 0 1 (by decide); have i2 := hin 1 2 (by decide); have i3 := hin 2 3 (by decide)
  have i4 := hin 3 4 (by decide); have i5 := hin 4 5 (by decide); have i6 := hin 5 6 (by decide)
  simp at h0 h1 h2 h3 h4 h5 h6 i1 i2 i3 i4 i5 i6
  refine ⟨?_, ?_, h.offset⟩
  · rw [allBlocks_eq]
    omega
  · intro k
    rw [unit_eq, extentStart_eq]
    rcases extent_cases k with rfl | rfl | rfl | rfl | rfl | rfl | rfl <;> simp <;> omega

theorem Filled.wellFormed (h : Filled d.extArray d.iBlockCount) : WellFormed d := by
  refine ⟨h.sum.symm, fun k => ?_, fun j k hlt hne => ?_, h.offset⟩
  · rw [h.numBlocks]
    exact min_le_left ..
  · have hstart := extentStart_add_le j k hlt
    rw [h.numBlocks] at hne ⊢
    omega

variable {m : ℕ}

theorem Filled.setExtent {x : BlockExtent} (h : Filled d.extArray c) (hlo : extentStart k ≤ c)
    (hhi : c + m ≤ extentStart k + extentArrIdx2BlockAllocUnit k) (hnum : x.numBlocks = c + m - extentStart k)
    (hoff : x.iBlockOffset = extentStart k) : Filled (d.setExtent k x).extArray (c + m) := by
  have hall := extentStart_add_le_all k
  unfold InodeBlocks.setExtent
  refine ⟨by omega, fun j => ?_, fun j hj => ?_⟩
  · dsimp only
    have hj := h.numBlocks j
    rcases lt_trichotomy j k with hjk | rfl | hjk
    · have hstart := extentStart_add_le j k hjk
      rw [update_of_ne hjk.ne]
      omega
    · rw [update_self]
      omega
    · have hstart := extentStart_add_le k j hjk
      rw [update_of_ne hjk.ne']
      omega
  · dsimp only at hj ⊢
    rcases eq_or_ne j k with rfl | hne
    · rw [update_self, hoff]
    · rw [update_of_ne hne] at hj ⊢
      exact h.offset j hj

theorem Filled.newExtent {x : BlockExtent} (h : Filled d.extArray c)
    (hk : c = extentStart k) (hnum : x.numBlocks = 1) (hoff : x.iBlockOffset = c) :
      Filled (d.setExtent k x).extArray (c + 1) := by
  have hpos := unit_pos k
  exact h.setExtent hk.ge (by omega) (by omega) (hoff.trans hk)

theorem Filled.extend (h : Filled d.extArray c) (hlt : extentStart k < c)
    (hle : c + m ≤ extentStart k + extentArrIdx2BlockAllocUnit k) :
    Filled (d.setExtent k { d.extArray k with numBlocks := (d.extArray k).numBlocks + m }).extArray (c + m) := by
  have hpos := unit_pos k
  have hk := h.numBlocks k
  exact h.setExtent hlt.le hle (by dsimp only; omega) (h.offset k (by omega))

/-! ## The searches of a call -/

/-- The extents whose first block is among `n` blocks after the first `c`. -/
def needed (c n : ℕ) : List (Fin nextentArr) :=
  (List.finRange nextentArr).filter fun k => c ≤ extentStart k ∧ extentStart k < c + n

theorem filter_eq_cons {b : ℕ} (hb : extentStart k < b) : ∀ (l : List (Fin nextentArr)), l.Pairwise (· < ·) → k ∈ l →
      l.filter (fun j => extentStart k ≤ extentStart j ∧ extentStart j < b) =
        k :: l.filter fun j => extentStart k + 1 ≤ extentStart j ∧ extentStart j < b
  | [], _, hk => absurd hk not_mem_nil
  | j :: l, hl, hk => by
    obtain ⟨hj, hl⟩ := pairwise_cons.1 hl
    rcases mem_cons.1 hk with rfl | hk
    · have hrest : l.filter (fun j => extentStart k ≤ extentStart j ∧ extentStart j < b) =
          l.filter fun j => extentStart k + 1 ≤ extentStart j ∧ extentStart j < b := by
        refine filter_congr fun i hi => ?_
        have := extentStart_add_le k i (hj i hi)
        have := unit_pos k
        simp only [decide_eq_decide]
        omega
      rw [filter_cons_of_pos (by simpa using hb), hrest, filter_cons_of_neg (by simp)]
    · have hlt : extentStart j < extentStart k := by
        have := extentStart_add_le j k (hj k hk)
        have := unit_pos j
        omega
      rw [filter_cons_of_neg (by simpa using fun h => absurd h (by omega)),
        filter_cons_of_neg (by simpa using fun h => absurd h (by omega))]
      exact filter_eq_cons hb l hl hk

theorem needed_newExtent (hn : 0 < n) : needed (extentStart k) n = k :: needed (extentStart k + 1) (n - 1) := by
  have hsum : extentStart k + 1 + (n - 1) = extentStart k + n := by omega
  unfold needed
  rw [hsum]
  exact filter_eq_cons (by omega) _ (by decide) (mem_finRange k)

theorem needed_extend (hlt : extentStart k < c) (hm : m ≤ n)
    (hle : c + m ≤ extentStart k + extentArrIdx2BlockAllocUnit k) : needed c n = needed (c + m) (n - m) := by
  refine filter_congr fun j _ => ?_
  simp only [decide_eq_decide]
  rcases le_or_gt j k with hjk | hjk
  · have : extentStart j ≤ extentStart k := by
      rcases hjk.eq_or_lt with rfl | hjk
      · exact le_rfl
      · exact (Nat.le_add_right ..).trans (extentStart_add_le j k hjk)
    omega
  · have := extentStart_add_le k j hjk
    omega

theorem needed_zero (c : ℕ) : needed c 0 = [] := by
  refine filter_eq_nil_iff.2 fun k _ => ?_
  simp only [decide_eq_true_eq]
  omega

theorem needed_all (n : ℕ) : needed allBlocks n = [] := by
  refine filter_eq_nil_iff.2 fun k _ => ?_
  have := extentStart_add_le_all k
  have := unit_pos k
  simp only [decide_eq_true_eq]
  omega

/-- How the searches of a call end: all of them have found a unit, one has to read a bitmap block,
or there is no unit for an extent. -/
inductive SearchEnd where
  | found
  | reading
  | full (k : Fin nextentArr)
deriving DecidableEq

variable (L : Layout) (idx : ℕ)

/-- The searches for units for some extents, one after the other. -/
def searches : List (Fin nextentArr) → AllocState → SearchEnd
  | [], _ => .found
  | k :: ks, st =>
    match L.allocUnit idx k st with
    | (.allocated _ _, st) => searches ks st
    | (.reading, _) => .reading
    | (.full, _) => .full k

/-- A call for `n` blocks after the first `c` does not run out of units, or of extents, after it has added a block. -/
def Keeps (c n : ℕ) (st : AllocState) : Prop :=
  match searches L idx (needed c n) st with
  | .found => c + n ≤ allBlocks ∨ c = allBlocks
  | .reading => True
  | .full k => extentStart k = c

instance (c n : ℕ) (st : AllocState) : Decidable (Keeps L idx c n st) := by
  unfold Keeps
  split <;> infer_instance

variable {L idx}

/-- What the loop leaves, by how its searches end, when the first `c` blocks are there and `n` are to be added. -/
def LoopLeaves (c n : ℕ) (d : InodeBlocks) (r : SearchEnd) (ret : ℤ) (d' : InodeBlocks) : Prop :=
  match r with
  | .found =>
    (c + n ≤ allBlocks ∧ ret = ((c + n - d.iBlockCount : ℕ) : ℤ) ∧ d'.iBlockCount = c + n ∧
      Filled d'.extArray (c + n)) ∨
    (allBlocks < c + n ∧ ret = -1 ∧ d'.iBlockCount = d.iBlockCount ∧ Filled d'.extArray allBlocks)
  | .reading => ret = 0 ∧ c ≤ d'.iBlockCount ∧ d'.iBlockCount < c + n ∧ Filled d'.extArray d'.iBlockCount
  | .full k => ret = -1 ∧ d'.iBlockCount = d.iBlockCount ∧ Filled d'.extArray (extentStart k)

variable {r : SearchEnd}

theorem LoopLeaves.after {d₁ : InodeBlocks} (hm : m ≤ n)
    (hcount : d₁.iBlockCount = d.iBlockCount) (h : LoopLeaves (c + m) (n - m) d₁ r ret d') :
      LoopLeaves c n d r ret d' := by
  have hsum : c + m + (n - m) = c + n := by omega
  cases r with
  | found =>
    unfold LoopLeaves at h ⊢
    dsimp only at h ⊢
    rw [hsum, hcount] at h
    exact h
  | reading =>
    obtain ⟨hret, hle, hlt, hf⟩ := h
    exact ⟨hret, by omega, by omega, hf⟩
  | full k =>
    obtain ⟨hret, hc, hf⟩ := h
    exact ⟨hret, hc.trans hcount, hf⟩

/-- By induction on the blocks that are left: each turn adds at least one, and the searches that are
still to be made are those of the rest. -/
theorem allocLoop_spec (L : Layout) (idx : ℕ) {numBlocks : ℕ} (hf : Filled d.extArray c) (hn : n ≤ numBlocks)
    (hfuel : numBlocks < n + fuel) (st : AllocState) : ∃ ret d' st',
      L.allocLoop idx numBlocks fuel n c d st = some (ret, d', st') ∧
      LoopLeaves c (numBlocks - n) d (searches L idx (needed c (numBlocks - n)) st) ret d' := by
  induction fuel generalizing n c d st with
  | zero => omega
  | succ fuel ih =>
    unfold Layout.allocLoop
    split
    · next hle =>
      have hzero : numBlocks - n = 0 := by omega
      rw [hzero, needed_zero]
      exact ⟨_, _, _, rfl, .inl ⟨hf.le, rfl, rfl, hf⟩⟩
    · next hlt =>
      rcases hf.le.eq_or_lt with rfl | hc
      · rw [getCurrentExtentArrIdx_none, needed_all]
        exact ⟨_, _, _, rfl, .inr ⟨by omega, rfl, rfl, hf⟩⟩
      · obtain ⟨k, hk, hstart, hend⟩ := getCurrentExtentArrIdx_some hc
        have hnum := hf.numBlocks k
        rw [hk]
        dsimp only
        split
        · next hempty =>
          have hcs : c = extentStart k := by omega
          rw [hcs, needed_newExtent (by omega)]
          unfold searches
          cases hsearch : L.allocUnit idx k st with
          | mk res st1 =>
            cases res with
            | allocated i bit =>
              dsimp only
              have hnew := hf.newExtent (x := ⟨L.blockNo idx k i bit, 1, c⟩) hcs rfl rfl
              obtain ⟨ret, d', st', hloop, hleaves⟩ := ih hnew (n := n + 1) (by omega) (by omega) st1
              rw [← hcs]
              have hone : numBlocks - (n + 1) = numBlocks - n - 1 := by omega
              rw [hone] at hleaves
              exact ⟨ret, d', st', hloop, hleaves.after (by omega) rfl⟩
            | reading =>
              refine ⟨_, _, _, rfl, rfl, le_rfl, ?_, hcs ▸ hf⟩
              dsimp only
              omega
            | full => exact ⟨_, _, _, rfl, rfl, rfl, hcs ▸ hf⟩
        · next hsome =>
          have hcs : extentStart k < c := by omega
          have hadd : c + min (numBlocks - n) (extentArrIdx2BlockAllocUnit k - (d.extArray k).numBlocks) ≤
              extentStart k + extentArrIdx2BlockAllocUnit k := by omega
          obtain ⟨ret, d', st', hloop, hleaves⟩ := ih (hf.extend hcs hadd)
            (n := n + min (numBlocks - n) (extentArrIdx2BlockAllocUnit k - (d.extArray k).numBlocks)) (by omega)
              (by omega) st
          rw [needed_extend hcs (min_le_left ..) hadd]
          rw [Nat.sub_add_eq] at hleaves
          exact ⟨ret, d', st', hloop, hleaves.after (min_le_left ..) rfl⟩

theorem allocLoop_stuck {numBlocks : ℕ} (hn : n < numBlocks)
    (hk : getCurrentExtentArrIdx (UInt32.ofNat c) = some k) (fuel : ℕ)
    (hfull : (d.extArray k).numBlocks = extentArrIdx2BlockAllocUnit k) (st : AllocState) :
      L.allocLoop idx numBlocks fuel n c d st = none := by
  induction fuel generalizing d with
  | zero => rfl
  | succ fuel ih =>
    have hpos := unit_pos k
    have hzero : min (numBlocks - n) (extentArrIdx2BlockAllocUnit k - (d.extArray k).numBlocks) = 0 := by omega
    unfold Layout.allocLoop
    rw [if_neg (Nat.not_le.2 hn), hk]
    dsimp only
    rw [if_neg (by omega), hzero]
    refine ih ?_
    unfold InodeBlocks.setExtent
    dsimp only
    rw [update_self]
    exact hfull

/-! ## Calls -/

/-- A call ends, leaves a well formed inode, and has added the blocks it says: all of them, or none when it fails. -/
def CallGood (L : Layout) (idx : ℕ) (numBlocks : UInt32) (d : InodeBlocks) (st : AllocState) : Prop :=
  ∃ fuel ret d' st', L.allocateDataBlocks idx fuel numBlocks d st = some (ret, d', st') ∧ WellFormed d' ∧
    ((ret = numBlocks.toNat ∧ d'.iBlockCount = d.iBlockCount + numBlocks.toNat) ∨
      (ret = 0 ∧ d.iBlockCount ≤ d'.iBlockCount ∧ d'.iBlockCount < d.iBlockCount + numBlocks.toNat) ∨
      (ret = -1 ∧ d'.iBlockCount = d.iBlockCount))

theorem allocLoop_mono {numBlocks fuel' : ℕ} {st : AllocState} (hle : fuel ≤ fuel')
    {res : ℤ × InodeBlocks × AllocState} (h : L.allocLoop idx numBlocks fuel n c d st = some res) :
    L.allocLoop idx numBlocks fuel' n c d st = some res := by
  induction fuel generalizing fuel' n c d st with
  | zero => cases h
  | succ fuel ih =>
    obtain ⟨fuel', rfl⟩ : ∃ m, fuel' = m + 1 := ⟨fuel' - 1, by omega⟩
    unfold Layout.allocLoop at h ⊢
    split at h
    · next hn =>
      rw [if_pos hn]
      exact h
    · next hn =>
      rw [if_neg hn]
      cases hk : getCurrentExtentArrIdx (UInt32.ofNat c) with
      | none =>
        rw [hk] at h
        exact h
      | some k =>
        rw [hk] at h
        dsimp only at h ⊢
        split at h
        · next hempty =>
          rw [if_pos hempty]
          cases hsearch : L.allocUnit idx k st with
          | mk res1 st1 =>
            rw [hsearch] at h
            cases res1 with
            | allocated i bit => exact ih (by omega) h
            | reading => exact h
            | full => exact h
        · next hsome =>
          rw [if_neg hsome]
          exact ih (by omega) h

variable {numBlocks : UInt32} {st st' : AllocState}

theorem allocateDataBlocks_leaves (hd : WellFormed d) (h : L.allocateDataBlocks idx fuel numBlocks d st = some
    (ret, d', st')) :
    LoopLeaves d.iBlockCount numBlocks.toNat d (searches L idx (needed d.iBlockCount numBlocks.toNat) st) ret d' := by
  obtain ⟨ret1, d1, st1, hloop, hleaves⟩ := allocLoop_spec L idx hd.filled (Nat.zero_le numBlocks.toNat)
    (show numBlocks.toNat < 0 + (numBlocks.toNat + 1) by omega) st
  have h1 := allocLoop_mono (le_max_left fuel (numBlocks.toNat + 1)) h
  have h2 := allocLoop_mono (le_max_right fuel (numBlocks.toNat + 1)) hloop
  cases h1.symm.trans h2
  exact hleaves

theorem Filled.eq {c' : ℕ} (h : Filled x c) (h' : Filled x c') : c = c' :=
  h.sum.symm.trans h'.sum

theorem wellFormed_of_nonneg
    (hd : WellFormed d) (h : L.allocateDataBlocks idx fuel numBlocks d st = some (ret, d', st'))
      (hret : ret ≠ -1) : WellFormed d' := by
  have hleaves := allocateDataBlocks_leaves hd h
  cases hs : searches L idx (needed d.iBlockCount numBlocks.toNat) st with
  | found =>
    rw [hs] at hleaves
    rcases hleaves with ⟨-, -, hcount, hf⟩ | ⟨-, hno, -⟩
    · exact (hcount ▸ hf : Filled d'.extArray d'.iBlockCount).wellFormed
    · exact absurd hno hret
  | reading =>
    rw [hs] at hleaves
    exact hleaves.2.2.2.wellFormed
  | full k =>
    rw [hs] at hleaves
    exact absurd hleaves.1 hret

theorem callGood_iff (hd : WellFormed d) (st : AllocState) :
    CallGood L idx numBlocks d st ↔ Keeps L idx d.iBlockCount numBlocks.toNat st := by
  have hle := hd.filled.le
  constructor
  · rintro ⟨fuel, ret, d', st', hcall, hwf, hret⟩
    have hleaves := allocateDataBlocks_leaves hd hcall
    unfold Keeps
    cases hs : searches L idx (needed d.iBlockCount numBlocks.toNat) st with
    | found =>
      rw [hs] at hleaves
      rcases hleaves with ⟨hfits, -⟩ | ⟨-, -, hcount, hf⟩
      · exact .inl hfits
      · exact .inr (hcount ▸ hwf.filled.eq hf)
    | reading => trivial
    | full k =>
      rw [hs] at hleaves
      exact (hleaves.2.1 ▸ hwf.filled.eq hleaves.2.2).symm
  · intro hkeeps
    obtain ⟨ret, d', st', hloop, hleaves⟩ := allocLoop_spec L idx hd.filled (Nat.zero_le numBlocks.toNat)
      (show numBlocks.toNat < 0 + (numBlocks.toNat + 1) by omega) st
    refine ⟨numBlocks.toNat + 1, ret, d', st', hloop, ?_⟩
    rw [Nat.sub_zero] at hleaves
    unfold Keeps at hkeeps
    cases hs : searches L idx (needed d.iBlockCount numBlocks.toNat) st with
    | found =>
      rw [hs] at hleaves hkeeps
      rcases hleaves with ⟨-, hret, hcount, hf⟩ | ⟨hover, hret, hcount, hf⟩
      · refine ⟨(hcount ▸ hf : Filled d'.extArray d'.iBlockCount).wellFormed, .inl ⟨?_, hcount⟩⟩
        rw [hret, Nat.add_sub_cancel_left]
      · have hall : d.iBlockCount = allBlocks := hkeeps.resolve_left (by omega)
        exact ⟨(hcount.trans hall ▸ hf : Filled d'.extArray d'.iBlockCount).wellFormed, .inr (.inr ⟨hret, hcount⟩)⟩
    | reading =>
      rw [hs] at hleaves
      obtain ⟨hret, hge, hlt, hf⟩ := hleaves
      exact ⟨hf.wellFormed, .inr (.inl ⟨hret, hge, hlt⟩)⟩
    | full k =>
      rw [hs] at hleaves hkeeps
      obtain ⟨hret, hcount, hf⟩ := hleaves
      have hstart : extentStart k = d'.iBlockCount := hkeeps.trans hcount.symm
      exact ⟨(hstart ▸ hf : Filled d'.extArray d'.iBlockCount).wellFormed, .inr (.inr ⟨hret, hcount⟩)⟩

/-- Calls one after the other, each in whatever state the bitmaps and the cursors are by then, and
each such that it does not run out after it has added a block. -/
inductive CallsTo (L : Layout) (idx : ℕ) (d : InodeBlocks) : InodeBlocks → Prop where
  | refl : CallsTo L idx d d
  | step {d₁ d₂ : InodeBlocks} {numBlocks : UInt32} {st st' : AllocState} {fuel : ℕ} {ret : ℤ} : CallsTo L idx d d₁ →
      Keeps L idx d₁.iBlockCount numBlocks.toNat st →
      L.allocateDataBlocks idx fuel numBlocks d₁ st = some (ret, d₂, st') → CallsTo L idx d d₂

theorem CallsTo.wellFormed (h : CallsTo L idx d d') (hd : WellFormed d) : WellFormed d' := by
  induction h with
  | refl => exact hd
  | step _ hkeeps hcall ih =>
    obtain ⟨fuel1, ret1, d1, st1, hcall1, hwf, -⟩ := (callGood_iff ih _).2 hkeeps
    cases (allocLoop_mono (le_max_left _ _) hcall).symm.trans (allocLoop_mono (le_max_right _ _) hcall1)
    exact hwf

/-- A request for blocks up to `target`: it is made for what is missing, and again after each call
that was suspended. -/
inductive Requested (L : Layout) (idx : ℕ) (target : ℕ) : InodeBlocks → ℤ → InodeBlocks → Prop where
  | ends {d d' : InodeBlocks} {numBlocks : UInt32} {st st' : AllocState} {fuel : ℕ} {ret : ℤ} :
      numBlocks.toNat = target - d.iBlockCount → L.allocateDataBlocks idx fuel numBlocks d st = some (ret, d', st') →
      Requested L idx target d ret d'
  | again {d d₁ d' : InodeBlocks} {numBlocks : UInt32} {st st' : AllocState} {fuel : ℕ} {ret : ℤ} :
      numBlocks.toNat = target - d.iBlockCount → L.allocateDataBlocks idx fuel numBlocks d st = some (0, d₁, st') →
      Requested L idx target d₁ ret d' → Requested L idx target d ret d'

theorem LoopLeaves.count_of_pos (h : LoopLeaves c n d r ret d') (hret : 0 < ret) : d'.iBlockCount = c + n := by
  cases r with
  | found =>
    rcases h with ⟨-, -, hcount, -⟩ | ⟨-, hno, -⟩
    · exact hcount
    · omega
  | reading =>
    have := h.1
    omega
  | full k =>
    have := h.1
    omega

theorem LoopLeaves.count_of_zero (h : LoopLeaves d.iBlockCount n d r 0 d') (hn : 0 < n) :
    d'.iBlockCount < d.iBlockCount + n := by
  cases r with
  | found =>
    rcases h with ⟨-, hno, -⟩ | ⟨-, hno, -⟩ <;> omega
  | reading => exact h.2.2.1
  | full k =>
    have := h.1
    omega

theorem Requested.added {target : ℕ} (h : Requested L idx target d ret d')
    (hd : WellFormed d) (hlt : d.iBlockCount < target) (hret : 0 < ret) : WellFormed d' ∧ d'.iBlockCount = target := by
  induction h with
  | ends hnum hcall =>
    have hcount := (allocateDataBlocks_leaves hd hcall).count_of_pos hret
    exact ⟨wellFormed_of_nonneg hd hcall (by omega), by omega⟩
  | again hnum hcall _ ih =>
    have hcount := (allocateDataBlocks_leaves hd hcall).count_of_zero (by omega)
    exact ih (wellFormed_of_nonneg hd hcall (by decide)) (by omega) hret

/-- For every layout, worker and well formed inode: a call, in any state of the bitmaps and the
cursors, does what it should if and only if it does not run out after it has added a block; every
sequence of such calls leaves the inode well formed; and a request that succeeds, possibly after it
was suspended, has added what it asked for. -/
theorem allocateDataBlocks_wellFormed_iff (L : Layout) (idx : ℕ) {d : InodeBlocks} (hd : WellFormed d) :
    (∀ numBlocks st, CallGood L idx numBlocks d st ↔ Keeps L idx d.iBlockCount numBlocks.toNat st) ∧
      (∀ d', CallsTo L idx d d' → WellFormed d') ∧
    ∀ target ret d', d.iBlockCount < target → Requested L idx target d ret d' → 0 < ret → WellFormed d' ∧
      d'.iBlockCount = target :=
  ⟨fun _ st => callGood_iff hd st, fun _ h => h.wellFormed hd, fun _ _ _ hlt h hret => h.added hd hlt hret⟩

/-- An empty file. -/
def noBlocks : InodeBlocks := ⟨0, fun _ => ⟨0, 0, 0⟩⟩

theorem wellFormed_noBlocks : WellFormed noBlocks :=
  ⟨by decide, fun _ => Nat.zero_le _, fun _ _ _ h => absurd rfl h, fun _ h => absurd rfl h⟩

theorem allocateDataBlocks_wellFormed_new : WellFormed noBlocks ∧ Keeps standard 0 0 3000 .formatted ∧
    CallGood standard 0 3000 noBlocks .formatted := by
  have hkeeps : Keeps standard 0 0 3000 .formatted := by decide +kernel
  exact ⟨wellFormed_noBlocks, hkeeps,
    ((allocateDataBlocks_wellFormed_iff standard 0 wellFormed_noBlocks).1 3000 .formatted).mpr hkeeps⟩

/-- A file that is to have more blocks than its extents hold: the call fails, all extents are full,
and no block is counted. The next call, for one block, never ends. -/
theorem allocateDataBlocks_loops : ∃ d st, standard.allocateDataBlocks 0 20 1542146 noBlocks .formatted = some
    (-1, d, st) ∧
      d.iBlockCount = 0 ∧ (∀ k, (d.extArray k).numBlocks = extentArrIdx2BlockAllocUnit k) ∧
      ∀ fuel, standard.allocateDataBlocks 0 fuel 1 d st = none := by
  have hcall : (standard.allocateDataBlocks 0 20 1542146 noBlocks .formatted).map
      (fun r => (r.1, r.2.1.iBlockCount, decide (∀ k : Fin nextentArr,
        (r.2.1.extArray k).numBlocks = extentArrIdx2BlockAllocUnit k))) =
      some (-1, 0, true) := by decide +kernel
  obtain ⟨⟨ret, d, st⟩, hres, heq⟩ := Option.map_eq_some_iff.mp hcall
  obtain ⟨rfl, heq⟩ := Prod.mk.inj heq
  obtain ⟨hcount, hfull⟩ := Prod.mk.inj heq
  have hfull := of_decide_eq_true hfull
  refine ⟨d, st, hres, hcount, hfull, fun fuel => ?_⟩
  unfold Layout.allocateDataBlocks
  dsimp only at hcount
  rw [hcount]
  exact allocLoop_stuck (k := 0) (by decide) (by decide) fuel (hfull 0) st

end Ufs.Proof.Layout
