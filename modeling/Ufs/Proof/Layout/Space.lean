import Ufs.Impl.DataBitmaps
import Ufs.Proof.Layout.Units

/-!
# No space is lost to the allocator

`Kept` ties both bitmaps to what refers to the units. It needs two things of the steps (`Findable`):
when a unit that has bitmap blocks of its own is freed, its bit is the only one in the first word of
its dirty bitmap block; and when a unit of one block is searched and one is free, one is free that
is not behind the cursor. `space_kept`: in a run of such steps the allocator fails only when all
units of the extent are in use, and both bitmaps agree when nothing is outstanding.
-/

namespace Ufs.Proof.Layout

open Impl Layout DataBitmaps
open Function (update update_of_ne update_self)

/-! ## The units of a worker -/

variable {k : Fin nextentArr} {i : ℕ}

section Places

variable (idx : Fin nmaxFspWorker)

/-- The `i`-th bitmap block of the worker for extents of index `k`. -/
def bno (k : Fin nextentArr) (i : ℕ) : ℕ := curBmapBlockNo (standard.curBmapBlockDiskBlockNo idx k) i

theorem curBmap_add_le : ∀ (idx : Fin nmaxFspWorker) (k k' : Fin nextentArr), k < k' →
    standard.curBmapBlockDiskBlockNo idx k + standard.curMaxBmapBlocks k ≤ standard.curBmapBlockDiskBlockNo idx k' := by
  decide +kernel

theorem curBmap_add_lt : ∀ (idx : Fin nmaxFspWorker) (k : Fin nextentArr),
    standard.curBmapBlockDiskBlockNo idx k + standard.curMaxBmapBlocks k < 2 ^ 24 := by
  decide +kernel

theorem curMax_lt : ∀ k : Fin nextentArr, standard.curMaxBmapBlocks k < 2 ^ 10 := by decide +kernel

variable {idx}

theorem bno_eq (hi : i < standard.curMaxBmapBlocks k) : bno idx k i = standard.curBmapBlockDiskBlockNo idx k + i := by
  have := curBmap_add_lt idx k
  unfold bno curBmapBlockNo
  omega

theorem bno_inj {k k' : Fin nextentArr} {i i' : ℕ} (hi : i < standard.curMaxBmapBlocks k)
    (hi' : i' < standard.curMaxBmapBlocks k') (h : bno idx k i = bno idx k' i') : k = k' ∧ i = i' := by
  rw [bno_eq hi, bno_eq hi'] at h
  rcases lt_trichotomy k k' with hlt | rfl | hlt
  · have := curBmap_add_le idx k k' hlt
    omega
  · exact ⟨rfl, by omega⟩
  · have := curBmap_add_le idx k' k hlt
    omega

theorem firstBmap_standard_lt : ∀ (idx : Fin nmaxFspWorker) (k : Fin nextentArr),
    firstBmap standard idx k < 2 ^ 14 := by
  decide +kernel

theorem curBmap_eq : ∀ (idx : Fin nmaxFspWorker) (k : Fin nextentArr),
    standard.curBmapBlockDiskBlockNo idx k = 10485766 + firstBmap standard idx k := by
  decide +kernel

theorem blockNo_place {i bit : ℕ} (hi : i < standard.curMaxBmapBlocks k) (hb : bit < bpb) :
    standard.getBmapBlockForLba (standard.blockNo idx k i bit) = bno idx k i ∧
      standard.blockNo idx k i bit % bpb = bit := by
  have hf := firstBmap_standard_lt idx k
  have hm := curMax_lt k
  have hno : standard.blockNo idx k i bit = firstBmap standard idx k * bpb + (i * bpb + bit) :=
    blockNo_eq (by omega) (by omega) hb
  rw [getBmapBlockForLba_eq, bno_eq hi, curBmap_eq, hno]
  rw [bpb_eq] at *
  omega

end Places

/-- A unit that can be allocated: its bit is a multiple of the unit's size, or its bitmap block the
first of as many as the unit takes. -/
def IsUnit (u : AllocUnit) : Prop :=
  u.i < standard.curMaxBmapBlocks u.k ∧ u.bit < bpb ∧
    if extentArrIdx2BlockAllocUnit u.k < bpb then extentArrIdx2BlockAllocUnit u.k ∣ u.bit
    else u.bit = 0 ∧ extentArrIdx2BlockAllocUnit u.k / bpb ∣ u.i

/-- The unit is taken, as the search for its size sees it. -/
def marked (k : Fin nextentArr) (bit : ℕ) (b : Bitmap) : Bool :=
  if extentArrIdx2BlockAllocUnit k < bpb then b bit else !firstIntZero b

/-- What an allocation does to the bitmap block. -/
def mark (k : Fin nextentArr) (bit : ℕ) (b : Bitmap) : Bitmap :=
  if extentArrIdx2BlockAllocUnit k < bpb then blockSetBit bit b else memsetOne

/-! ## The searches are complete -/

variable {b : Bitmap}

theorem findBlockFreeBitNo_none {s : ℤ} {n bit : ℕ} (h : findBlockFreeBitNoStartFrom b s n = none) (hs : s < bit)
    (hn : bit < n) : b bit = true := by
  by_contra hb
  exact (findClear_least ..).2 h bit ⟨by simpa using hb, bit - (s + 1).toNat, by omega, by omega⟩

variable {bit : ℕ}

theorem jump_none (h : findBlockFreeJumpBitsNo b bpb 2048 = none) (hbit : bit < bpb) (hdvd : 2048 ∣ bit) :
    b bit = true := by
  have hbpb := bpb_eq
  by_contra hb
  exact (findBlockFreeJumpBitsNo_least (by decide)).2 h bit ⟨hdvd, by omega, by simpa using hb⟩

/-- What a search leaves of the state it started in: the bitmaps, except for the unit it takes, and
small block cursors. -/
structure Searched (D : ℕ → Bitmap) (st : AllocState) : Prop where
  inMem : ∀ b, st.bmapBlockBuf b = some (D b)
  cursor : ∀ unit, st.nextDataBlockAllocWithinUnitBlockIdx unit < 2 ^ 31

section Searches

variable {D : ℕ → Bitmap} {st st' : AllocState} {curBmap curMax unit : ℕ}

theorem Searched.setIdx (h : Searched D st) (hi : i < 2 ^ 31) (unit : ℕ) : Searched D (st.setIdx unit i) := by
  refine ⟨h.inMem, fun u => ?_⟩
  change update st.nextDataBlockAllocWithinUnitBlockIdx unit i u < 2 ^ 31
  rcases eq_or_ne u unit with rfl | hne
  · rwa [update_self]
  · rw [update_of_ne hne]
    exact h.cursor u

theorem Searched.setBitNo (h : Searched D st) (unit : ℕ) (bitNo : ℤ) : Searched D (st.setBitNo unit bitNo) :=
  ⟨h.inMem, h.cursor⟩

theorem Searched.setBmap (h : Searched D st) (b : ℕ) (m : Bitmap) : Searched (update D b m) (st.setBmap b m) := by
  refine ⟨fun b' => ?_, h.cursor⟩
  change update st.bmapBlockBuf b (some m) b' = _
  rcases eq_or_ne b' b with rfl | hne
  · rw [update_self, update_self]
  · rw [update_of_ne hne, update_of_ne hne]
    exact h.inMem b'

/-- How a search ends: with a unit for which `free` holds, which is then marked by `mark`, or
without one, and then `full` holds. -/
def Ends (curBmap : ℕ) (D : ℕ → Bitmap) (mark : ℕ → Bitmap → Bitmap) (free : ℕ → ℕ → Prop) (full : Prop) :
    AllocResult × AllocState → Prop
  | (.allocated i bit, st) => free i bit ∧
      Searched (Function.update D (curBmapBlockNo curBmap i) (mark bit (D (curBmapBlockNo curBmap i)))) st
  | (.reading, _) => False
  | (.full, st) => Searched D st ∧ full

theorem Ends.imp {mark : ℕ → Bitmap → Bitmap} {free free' : ℕ → ℕ → Prop} {full full' : Prop}
    (hfree : ∀ i bit, free i bit → free' i bit) (hfull : full → full') :
    ∀ {r : AllocResult × AllocState}, Ends curBmap D mark free full r → Ends curBmap D mark free' full' r
  | (.allocated i bit, _), h => ⟨hfree i bit h.1, h.2⟩
  | (.reading, _), h => h
  | (.full, _), h => ⟨h.1, hfull h.2⟩

theorem allocOneBlock_ends (hmax : curMax < 2 ^ 31) (hpos : 0 < curMax) : ∀ {n k : ℕ} {st : AllocState}, Searched D st →
    Ends curBmap D blockSetBit (fun i bit => i < curMax ∧ bit < bpb ∧ D (curBmapBlockNo curBmap i) bit = false)
      (∀ j < n, ∀ bit < bpb, D (curBmapBlockNo curBmap ((k + j) % curMax)) bit = true ∨ j = 0 ∧
        (bit : ℤ) ≤ st.nextDataBlockAllocCurBlkBitNo unit)
      (allocOneBlock curBmap curMax unit n k st)
  | 0, k, st, h => ⟨h, fun j hj => absurd hj (Nat.not_lt_zero j)⟩
  | n + 1, k, st, h => by
    have hi : k % curMax < curMax := Nat.mod_lt k hpos
    have h1 := h.setIdx (hi.trans hmax) unit
    have hcur : (st.setIdx unit (k % curMax)).nextDataBlockAllocCurBlkBitNo unit =
      st.nextDataBlockAllocCurBlkBitNo unit := rfl
    unfold allocOneBlock
    dsimp only
    rw [h1.inMem, hcur]
    dsimp only
    cases hfrom : findBlockFreeBitNoStartFrom (D (curBmapBlockNo curBmap (k % curMax)))
      (st.nextDataBlockAllocCurBlkBitNo unit) bpb with
    | some bit =>
      exact ⟨⟨hi, findBlockFreeBitNoStartFrom_some hfrom⟩, (h1.setBmap _ _).setBitNo ..⟩
    | none =>
      have h2 := h1.setBitNo unit (-1)
      dsimp only
      split
      · next bit hretry =>
        split_ifs at hretry
        exact ⟨⟨hi, findBlockFreeBitNoStartFrom_some hretry⟩, (h2.setBmap _ _).setBitNo ..⟩
      · refine (allocOneBlock_ends hmax hpos h2).imp (fun _ _ hfree => hfree) fun hrest j hj bit hbit => ?_
        cases j with
        | zero =>
          by_cases hle : (bit : ℤ) ≤ st.nextDataBlockAllocCurBlkBitNo unit
          · exact Or.inr ⟨rfl, hle⟩
          · exact Or.inl (findBlockFreeBitNo_none hfrom (lt_of_not_ge hle) hbit)
        | succ j =>
          -- The search of the later blocks starts with their first bit.
          have hbit' := hrest j (Nat.lt_of_succ_lt_succ hj) bit hbit
          have hreset : ((st.setIdx unit (k % curMax)).setBitNo unit (-1)).nextDataBlockAllocCurBlkBitNo unit = -1 :=
            update_self ..
          rw [hreset] at hbit'
          rcases hbit' with hset | ⟨-, hneg⟩
          · rw [Nat.add_right_comm] at hset
            exact Or.inl hset
          · omega

theorem allocJump_ends (hmax : curMax < 2 ^ 31) (hpos : 0 < curMax) : ∀ {n k : ℕ} {st : AllocState}, Searched D st →
    Ends curBmap D blockSetBit (fun i bit => i < curMax ∧ 2048 ∣ bit ∧ bit < bpb ∧
      D (curBmapBlockNo curBmap i) bit = false)
      (∀ j < n, ∀ bit < bpb, 2048 ∣ bit → D (curBmapBlockNo curBmap ((k + j) % curMax)) bit = true)
        (allocJump curBmap curMax 2048 n k st)
  | 0, k, st, h => ⟨h, fun j hj => absurd hj (Nat.not_lt_zero j)⟩
  | n + 1, k, st, h => by
    have hi : k % curMax < curMax := Nat.mod_lt k hpos
    have h1 := h.setIdx (hi.trans hmax) 2048
    unfold allocJump
    dsimp only
    rw [h1.inMem]
    dsimp only
    cases hfrom : findBlockFreeJumpBitsNo (D (curBmapBlockNo curBmap (k % curMax))) bpb 2048 with
    | some bit =>
      obtain ⟨hdvd, hle⟩ := findBlockFreeJumpBitsNo_some hfrom
      obtain ⟨hclear, -⟩ := Option.filter_eq_some_iff.1 hfrom
      exact ⟨⟨hi, hdvd, by omega, (findClear_some hclear).1⟩, h1.setBmap _ _⟩
    | none =>
      refine (allocJump_ends hmax hpos h1).imp (fun _ _ hfree => hfree) fun hrest j hj bit hbit hdvd => ?_
      cases j with
      | zero => exact jump_none hfrom hbit hdvd
      | succ j =>
        have hset := hrest j (Nat.lt_of_succ_lt_succ hj) bit hbit hdvd
        rw [Nat.add_right_comm] at hset
        exact hset

theorem allocBmapBlocks_ends : ∀ {n i0 : ℕ} {st : AllocState}, Searched D st → Ends curBmap D (fun _ _ => memsetOne)
      (fun i bit => bit = 0 ∧ (∃ m < n, i = i0 + m * (unit / bpb)) ∧ firstIntZero (D (curBmapBlockNo curBmap i)) = true)
      (∀ m < n, firstIntZero (D (curBmapBlockNo curBmap (i0 + m * (unit / bpb)))) = false)
        (allocBmapBlocks curBmap unit n i0 st)
  | 0, i0, st, h => ⟨h, fun j hj => absurd hj (Nat.not_lt_zero j)⟩
  | n + 1, i0, st, h => by
    unfold allocBmapBlocks
    rw [h.inMem]
    dsimp only
    by_cases hzero : firstIntZero (D (curBmapBlockNo curBmap i0)) = true
    · rw [if_pos hzero]
      exact ⟨⟨rfl, ⟨0, Nat.succ_pos n, by omega⟩, hzero⟩, h.setBmap _ _⟩
    · rw [if_neg hzero]
      refine (allocBmapBlocks_ends h).imp ?_ fun hrest m hm => ?_
      · rintro i bit ⟨hbit, ⟨m, hm, rfl⟩, hfree⟩
        exact ⟨hbit, ⟨m + 1, Nat.succ_lt_succ hm, by ring⟩, hfree⟩
      · cases m with
        | zero =>
          rw [Nat.zero_mul, Nat.add_zero]
          exact (Bool.not_eq_true _).mp hzero
        | succ m =>
          have hset := hrest m (Nat.lt_of_succ_lt_succ hm)
          have heq : i0 + unit / bpb + m * (unit / bpb) = i0 + (m + 1) * (unit / bpb) := by ring
          rwa [heq] at hset

end Searches

/-! ## Taking a unit -/

/-- The unit is behind the cursor of the search for one block, in the block the search starts with. -/
def Behind (st : AllocState) (u : AllocUnit) : Prop :=
  u.i = st.nextDataBlockAllocWithinUnitBlockIdx 1 % 6 ∧ (u.bit : ℤ) ≤ st.nextDataBlockAllocCurBlkBitNo 1

theorem unit_of_large : ∀ k : Fin nextentArr, k ≠ 0 → k ≠ 1 → extentArrIdx2BlockAllocUnit k ≠ 1 ∧
    ¬ extentArrIdx2BlockAllocUnit k < bpb ∧
      0 < extentArrIdx2BlockAllocUnit k / bpb ∧ extentArrIdx2BlockAllocUnit k / bpb ∣ standard.curMaxBmapBlocks k := by
  decide +kernel

section AllocUnit

variable (idx : Fin nmaxFspWorker) {D : ℕ → Bitmap} {st : AllocState}

theorem turns_eq {start : ℕ} (h : start < 2 ^ 31) : standard.turns k start = standard.curMaxBmapBlocks k := by
  have := curMax_lt k
  unfold Layout.turns
  omega

theorem wrap_six (hi : i < 6) (start : ℕ) : (start + (i + 6 - start % 6) % 6) % 6 = i := by omega

theorem allocUnit_ends (k : Fin nextentArr) (h : Searched D st) :
    Ends (standard.curBmapBlockDiskBlockNo idx k) D (mark k)
      (fun i bit => IsUnit ⟨k, i, bit⟩ ∧ marked k bit (D (bno idx k i)) = false)
      (∀ i bit, IsUnit ⟨k, i, bit⟩ → marked k bit (D (bno idx k i)) = true ∨ k = 0 ∧ Behind st ⟨k, i, bit⟩)
        (standard.allocUnit idx k st) := by
  have hstart := h.cursor (extentArrIdx2BlockAllocUnit k)
  unfold Layout.allocUnit
  by_cases h0 : k = 0
  · subst h0
    have hcur : standard.curMaxBmapBlocks 0 = 6 := by decide +kernel
    rw [if_pos (by decide), turns_eq hstart, hcur]
    have hmark : mark 0 = blockSetBit := rfl
    have hmarked (bit : ℕ) (b : Bitmap) : marked 0 bit b = b bit := rfl
    rw [hmark]
    refine (allocOneBlock_ends (by omega) (by omega) h).imp ?_ fun hall i bit hu => ?_
    · rintro i bit ⟨hi, hbit, hclear⟩
      exact ⟨⟨hi.trans_eq hcur.symm, hbit, one_dvd bit⟩, hclear⟩
    · obtain ⟨hi, hbit, -⟩ := hu
      change i < standard.curMaxBmapBlocks 0 at hi
      rw [hcur] at hi
      change st.nextDataBlockAllocWithinUnitBlockIdx 1 < 2 ^ 31 at hstart
      set start := st.nextDataBlockAllocWithinUnitBlockIdx 1 with hs
      have hset := hall ((i + 6 - start % 6) % 6) (Nat.mod_lt _ (by omega)) bit hbit
      change D (curBmapBlockNo _ ((start + (i + 6 - start % 6) % 6) % 6)) bit = true ∨ _ at hset
      rw [wrap_six hi] at hset
      rcases hset with hset | ⟨hzero, hle⟩
      · exact Or.inl hset
      · exact Or.inr ⟨rfl, (by omega : i = start % 6), hle⟩
  · by_cases h1 : k = 1
    · subst h1
      have hcur : standard.curMaxBmapBlocks 1 = 6 := by decide +kernel
      rw [if_neg (by decide), if_pos (by decide), turns_eq hstart, hcur]
      have hmark : mark 1 = blockSetBit := rfl
      rw [hmark]
      refine (allocJump_ends (by omega) (by omega) h).imp ?_ fun hall i bit hu => Or.inl ?_
      · rintro i bit ⟨hi, hdvd, hbit, hclear⟩
        exact ⟨⟨hi.trans_eq hcur.symm, hbit, hdvd⟩, hclear⟩
      · obtain ⟨hi, hbit, hdvd⟩ := hu
        change i < standard.curMaxBmapBlocks 1 at hi
        rw [hcur] at hi
        change st.nextDataBlockAllocWithinUnitBlockIdx 2048 < 2 ^ 31 at hstart
        set start := st.nextDataBlockAllocWithinUnitBlockIdx 2048 with hs
        have hset := hall ((i + 6 - start % 6) % 6) (Nat.mod_lt _ (by omega)) bit hbit hdvd
        change D (curBmapBlockNo _ ((start + (i + 6 - start % 6) % 6) % 6)) bit = true at hset
        rw [wrap_six hi] at hset
        exact hset
    · obtain ⟨hone, hlarge, hpos, hdvd⟩ := unit_of_large k h0 h1
      rw [if_neg hone, if_neg hlarge]
      have hmark : mark k = fun _ _ => memsetOne := by
        funext bit b
        exact if_neg hlarge
      have hmarked (bit : ℕ) (b : Bitmap) : marked k bit b = !firstIntZero b := if_neg hlarge
      rw [hmark]
      obtain ⟨q, hq⟩ := hdvd
      have hturns : (standard.curMaxBmapBlocks k + extentArrIdx2BlockAllocUnit k / bpb - 1) /
        (extentArrIdx2BlockAllocUnit k / bpb) = q := by
        rw [hq, Nat.add_sub_assoc hpos, Nat.mul_add_div hpos, Nat.div_eq_of_lt (Nat.sub_lt hpos Nat.one_pos),
          Nat.add_zero]
      rw [hturns]
      refine (allocBmapBlocks_ends h).imp ?_ fun hall i bit hu => Or.inl ?_
      · rintro i bit ⟨rfl, ⟨m, hm, rfl⟩, hfree⟩
        rw [Nat.zero_add] at hfree ⊢
        have hi : m * (extentArrIdx2BlockAllocUnit k / bpb) < standard.curMaxBmapBlocks k := by
          rw [hq, Nat.mul_comm]
          exact Nat.mul_lt_mul_of_pos_left hm hpos
        refine ⟨⟨hi, (by decide : 0 < bpb), ?_⟩, ?_⟩
        · rw [if_neg hlarge]
          exact ⟨rfl, Dvd.intro_left m rfl⟩
        · rw [hmarked]
          exact congrArg not hfree
      · obtain ⟨hi, -, hplace⟩ := hu
        rw [if_neg hlarge] at hplace
        obtain ⟨m, hm⟩ := hplace.2
        change i = _ at hm
        change i < standard.curMaxBmapBlocks k at hi
        rw [hm, hq] at hi
        have hset := hall m (Nat.lt_of_mul_lt_mul_left hi)
        rw [Nat.zero_add, Nat.mul_comm, ← hm] at hset
        rw [hmarked]
        exact congrArg not hset

end AllocUnit

/-! ## The bitmaps and what refers to the units -/

theorem firstIntZero_iff : firstIntZero b = true ↔ ∀ nr < 32, b nr = false := by
  unfold firstIntZero
  simp only [List.all_eq_true, List.mem_range, Bool.not_eq_true']

theorem marked_small (h : extentArrIdx2BlockAllocUnit k < bpb) : marked k bit b = b bit := if_pos h

theorem marked_large (h : ¬ extentArrIdx2BlockAllocUnit k < bpb) : marked k bit b = !firstIntZero b := if_neg h

theorem marked_mark (k : Fin nextentArr) (bit : ℕ) (b : Bitmap) : marked k bit (mark k bit b) = true := by
  unfold marked mark
  split
  · exact update_self ..
  · decide

theorem IsUnit.bit_eq {u : AllocUnit} (hu : IsUnit u) (h : ¬ extentArrIdx2BlockAllocUnit u.k < bpb) : u.bit = 0 := by
  have hplace := hu.2.2
  rw [if_neg h] at hplace
  exact hplace.1

section Units

variable {idx : Fin nmaxFspWorker} {D : ℕ → Bitmap} {u v : AllocUnit} {m : Bitmap}

theorem marked_update (hu : IsUnit u) (hv : IsUnit v) (hne : v ≠ u)
    (hm : extentArrIdx2BlockAllocUnit u.k < bpb → ∀ bit, bit ≠ u.bit → m bit = D (bno idx u.k u.i) bit) :
    marked v.k v.bit (update D (bno idx u.k u.i) m (bno idx v.k v.i)) = marked v.k v.bit (D (bno idx v.k v.i)) := by
  by_cases hb : bno idx v.k v.i = bno idx u.k u.i
  · obtain ⟨hk, hi⟩ := bno_inj hv.1 hu.1 hb
    have hbit : v.bit ≠ u.bit := fun hbit => hne (by
      cases u
      cases v
      cases hk
      cases hi
      cases hbit
      rfl)
    have hsmall : extentArrIdx2BlockAllocUnit u.k < bpb := by
      by_contra hlarge
      exact hbit ((hv.bit_eq (hk ▸ hlarge)).trans (hu.bit_eq hlarge).symm)
    rw [hb, update_self, marked_small (hk ▸ hsmall), marked_small (hk ▸ hsmall)]
    exact hm hsmall v.bit hbit
  · rw [update_of_ne hb]

theorem marked_setBit (hu : IsUnit u) (b : Bitmap) : marked u.k u.bit (blockSetBit u.bit b) = true := by
  by_cases hsmall : extentArrIdx2BlockAllocUnit u.k < bpb
  · rw [marked_small hsmall]
    exact update_self ..
  · rw [marked_large hsmall, hu.bit_eq hsmall, Bool.not_eq_true']
    refine (Bool.not_eq_true _).mp fun hzero => ?_
    have hclear := firstIntZero_iff.1 hzero 0 (by omega)
    rw [blockSetBit, update_self] at hclear
    cases hclear

theorem marked_clearBit (hu : IsUnit u) (hb : ¬ extentArrIdx2BlockAllocUnit u.k < bpb → ∀ nr, 0 < nr → nr < 32 →
    b nr = false) :
    marked u.k u.bit (blockClearBit u.bit b) = false := by
  by_cases hsmall : extentArrIdx2BlockAllocUnit u.k < bpb
  · rw [marked_small hsmall]
    exact update_self ..
  · rw [marked_large hsmall, hu.bit_eq hsmall, Bool.not_eq_false', firstIntZero_iff]
    intro nr hnr
    rcases Nat.eq_zero_or_pos nr with rfl | hpos
    · exact update_self ..
    · rw [blockClearBit, update_of_ne (by omega)]
      exact hb hsmall nr hpos hnr

end Units

/-- The dirty bitmaps mark the units that are in use, and the stable ones those of them whose
allocation is committed. A unit with bitmap blocks of its own has one bit in the stable bitmap. -/
structure Kept (idx : Fin nmaxFspWorker) (D : ℕ → Bitmap) (s : DataBitmaps) : Prop where
  searched : Searched D s.alloc
  dirty : ∀ u, IsUnit u → (marked u.k u.bit (D (bno idx u.k u.i)) = true ↔ s.ref u ≠ .free)
  stable : ∀ u, IsUnit u →
    (marked u.k u.bit (s.stable (bno idx u.k u.i)) = true ↔ s.ref u ≠ .free ∧ s.unset u = false)
  single : ∀ u, IsUnit u → ¬ extentArrIdx2BlockAllocUnit u.k < bpb → ∀ nr, 0 < nr →
    s.stable (bno idx u.k u.i) nr = false
  refUnit : ∀ u, s.ref u ≠ .free → IsUnit u
  unsetRef : ∀ u, s.unset u = true → s.ref u ≠ .free

/-- What the searches rest on: there is a free one-block unit ahead of the cursor if there is one at
all, and the bits that a dealloc of a large unit leaves are clear where the search looks. -/
def Findable (idx : Fin nmaxFspWorker) : DataBitmaps.Label → DataBitmaps → Prop
  | .allocate k, s => k = 0 → (∃ u, IsUnit u ∧ u.k = 0 ∧ s.ref u = .free) →
      ∃ u, IsUnit u ∧ u.k = 0 ∧ s.ref u = .free ∧ ¬ Behind s.alloc u
  | .commitDealloc u, s => ¬ extentArrIdx2BlockAllocUnit u.k < bpb → ∀ b,
      s.alloc.bmapBlockBuf (bno idx u.k u.i) = some b → ∀ nr, 0 < nr → nr < 32 → b nr = false
  | .commitAlloc _, _ | .unlink _, _ => True

section Steps

variable {idx : Fin nmaxFspWorker} {D : ℕ → Bitmap} {s s' : DataBitmaps} {u : AllocUnit}

section

variable (h : Kept idx D s)

include h

theorem Kept.all_used (hf : Findable idx (.allocate k) s)
    (hfull : (standard.allocUnit idx k s.alloc).1 = .full) {i bit : ℕ} (hu : IsUnit ⟨k, i, bit⟩) :
      s.ref ⟨k, i, bit⟩ ≠ .free := by
  have hends := allocUnit_ends idx k h.searched
  have hpair : standard.allocUnit idx k s.alloc = (.full, (standard.allocUnit idx k s.alloc).2) := by
    rw [← hfull]
  rw [hpair] at hends
  have hused : ∀ i bit, IsUnit ⟨k, i, bit⟩ → s.ref ⟨k, i, bit⟩ ≠ .free ∨ k = 0 ∧ Behind s.alloc ⟨k, i, bit⟩ := by
    intro i bit hu
    rcases hends.2 i bit hu with hmarked | hbehind
    · exact Or.inl ((h.dirty _ hu).1 hmarked)
    · exact Or.inr hbehind
  rcases hused i bit hu with href | ⟨rfl, -⟩
  · exact href
  · intro hfree
    obtain ⟨⟨k, i, bit⟩, hu, rfl, hfree, hnot⟩ := hf rfl ⟨_, hu, rfl, hfree⟩
    rcases hused i bit hu with href | ⟨-, hbehind⟩
    · exact href hfree
    · exact hnot hbehind

theorem Kept.agree (hnone : ∀ u, s.unset u = false) (hu : IsUnit u)
    (hb : s.alloc.bmapBlockBuf (bno idx u.k u.i) = some b) :
      marked u.k u.bit b = marked u.k u.bit (s.stable (bno idx u.k u.i)) := by
  obtain rfl := Option.some.inj ((h.searched.inMem _).symm.trans hb)
  rw [Bool.eq_iff_iff, h.dirty u hu, h.stable u hu]
  exact ⟨fun href => ⟨href, hnone u⟩, fun href => href.1⟩

theorem Kept.allocate (hstep : DataBitmaps.step standard idx (.allocate k) s = some s') : ∃ D', Kept idx D' s' := by
  have hends := allocUnit_ends idx k h.searched
  unfold DataBitmaps.step at hstep
  dsimp only at hstep
  rcases hr : standard.allocUnit idx k s.alloc with ⟨r, st⟩
  rw [hr] at hends hstep
  cases r with
  | reading => exact hends.elim
  | full =>
    cases hstep
    exact ⟨D, { h with searched := hends.1 }⟩
  | allocated i bit =>
    obtain ⟨⟨hu, hclear⟩, hs⟩ := hends
    cases hstep
    have hfree : s.ref ⟨k, i, bit⟩ = .free := by
      by_contra href
      rw [(h.dirty _ hu).2 href] at hclear
      cases hclear
    refine ⟨_, hs, fun v hv => ?_, fun v hv => ?_, h.single, fun v href => ?_, fun v hunset => ?_⟩
    · dsimp only
      rcases eq_or_ne v ⟨k, i, bit⟩ with rfl | hne
      · rw [update_self]
        refine ⟨fun _ => nofun, fun _ => ?_⟩
        exact (congrArg (marked k bit) (update_self ..)).trans (marked_mark ..)
      · rw [update_of_ne hne, ← h.dirty v hv]
        have hsame := marked_update (D := D) (m := mark k bit (D (bno idx k i))) hu hv hne fun hsmall c hc => by
            unfold mark
            rw [if_pos hsmall]
            exact update_of_ne hc ..
        exact iff_of_eq (congrArg (· = true) hsame)
    · dsimp only
      rcases eq_or_ne v ⟨k, i, bit⟩ with rfl | hne
      · rw [h.stable _ hv, hfree, update_self, update_self]
        exact ⟨fun href => absurd rfl href.1, fun hset => absurd hset.2.symm Bool.false_ne_true⟩
      · rw [update_of_ne hne, update_of_ne hne]
        exact h.stable v hv
    · dsimp only at href
      rcases eq_or_ne v ⟨k, i, bit⟩ with rfl | hne
      · exact hu
      · rw [update_of_ne hne] at href
        exact h.refUnit v href
    · dsimp only at hunset ⊢
      rcases eq_or_ne v ⟨k, i, bit⟩ with rfl | hne
      · rw [update_self]
        nofun
      · rw [update_of_ne hne] at hunset ⊢
        exact h.unsetRef v hunset

theorem Kept.single_update (hu : IsUnit u) {m : Bitmap}
    (hm : ∀ bit, bit ≠ u.bit → m bit = s.stable (bno idx u.k u.i) bit) {v : AllocUnit} (hv : IsUnit v)
    (hlarge : ¬ extentArrIdx2BlockAllocUnit v.k < bpb) {nr : ℕ} (hnr : 0 < nr) :
    update s.stable (bno idx u.k u.i) m (bno idx v.k v.i) nr = false := by
  by_cases hb : bno idx v.k v.i = bno idx u.k u.i
  · obtain ⟨hk, -⟩ := bno_inj hv.1 hu.1 hb
    have hne : nr ≠ u.bit := by
      have := hu.bit_eq (hk ▸ hlarge)
      omega
    rw [hb, update_self, hm nr hne, ← hb]
    exact h.single v hv hlarge nr hnr
  · rw [update_of_ne hb]
    exact h.single v hv hlarge nr hnr

theorem Kept.commitAlloc (hstep : DataBitmaps.step standard idx (.commitAlloc u) s = some s') :
    ∃ D', Kept idx D' s' := by
  unfold DataBitmaps.step at hstep
  dsimp only at hstep
  split at hstep
  · next hunset =>
    have href := h.unsetRef u hunset
    have hu := h.refUnit u href
    obtain ⟨hbno, hbit⟩ := blockNo_place hu.1 hu.2.1
    unfold DataBitmaps.setBlock at hstep
    rw [hbno, hbit] at hstep
    cases hstep
    have hm : ∀ bit, bit ≠ u.bit → blockSetBit u.bit (s.stable (bno idx u.k u.i)) bit = s.stable
      (bno idx u.k u.i) bit :=
      fun bit hne => update_of_ne hne ..
    refine ⟨D, h.searched, h.dirty, fun v hv => ?_, fun v hv hlarge nr hnr => h.single_update hu hm hv hlarge hnr,
      h.refUnit, fun v hset => ?_⟩
    · dsimp only
      rcases eq_or_ne v u with rfl | hne
      · rw [update_self, update_self, marked_setBit hv]
        exact ⟨fun _ => ⟨href, rfl⟩, fun _ => rfl⟩
      · rw [update_of_ne hne, marked_update hu hv hne fun _ => hm]
        exact h.stable v hv
    · dsimp only at hset
      rcases eq_or_ne v u with rfl | hne
      · exact href
      · rw [update_of_ne hne] at hset
        exact h.unsetRef v hset
  · cases hstep

theorem Kept.unlink (hstep : DataBitmaps.step standard idx (.unlink u) s = some s') : ∃ D', Kept idx D' s' := by
  unfold DataBitmaps.step at hstep
  dsimp only at hstep
  split at hstep
  · next hlive =>
    cases hstep
    have href (v : AllocUnit) : update s.ref u .dying v ≠ .free ↔ s.ref v ≠ .free := by
      rcases eq_or_ne v u with rfl | hne
      · rw [update_self, hlive]
        exact ⟨fun _ => nofun, fun _ => nofun⟩
      · rw [update_of_ne hne]
    exact ⟨D, h.searched, fun v hv => (h.dirty v hv).trans (href v).symm,
      fun v hv => (h.stable v hv).trans (and_congr_left' (href v).symm), h.single,
      fun v hv => h.refUnit v ((href v).1 hv), fun v hv => (href v).2 (h.unsetRef v hv)⟩
  · cases hstep

theorem Kept.commitDealloc (hf : Findable idx (.commitDealloc u) s)
    (hstep : DataBitmaps.step standard idx (.commitDealloc u) s = some s') : ∃ D', Kept idx D' s' := by
  unfold DataBitmaps.step at hstep
  dsimp only at hstep
  split at hstep
  · next hdying =>
    have hu := h.refUnit u (by rw [hdying]; nofun)
    obtain ⟨hbno, hbit⟩ := blockNo_place hu.1 hu.2.1
    unfold DataBitmaps.clearBlock at hstep
    dsimp only at hstep
    rw [hbno, hbit, h.searched.inMem] at hstep
    cases hstep
    have hm (b : Bitmap) : ∀ bit, bit ≠ u.bit → blockClearBit u.bit b bit = b bit :=
      fun bit hne => update_of_ne hne ..
    refine ⟨_, h.searched.setBmap (bno idx u.k u.i) (blockClearBit u.bit (D (bno idx u.k u.i))), fun v hv => ?_,
      fun v hv => ?_, fun v hv hlarge nr hnr => h.single_update hu (hm _) hv hlarge hnr, fun v href => ?_,
        fun v hset => ?_⟩
    · dsimp only
      rcases eq_or_ne v u with rfl | hne
      · rw [update_self, update_self, marked_clearBit hv fun hlarge nr hpos hlt =>
          hf hlarge _ (h.searched.inMem _) nr hpos hlt]
        exact ⟨fun hset => absurd hset Bool.false_ne_true, fun href => absurd rfl href⟩
      · rw [update_of_ne hne, marked_update hu hv hne fun _ => hm _]
        exact h.dirty v hv
    · dsimp only
      rcases eq_or_ne v u with rfl | hne
      · rw [update_self, update_self, update_self, marked_clearBit hv fun hlarge nr hpos _ =>
          h.single v hv hlarge nr hpos]
        exact ⟨fun hset => absurd hset Bool.false_ne_true, fun href => absurd rfl href.1⟩
      · rw [update_of_ne hne, update_of_ne hne, marked_update hu hv hne fun _ => hm _]
        exact h.stable v hv
    · dsimp only at href
      rcases eq_or_ne v u with rfl | hne
      · exact hu
      · rw [update_of_ne hne] at href
        exact h.refUnit v href
    · dsimp only at hset ⊢
      rcases eq_or_ne v u with rfl | hne
      · rw [update_self] at hset
        cases hset
      · rw [update_of_ne hne] at hset ⊢
        exact h.unsetRef v hset
  · cases hstep

end

theorem Kept.step {l : DataBitmaps.Label} (h : Kept idx D s) (hf : Findable idx l s)
    (hstep : DataBitmaps.step standard idx l s = some s') : ∃ D', Kept idx D' s' := by
  cases l with
  | allocate k => exact h.allocate hstep
  | commitAlloc u => exact h.commitAlloc hstep
  | unlink u => exact h.unlink hstep
  | commitDealloc u => exact h.commitDealloc hf hstep

end Steps

/-- The state after the start of the server: the bitmap blocks are in memory as they are on the
device, where each unit of a file has its bit, and the cursors are at the start. -/
structure Mounted (idx : Fin nmaxFspWorker) (s : DataBitmaps) : Prop where
  inMem : ∀ b, s.alloc.bmapBlockBuf b = some (s.stable b)
  cursor : ∀ unit, s.alloc.nextDataBlockAllocWithinUnitBlockIdx unit = 0
  files : ∀ u, IsUnit u → (marked u.k u.bit (s.stable (bno idx u.k u.i)) = true ↔ s.ref u = .live)
  single : ∀ u, IsUnit u → ¬ extentArrIdx2BlockAllocUnit u.k < bpb → ∀ nr, 0 < nr →
    s.stable (bno idx u.k u.i) nr = false
  refs : ∀ u, s.ref u = .free ∨ s.ref u = .live ∧ IsUnit u
  committed : ∀ u, s.unset u = false

theorem Mounted.kept {idx : Fin nmaxFspWorker} {s : DataBitmaps} (h : Mounted idx s) : Kept idx s.stable s := by
  have hlive (u : AllocUnit) : s.ref u = .live ↔ s.ref u ≠ .free := by
    rcases h.refs u with hfree | ⟨hlive, -⟩
    · rw [hfree]
      exact ⟨nofun, fun hne => absurd rfl hne⟩
    · rw [hlive]
      exact ⟨fun _ => nofun, fun _ => rfl⟩
  refine ⟨⟨h.inMem, fun unit => ?_⟩, fun u hu => (h.files u hu).trans (hlive u), fun u hu => ?_, h.single,
    fun u href => ?_, fun u hset => ?_⟩
  · rw [h.cursor]
    exact Nat.two_pow_pos 31
  · rw [h.files u hu, hlive u]
    exact ⟨fun href => ⟨href, h.committed u⟩, fun href => href.1⟩
  · exact ((h.refs u).resolve_left href).2
  · rw [h.committed u] at hset
    cases hset

/-- **Disk space is never lost to the allocator**, in a run in which a unit that has bitmap blocks
of its own is freed only when its bit is the only one of their first word and the free units of one
block are not all behind the cursor. -/
theorem space_kept {idx : Fin nmaxFspWorker} {s₀ s : DataBitmaps} {ls : List DataBitmaps.Label}
    (hmount : Mounted idx s₀)
    (hrun : run (DataBitmaps.step standard idx) ls s₀ = some s)
      (halong : Along (DataBitmaps.step standard idx) (Findable idx) ls s₀) :
    (∀ k, Findable idx (.allocate k) s → (standard.allocUnit idx k s.alloc).1 = .full → ∀ i bit,
      IsUnit ⟨k, i, bit⟩ → s.ref ⟨k, i, bit⟩ ≠ .free) ∧
    ((∀ u, s.unset u = false ∧ s.ref u ≠ .dying) → ∀ u, IsUnit u → ∀ b,
      s.alloc.bmapBlockBuf (bno idx u.k u.i) = some b →
        marked u.k u.bit b = marked u.k u.bit (s.stable (bno idx u.k u.i))) := by
  obtain ⟨D, hkept⟩ := run_inv (P := Findable idx) (I := fun s => ∃ D, Kept idx D s)
    (fun _ _ _ ⟨_, h⟩ hf hstep => h.step hf hstep) hrun halong ⟨_, hmount.kept⟩
  exact ⟨fun k hf hfull i bit hu => hkept.all_used hf hfull hu,
    fun hnone u hu b hb => hkept.agree (fun u => (hnone u).1) hu hb⟩

theorem mounted_formatted (idx : Fin nmaxFspWorker) : Mounted idx DataBitmaps.formatted := by
  refine ⟨fun _ => rfl, fun _ => rfl, fun u _ => ?_, fun _ _ _ _ _ => rfl, fun _ => Or.inl rfl, fun _ => rfl⟩
  have hclear : marked u.k u.bit (fun _ => false) = false := by
    unfold marked
    split
    · rfl
    · decide
  refine ⟨fun hset => ?_, nofun⟩
  exact absurd (hclear.symm.trans hset) Bool.false_ne_true

/-- A unit of the second extent is allocated, committed, unlinked and freed. -/
def midFile : List DataBitmaps.Label :=
  [.allocate 1, .commitAlloc ⟨1, 0, 0⟩, .unlink ⟨1, 0, 0⟩, .commitDealloc ⟨1, 0, 0⟩]

theorem space_kept_midFile : ∃ s, run (DataBitmaps.step standard 0) midFile DataBitmaps.formatted = some s ∧
    s.ref ⟨1, 0, 0⟩ = .free ∧
      (standard.allocUnit 0 1 s.alloc).1 ≠ .full := by
  have hmap : (run (DataBitmaps.step standard 0) midFile DataBitmaps.formatted).map (·.ref ⟨1, 0, 0⟩) = some .free := by
    decide +kernel
  obtain ⟨s, hrun, hfree⟩ := Option.map_eq_some_iff.mp hmap
  have hworker : 0 < nmaxFspWorker := by decide
  have halong : Along (DataBitmaps.step standard 0) (Findable ⟨0, hworker⟩) midFile DataBitmaps.formatted := by
    refine along_of_mem (fun l hl s => ?_) _
    simp only [midFile, List.mem_cons, List.not_mem_nil, or_false] at hl
    rcases hl with rfl | rfl | rfl | rfl
    · exact fun h => absurd h (by decide)
    · trivial
    · trivial
    · exact fun h => absurd (by decide) h
  have hkept := space_kept (mounted_formatted ⟨0, hworker⟩) hrun halong
  have hu : IsUnit ⟨1, 0, 0⟩ := by
    unfold IsUnit
    decide +kernel
  exact ⟨s, hrun, hfree, fun hfull => hkept.1 1 (fun h => absurd h (by decide)) hfull 0 0 hu hfree⟩

/-- All 24 units of a worker for the third extent are taken, and the first of them is freed again. -/
def largeFile : List DataBitmaps.Label :=
  List.replicate 24 (.allocate 2) ++ [.commitAlloc ⟨2, 0, 0⟩, .unlink ⟨2, 0, 0⟩, .commitDealloc ⟨2, 0, 0⟩]

/-- **A unit that was freed is lost**: the allocator has filled its bitmap block, and one bit of it was cleared. -/
theorem freed_unit_lost : IsUnit ⟨2, 0, 0⟩ ∧ ∃ s, run
    (DataBitmaps.step standard 0) largeFile DataBitmaps.formatted = some s ∧
      s.ref ⟨2, 0, 0⟩ = .free ∧ (standard.allocUnit 0 2 s.alloc).1 = .full := by
  refine ⟨?_, ?_⟩
  · unfold IsUnit
    decide +kernel
  · have hmap : (run (DataBitmaps.step standard 0) largeFile DataBitmaps.formatted).map
        (fun s => (s.ref ⟨2, 0, 0⟩, (standard.allocUnit 0 2 s.alloc).1)) = some (.free, .full) := by
      decide +kernel
    obtain ⟨s, hrun, heq⟩ := Option.map_eq_some_iff.mp hmap
    exact ⟨s, hrun, (Prod.mk.inj heq).1, (Prod.mk.inj heq).2⟩

end Ufs.Proof.Layout
