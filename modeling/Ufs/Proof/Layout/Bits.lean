import Ufs.Impl.BlockBits

/-!
# The free-bit searches are exact

The search for clear bits some bits apart returns the first one (`findClear_least`). The search for
a run of clear bits is followed bit by bit (`Scanned`); it returns -1 for a run of one, as
`start_bit_no` is set after the test for the length.
-/

namespace Ufs.Proof.Layout

open Impl

variable {addr : Bytes} {b : Bitmap} {n need jump : ℕ}

/-- The bitmap that the bytes at an address are. -/
def bitOf (addr : Bytes) : Bitmap := fun nr => (addr (nr / 8)).getLsbD (nr % 8)

/-! ## One bit -/

theorem mask_and : ∀ (x : BitVec 8) (m : Fin 8), (1#8 <<< m.val &&& x).toNat ≠ 0 ↔
    x.getLsbD m = true := by decide +kernel

theorem mask_getLsbD : ∀ m j : Fin 8, (1#8 <<< m.val).getLsbD j = decide (j = m) := by decide

theorem bitMask_eq (nr : ℕ) : bitMask nr = 1#8 <<< (nr % 8) := by
  rw [bitMask, show 0x07 = 2 ^ 3 - 1 from rfl, Nat.and_two_pow_sub_one_eq_mod]

theorem blockTestBit_ne_zero (nr : ℕ) : Bytes.blockTestBit nr addr ≠ 0 ↔ bitOf addr nr = true := by
  rw [Bytes.blockTestBit, bitMask_eq, Nat.shiftRight_eq_div_pow]
  exact_mod_cast mask_and _ ⟨nr % 8, Nat.mod_lt _ (by decide)⟩

/-- A byte is replaced by one in which the bit is the only difference. -/
theorem bitOf_update {nr : ℕ} {x : BitVec 8} {v : Bool} (hx :
    ∀ j < 8, x.getLsbD j = if j = nr % 8 then v else (addr (nr / 8)).getLsbD j) (i : ℕ) :
    bitOf (Function.update addr (nr / 8) x) i = if i = nr then v else bitOf addr i := by
  unfold bitOf
  rcases eq_or_ne (i / 8) (nr / 8) with hbyte | hbyte
  · rw [hbyte, Function.update_self, hx _ (Nat.mod_lt _ (by decide))]
    exact if_congr (by omega) rfl rfl
  · rw [Function.update_of_ne hbyte, if_neg (by omega)]

theorem bitOf_blockSetBit (nr i : ℕ) : bitOf (Bytes.blockSetBit nr addr).2 i = if i =
    nr then true else bitOf addr i := by
  rw [Bytes.blockSetBit, Nat.shiftRight_eq_div_pow]
  refine bitOf_update (fun j hj => ?_) i
  have hm := mask_getLsbD ⟨nr % 8, Nat.mod_lt _ (by decide)⟩ ⟨j, hj⟩
  rw [bitMask_eq, BitVec.getLsbD_or, hm]
  by_cases h : j = nr % 8 <;> simp [h]

theorem bitOf_blockClearBit (nr i : ℕ) : bitOf (Bytes.blockClearBit nr addr).2 i = if i =
    nr then false else bitOf addr i := by
  rw [Bytes.blockClearBit, Nat.shiftRight_eq_div_pow]
  refine bitOf_update (fun j hj => ?_) i
  have hm := mask_getLsbD ⟨nr % 8, Nat.mod_lt _ (by decide)⟩ ⟨j, hj⟩
  rw [bitMask_eq, BitVec.getLsbD_and, BitVec.getLsbD_not, hm]
  by_cases h : j = nr % 8 <;> simp [h, hj]

/-! ## The searches -/

/-- The least number with a property, or `none` when there is none. -/
def LeastOrNone (P : ℕ → Prop) (r : Option ℕ) : Prop := (∀ i, r = some i → IsLeast {i | P i} i) ∧
    (r = none → ∀ i, ¬ P i)

theorem LeastOrNone.congr {P Q : ℕ → Prop} {r : Option ℕ} (h : LeastOrNone P r) (hPQ : ∀ i, P i ↔ Q i) :
    LeastOrNone Q r :=
  (funext fun i => propext (hPQ i) : P = Q) ▸ h

theorem leastOrNone_none {P : ℕ → Prop} (h : ∀ i, ¬ P i) : LeastOrNone P none := ⟨nofun, fun _ => h⟩

theorem leastOrNone_some {P : ℕ → Prop} {i : ℕ} (hi : P i) (hle : ∀ j, P j → i ≤ j) : LeastOrNone P (some i) :=
  ⟨fun _ h => Option.some.inj h ▸ ⟨hi, hle⟩, nofun⟩

theorem findClear_least (b : Bitmap) (jump n s : ℕ) : LeastOrNone
    (fun i => b i = false ∧ ∃ m < n, i = s + m * jump) (findClear b jump n s) := by
  induction n generalizing s with
  | zero => exact leastOrNone_none fun i hi => by simp at hi
  | succ n ih =>
    rw [findClear]
    split_ifs with hb
    · refine (ih (s + jump)).congr fun i => and_congr_right fun hi => ⟨?_, ?_⟩
      · rintro ⟨m, hm, rfl⟩
        exact ⟨m + 1, by omega, by rw [Nat.succ_mul]; omega⟩
      · rintro ⟨m, hm, rfl⟩
        cases m with
        | zero => simp [hb] at hi
        | succ m => exact ⟨m, by omega, by rw [Nat.succ_mul]; omega⟩
    · refine leastOrNone_some ⟨by simpa using hb, 0, by omega, by simp⟩ ?_
      rintro j ⟨-, m, -, rfl⟩
      exact Nat.le_add_right ..

theorem findClear_some {s i : ℕ} (h : findClear b jump n s = some i) : b i = false ∧ ∃ m < n, i = s + m * jump :=
  ((findClear_least ..).1 i h).1

theorem findBlockFreeBitNoStartFrom_some {s : ℤ} {i : ℕ} (h : findBlockFreeBitNoStartFrom b s n = some i) :
    i < n ∧ b i = false := by
  obtain ⟨hb, m, hm, rfl⟩ := findClear_some h
  exact ⟨by omega, hb⟩

theorem findBlockFreeBitNoStartFrom_least {startBitNo : ℤ} (hstart : -1 ≤ startBitNo) :
    LeastOrNone (fun i => startBitNo < i ∧ i < n ∧ b i = false) (findBlockFreeBitNoStartFrom b startBitNo n) := by
  refine (findClear_least ..).congr fun i => ⟨?_, fun ⟨hlt, hi, hb⟩ =>
    ⟨hb, i - (startBitNo + 1).toNat, by omega, by omega⟩⟩
  rintro ⟨hb, m, hm, rfl⟩
  exact ⟨by omega, by omega, hb⟩

theorem findBlockFreeJumpBitsNo_least (hjump : 0 < jump) :
    LeastOrNone (fun i => jump ∣ i ∧ i + jump ≤ n ∧ b i = false) (findBlockFreeJumpBitsNo b n jump) := by
  have hlt (m : ℕ) : m < (n + jump - 1) / jump ↔ m * jump < n := by
    rw [← Nat.succ_le_iff, Nat.le_div_iff_mul_le hjump, Nat.succ_mul]
    omega
  obtain ⟨hsome, hnone⟩ := findClear_least b jump ((n + jump - 1) / jump) 0
  rw [findBlockFreeJumpBitsNo]
  cases hr : findClear b jump ((n + jump - 1) / jump) 0 with
  | none =>
    refine leastOrNone_none ?_
    rintro _ ⟨⟨m, rfl⟩, hroom, hb⟩
    exact hnone hr _ ⟨hb, m, (hlt m).2 (by rw [Nat.mul_comm]; omega), by rw [Nat.zero_add, Nat.mul_comm]⟩
  | some i =>
    obtain ⟨⟨hb, m, hm, hi⟩, hle⟩ := hsome i hr
    have hmin (j : ℕ) (hj : jump ∣ j ∧ j + jump ≤ n ∧ b j = false) : i ≤ j := by
      obtain ⟨⟨m', rfl⟩, hroom, hb'⟩ := hj
      exact hle ⟨hb', m', (hlt m').2 (by rw [Nat.mul_comm]; omega), by rw [Nat.zero_add, Nat.mul_comm]⟩
    by_cases hroom : jump ≤ n - i
    · rw [Option.filter_some_pos (by simpa using hroom)]
      exact leastOrNone_some ⟨⟨m, by rw [hi, Nat.zero_add, Nat.mul_comm]⟩, by omega, hb⟩ hmin
    · rw [Option.filter_some_neg (by simpa using hroom)]
      refine leastOrNone_none fun j hj => ?_
      have := hmin j hj
      omega

/-- `need` clear bits from `s`. -/
def IsRun (b : Bitmap) (n need s : ℕ) : Prop := s + need ≤ n ∧ ∀ i, s ≤ i → i < s + need → b i = false

/-- The bits below `k` have no run, and their last `found` bits are clear. -/
structure Scanned (b : Bitmap) (need k found : ℕ) (startBitNo : Option ℕ) : Prop where
  le : found ≤ k
  lt : found < need
  noRun : ∀ s, ¬ IsRun b k need s
  clear : ∀ i < k, k ≤ i + found → b i = false
  set : ∀ i, i + found + 1 = k → b i = true
  start : 0 < found → startBitNo = some (k - found)
  one : need = 1 → startBitNo = none

section

variable {k found : ℕ} {startBitNo : Option ℕ} (h : Scanned b need k found startBitNo)

include h

theorem Scanned.skip (hb : b k = true) : Scanned b need (k + 1) 0 startBitNo where
  le := Nat.zero_le _
  lt := Nat.zero_lt_of_lt h.lt
  noRun s hs := by
    rcases hs.1.eq_or_lt with heq | hlt
    · have hclear := hs.2 k (by have := h.lt; omega) (by omega)
      rw [hb] at hclear
      cases hclear
    · exact h.noRun s ⟨by omega, hs.2⟩
  clear i hi hle := by omega
  set i hi := by rwa [show i = k by omega]
  start := nofun
  one := h.one

theorem Scanned.extend (hb : b k = false)
    (hlt : found + 1 < need) : Scanned b need (k + 1) (found + 1) (if found + 1 = 1 then some k else startBitNo) where
  le := Nat.succ_le_succ h.le
  lt := hlt
  noRun s hs := by
    rcases hs.1.eq_or_lt with heq | hlt
    · have hclear := hs.2 (k - found - 1) (by omega) (by omega)
      rw [h.set _ (by omega)] at hclear
      cases hclear
    · exact h.noRun s ⟨by omega, hs.2⟩
  clear i hi hle := by
    rcases (Nat.le_of_lt_succ hi).eq_or_lt with rfl | hlt
    · exact hb
    · exact h.clear i hlt (by omega)
  set i hi := h.set i (by omega)
  start _ := by
    split_ifs with h0
    · rw [Nat.add_sub_add_right, Nat.add_right_cancel h0]
      rfl
    · rw [h.start (by omega), Nat.add_sub_add_right]
  one h1 := by omega

end

theorem multiBitsLoop_spec {m k found : ℕ} {startBitNo : Option ℕ} (hk : k + m = n)
    (h : Scanned b need k found startBitNo) :
    if need = 1 then multiBitsLoop b need m k startBitNo found = none
    else LeastOrNone (IsRun b n need) (multiBitsLoop b need m k startBitNo found) := by
  induction m generalizing k found startBitNo with
  | zero =>
    rw [multiBitsLoop]
    split_ifs
    · rfl
    · exact leastOrNone_none (hk ▸ h.noRun)
  | succ m ih =>
    rw [multiBitsLoop]
    rcases Bool.eq_false_or_eq_true (b k) with hb | hb
    · rw [if_pos hb]
      exact ih (by omega) (h.skip hb)
    rw [if_neg (Bool.eq_false_iff.1 hb)]
    by_cases hlast : found + 1 = need
    · rw [if_pos hlast]
      split_ifs with h1
      · exact h.one h1
      · have hle := h.le
        rw [h.start (by omega)]
        refine leastOrNone_some ⟨by omega, fun i _ hi => ?_⟩ fun s hs => ?_
        · rcases (show i ≤ k by omega).eq_or_lt with rfl | hlt
          · exact hb
          · exact h.clear i hlt (by omega)
        · by_contra hlt
          exact h.noRun s ⟨by omega, hs.2⟩
    · have hlt : found + 1 < need := by have := h.lt; omega
      rw [if_neg hlast, if_pos hlt]
      exact ih (by omega) (h.extend hb hlt)

/-- The searches return the least bit asked for, or -1 when there is none, but for a run of one bit;
the operations on a bit read and change that bit. The loops count in `int`, as they do here while `n
+ jump` is one. -/
theorem bit_searches_exact (addr : Bytes) (n need jump : ℕ) (startBitNo : ℤ) (hstart : -1 ≤ startBitNo)
    (hneed : 0 < need) (hjump : 0 < jump) (_hint : n + jump < 2 ^ 31) :
    LeastOrNone (fun i => startBitNo < i ∧ i < n ∧ bitOf addr i = false)
      (findBlockFreeBitNoStartFrom (bitOf addr) startBitNo n) ∧
    (LeastOrNone (IsRun (bitOf addr) n need) (findBlockFreeMultiBitsNo (bitOf addr) n need) ↔
      need ≠ 1 ∨ ∀ i < n, bitOf addr i = true) ∧
    LeastOrNone (fun i => jump ∣ i ∧ i + jump ≤ n ∧ bitOf addr i = false)
      (findBlockFreeJumpBitsNo (bitOf addr) n jump) ∧
    ∀ nr, (Bytes.blockTestBit nr addr ≠ 0 ↔ bitOf addr nr = true) ∧
      (Bytes.blockSetBit nr addr).1 = Bytes.blockTestBit nr addr ∧
      (Bytes.blockClearBit nr addr).1 = Bytes.blockTestBit nr addr ∧
      ∀ i, bitOf (Bytes.blockSetBit nr addr).2 i = (if i = nr then true else bitOf addr i) ∧
        bitOf (Bytes.blockClearBit nr addr).2 i = if i = nr then false else bitOf addr i := by
  refine ⟨findBlockFreeBitNoStartFrom_least hstart, ?_, findBlockFreeJumpBitsNo_least hjump,
    fun nr => ⟨blockTestBit_ne_zero nr, rfl, rfl, fun i => ⟨bitOf_blockSetBit nr i, bitOf_blockClearBit nr i⟩⟩⟩
  have hscan : Scanned (bitOf addr) need 0 0 none :=
    ⟨le_rfl, hneed, fun s hs => by have := hs.1; omega, by omega, by omega, nofun, fun _ => rfl⟩
  have hspec := multiBitsLoop_spec (Nat.zero_add n) hscan
  split_ifs at hspec with h1
  · subst h1
    rw [findBlockFreeMultiBitsNo, hspec]
    refine ⟨fun h => .inr fun i hi => ?_, fun h => leastOrNone_none fun i hi => ?_⟩
    · by_contra hb
      exact h.2 rfl i ⟨hi, fun j hj hj' => by rw [show j = i by omega]; simpa using hb⟩
    · have hclear := hi.2 i le_rfl (Nat.lt_succ_self i)
      rw [h.resolve_left (by simp) i hi.1] at hclear
      cases hclear
  · exact ⟨fun _ => .inl h1, fun _ => hspec⟩

theorem bit_searches_exact_two : LeastOrNone (IsRun (bitOf fun _ => 0x0D) 16 2)
    (findBlockFreeMultiBitsNo (bitOf fun _ => 0x0D) 16 2) :=
  (bit_searches_exact (fun _ => 0x0D) 16 2 8 3 (by decide) (by decide) (by decide) (by decide)).2.1.2 (.inl (by decide))

/-- Bit 1 of the bitmap is clear, and the search for a run of one bit does not find it. -/
theorem multi_misses_one : ∃ addr : Bytes, findBlockFreeMultiBitsNo (bitOf addr) 8 1 = none ∧
    IsRun (bitOf addr) 8 1 1 := by
  refine ⟨fun _ => 0x0D, by decide +kernel, by decide, fun i hi hi' => ?_⟩
  rw [show i = 1 by omega]
  decide

end Ufs.Proof.Layout
