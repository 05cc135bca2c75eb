import Mathlib.Data.Nat.ModEq
import Mathlib.Order.Interval.Finset.Nat

/-!
# Windows of a ring

The item of number `p` of a stream is at place `p % c` of a ring. `window c p n` are the places of
the items `p, …, p + n - 1`. The items of a span of at most `c` are at different places
(`card_window`), so two windows of one such span whose items differ share no place
(`window_disjoint`), and `c` items fill the ring (`window_eq_range`). `Tiles b es e`: the extents
`es` (the newest first) cut the items `b, …, e - 1` into consecutive pieces, which do not overlap
(`Tiles.pairwise`) and leave none out (`Tiles.exists_mem`).
-/

namespace Ufs.Ring

/-- The places of the items `p, …, p + n - 1` in a ring of `c` places. -/
def window (c p n : Nat) : Finset Nat := (Finset.Ico p (p + n)).image (· % c)

variable {c p q n m : Nat}

theorem mem_window {x : Nat} : x ∈ window c p n ↔ ∃ i < n, (p + i) % c = x := by
  simp only [window, Finset.mem_image, Finset.mem_Ico]
  constructor
  · rintro ⟨y, ⟨h1, h2⟩, rfl⟩
    exact ⟨y - p, by omega, by rw [Nat.add_sub_cancel' h1]⟩
  · rintro ⟨i, hi, rfl⟩
    exact ⟨p + i, ⟨by omega, by omega⟩, rfl⟩

@[simp] theorem window_zero : window c p 0 = ∅ := by simp [window]

/-- Two items fewer than `c` apart and at the same place are the same. -/
theorem eq_of_mod_eq {a b : Nat} (h : a % c = b % c) (hab : a < b + c) (hba : b < a + c) : a = b := by
  have hsub : ∀ {x y : Nat}, x % c = y % c → x ≤ y → y < x + c → x = y := by
    intro x y hxy hle hlt
    have hd : (y - x) % c = 0 := by
      have := (Nat.modEq_iff_dvd' hle).1 hxy
      exact Nat.mod_eq_zero_of_dvd this
    rw [Nat.mod_eq_of_lt (by omega)] at hd
    omega
  rcases Nat.le_total a b with hle | hle
  · exact hsub h hle hba
  · exact (hsub h.symm hle hab).symm

theorem mod_injOn (hn : n ≤ c) : Set.InjOn (· % c) (Finset.Ico p (p + n) : Set Nat) := by
  intro a ha b hb h
  simp only [Finset.coe_Ico, Set.mem_Ico] at ha hb
  exact eq_of_mod_eq h (by omega) (by omega)

theorem card_window (hn : n ≤ c) : (window c p n).card = n := by
  rw [window, Finset.card_image_of_injOn (mod_injOn hn), Nat.card_Ico]
  omega

/-- Windows of different items of one span of `c` share no place. -/
theorem window_disjoint (h1 : p + n ≤ q) (h2 : q + m ≤ p + c) :
    Disjoint (window c p n) (window c q m) := by
  rw [Finset.disjoint_left]
  intro x hx hy
  obtain ⟨i, hi, rfl⟩ := mem_window.1 hx
  obtain ⟨j, hj, h⟩ := mem_window.1 hy
  have := eq_of_mod_eq h (by omega) (by omega)
  omega

theorem window_subset (h1 : p ≤ q) (h2 : q + m ≤ p + n) : window c q m ⊆ window c p n :=
  Finset.image_subset_image (Finset.Ico_subset_Ico h1 h2)

/-- A window depends only on the place of its first item. -/
theorem window_congr (h : p % c = q % c) : window c p n = window c q n := by
  ext x
  simp only [mem_window]
  refine exists_congr fun i => and_congr_right fun _ => ?_
  rw [Nat.add_mod, h, ← Nat.add_mod]

theorem window_mod : window c (p % c) n = window c p n := window_congr (Nat.mod_mod p c)

theorem window_subset_range (hc : 0 < c) : window c p n ⊆ Finset.range c := by
  intro x hx
  obtain ⟨i, -, rfl⟩ := mem_window.1 hx
  exact Finset.mem_range.2 (Nat.mod_lt _ hc)

/-- `c` items or more fill the ring. -/
theorem window_eq_range (hc : 0 < c) (hn : c ≤ n) : window c p n = Finset.range c := by
  refine Finset.Subset.antisymm (window_subset_range hc) ?_
  refine Finset.Subset.trans (Finset.eq_of_subset_of_card_le (window_subset_range hc) ?_).ge
    (window_subset (Nat.le_refl p) (Nat.add_le_add_left hn p))
  rw [card_window (Nat.le_refl c), Finset.card_range]

/-! ## Streams cut into extents -/

/-- The items `pos, …, pos + len - 1` of a stream. -/
structure Extent where
  pos : Nat
  len : Nat
deriving Repr, DecidableEq

/-- The first item after the extent. -/
def Extent.stop (x : Extent) : Nat := x.pos + x.len

/-- The places, in a ring of `c`, of the items of the extent from item `d` on. -/
def Extent.from (x : Extent) (c d : Nat) : Finset Nat := window c (max x.pos d) (x.stop - max x.pos d)

/-- The extents, the newest first, cut the items `b, …, e - 1` into consecutive pieces. -/
def Tiles (b : Nat) : List Extent → Nat → Prop
  | [], e => e = b
  | x :: xs, e => x.stop = e ∧ Tiles b xs x.pos

namespace Tiles

variable {b e d : Nat} {x : Extent} {xs : List Extent}

section

variable (h : Tiles b xs e)

include h

theorem le : b ≤ e := by
  induction xs generalizing e with
  | nil => exact Nat.le_of_eq h.symm
  | cons x xs ih =>
    have := ih h.2
    have := h.1
    simp only [Extent.stop] at this
    omega

theorem mem (hx : x ∈ xs) : b ≤ x.pos ∧ x.stop ≤ e := by
  induction xs generalizing e with
  | nil => cases hx
  | cons y ys ih =>
    have hy := h.1
    rcases List.mem_cons.1 hx with rfl | hx
    · exact ⟨h.2.le, Nat.le_of_eq hy⟩
    · have := ih h.2 hx
      simp only [Extent.stop] at hy this ⊢
      omega

/-- An older extent ends before a newer one starts. -/
theorem pairwise : xs.Pairwise fun x y => y.stop ≤ x.pos := by
  induction xs generalizing e with
  | nil => exact List.Pairwise.nil
  | cons x xs ih => exact List.Pairwise.cons (fun y hy => (h.2.mem hy).2) (ih h.2)

theorem exists_mem {i : Nat} (h1 : b ≤ i) (h2 : i < e) :
    ∃ x ∈ xs, x.pos ≤ i ∧ i < x.stop := by
  induction xs generalizing e with
  | nil =>
    have : e = b := h
    omega
  | cons x xs ih =>
    by_cases hi : x.pos ≤ i
    · exact ⟨x, List.mem_cons_self .., hi, by rw [h.1]; exact h2⟩
    · obtain ⟨y, hy, hyi⟩ := ih h.2 (by omega)
      exact ⟨y, List.mem_cons_of_mem _ hy, hyi⟩

/-- From an item `d` on, with at most `c` items after it, the extents share no place. -/
theorem disjoint_from (hc : e ≤ d + c) :
    xs.Pairwise fun x y => Disjoint (x.from c d) (y.from c d) := by
  have hmem : xs.Pairwise fun x y => y.stop ≤ x.pos ∧ x.stop ≤ e := by
    refine (List.pairwise_iff_forall_sublist.2 fun {x y} hxy => ?_)
    exact ⟨List.pairwise_iff_forall_sublist.1 h.pairwise hxy,
      (h.mem (hxy.subset (List.mem_cons_self ..))).2⟩
  refine hmem.imp fun {x y} hxy => ?_
  rcases Nat.lt_or_ge (max y.pos d) y.stop with hy | hy
  · simp only [Extent.from, Extent.stop] at hxy hy ⊢
    exact (window_disjoint (by omega) (by omega)).symm
  · rw [Extent.from, Extent.from, Nat.sub_eq_zero_of_le hy, window_zero]
    exact Finset.disjoint_empty_right _

/-- From an item `d` on, the extents make up the window of the items `d, …, e - 1`. -/
theorem mem_from (hd : b ≤ d) {i : Nat} :
    (∃ x ∈ xs, i ∈ x.from c d) ↔ i ∈ window c d (e - d) := by
  constructor
  · rintro ⟨x, hx, hi⟩
    have hle := (h.mem hx).2
    rcases Nat.lt_or_ge (max x.pos d) x.stop with hlt | hge
    · exact window_subset (by omega) (by omega) hi
    · rw [Extent.from, Nat.sub_eq_zero_of_le hge, window_zero] at hi
      cases hi
  · intro hi
    obtain ⟨k, hk, rfl⟩ := mem_window.1 hi
    obtain ⟨x, hx, h1, h2⟩ := h.exists_mem (i := d + k) (by omega) (by omega)
    refine ⟨x, hx, mem_window.2 ⟨d + k - max x.pos d, by omega, ?_⟩⟩
    rw [Nat.add_sub_cancel' (by omega)]

end

end Tiles

end Ufs.Ring
