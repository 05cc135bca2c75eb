import Ufs.Impl.UnlinkWalk
import Ufs.Proof.Layout.Extents

/-!
# An unlink visits the extents of the file

The extents of a file are filled one after the other, so what is left of the size before an extent tells whether
the extent has bytes of the file. Only a last extent that is full has so many bytes that the product is 0.
-/

namespace Ufs.Proof.Layout

open Impl InodeBlocks
open List

variable {d : InodeBlocks} {size : ℤ} {ks : List (Fin nextentArr)}

/-- The blocks are those that the bytes of the file need, and none of them is the first data block of the device. -/
structure Covers (d : InodeBlocks) (size : ℤ) : Prop where
  wellFormed : WellFormed d
  le : size ≤ d.iBlockCount * bsize
  lt : d.iBlockCount * bsize < size + bsize
  pos : ∀ k, (d.extArray k).numBlocks ≠ 0 → 0 < (d.extArray k).blockNo

theorem visits_eq (hlt : ∀ k ∈ ks, (d.extArray k).numBlocks < 2 ^ 20)
    (horder : ks.Pairwise fun j k => (d.extArray k).numBlocks ≠ 0 → (d.extArray j).numBlocks ≠ 0)
    (hle : size ≤ (ks.map fun k => (d.extArray k).numBlocks).sum * bsize)
    (hgt : (ks.map fun k => (d.extArray k).numBlocks).sum * bsize < size + bsize) :
    d.visits size ks = some (ks.filter fun k => (d.extArray k).numBlocks ≠ 0) := by
  induction ks generalizing size with
  | nil => exact if_neg (by simpa using hle)
  | cons k ks ih =>
    rw [pairwise_cons] at horder
    have hk := hlt k (mem_cons_self ..)
    have hmod : (d.extArray k).numBlocks * bsize % 2 ^ 32 = (d.extArray k).numBlocks * bsize :=
      Nat.mod_eq_of_lt (by unfold bsize; omega)
    simp only [map_cons, sum_cons, Nat.cast_add, bsize] at hle hgt hmod
    unfold visits
    by_cases hzero : (d.extArray k).numBlocks = 0
    · -- nothing is left when an extent is empty
      have hrest : ∀ j ∈ ks, (d.extArray j).numBlocks = 0 := fun j hj => by
        by_contra hne
        exact horder.1 j hj hne hzero
      have hsum : (ks.map fun k => (d.extArray k).numBlocks).sum = 0 := by
        rw [sum_eq_zero_iff]
        intro n hn
        obtain ⟨j, hj, rfl⟩ := mem_map.1 hn
        exact hrest j hj
      rw [if_neg (by omega), filter_eq_nil_iff.2]
      intro j hj
      rcases mem_cons.1 hj with rfl | hj
      · simp [hzero]
      · simp [hrest j hj]
    · have hrec := @ih (size - ((d.extArray k).numBlocks * 4096 : ℕ)) (fun j hj => hlt j (mem_cons_of_mem _ hj))
        horder.2 (by unfold bsize; omega) (by unfold bsize; omega)
      rw [if_pos (by omega), bsize, hmod, hrec, filter_cons_of_pos (by simpa using hzero)]
      rfl

theorem visits_last (hfull : (d.extArray 6).numBlocks = 2 ^ 20) (hlt : ∀ k ∈ ks, (d.extArray k).numBlocks < 2 ^ 20)
    (hgt : (ks.map fun k => (d.extArray k).numBlocks).sum * bsize < size) : d.visits size (ks ++ [6]) = none := by
  induction ks generalizing size with
  | nil =>
    have hpos : 0 < size := by simpa using hgt
    simp [visits, hfull, hpos, bsize]
  | cons k ks ih =>
    have hk := hlt k (mem_cons_self ..)
    simp only [map_cons, sum_cons, Nat.cast_add, bsize] at hgt
    rw [cons_append, visits, if_pos (by omega), Option.map_eq_none_iff]
    refine ih (fun j hj => hlt j (mem_cons_of_mem _ hj)) ?_
    rw [Nat.mod_eq_of_lt (by unfold bsize; omega)]
    unfold bsize
    omega

theorem WellFormed.sum_finRange (h : WellFormed d) : ((List.finRange nextentArr).map fun k =>
    (d.extArray k).numBlocks).sum = d.iBlockCount := by
  rw [h.count, Fin.sum_univ_def]

theorem unit_last : ∀ k : Fin nextentArr, if k = 6 then extentArrIdx2BlockAllocUnit k = 2 ^ 20 else
    extentArrIdx2BlockAllocUnit k < 2 ^ 20 := by decide +kernel

theorem Covers.visited (h : Covers d size) : d.visited size =
    if (d.extArray 6).numBlocks = 2 ^ 20 then none else some
      ((List.finRange nextentArr).filter fun k => (d.extArray k).numBlocks ≠ 0) := by
  have hsum := h.wellFormed.sum_finRange
  have hle := h.le
  have hlt := h.lt
  unfold InodeBlocks.visited
  split
  · next hfull =>
    have hlist : List.finRange nextentArr = [0, 1, 2, 3, 4, 5] ++ [6] := rfl
    rw [hlist, map_append, sum_append] at hsum
    rw [hlist]
    refine visits_last hfull (fun k hk => ?_) ?_
    · have hunit := unit_last k
      rw [if_neg (by rintro rfl; exact absurd hk (by decide))] at hunit
      exact (h.wellFormed.le k).trans_lt hunit
    · simp only [map_cons, map_nil, sum_cons, sum_nil, hfull, bsize] at hsum hlt ⊢
      omega
  · next hfull =>
    refine visits_eq (fun k _ => ?_) (pairwise_lt_finRange _ |>.imp fun hjk hne => ?_) (by rw [hsum]; exact hle)
      (by rw [hsum]; exact hlt)
    · have hunit := unit_last k
      have hk := h.wellFormed.le k
      split_ifs at hunit with h6
      · subst h6
        omega
      · omega
    · rw [h.wellFormed.inOrder _ _ hjk hne]
      exact (unit_pos _).ne'

/-- A file of one block. -/
def oneBlock : InodeBlocks := ⟨1, fun k => if k.val = 0 then ⟨5, 1, 0⟩ else ⟨0, 0, 0⟩⟩

end Ufs.Proof.Layout
