import Mathlib.Data.List.ReduceOption
import Mathlib.Data.List.Perm.Basic
import Mathlib.Data.List.Nodup

/-!
# A pool of resources and who holds them

`all` are the resources of a pool, `free` those in it, and `held` says of each
holder, by its place in the list, which one it has taken. `Balanced` says that
every resource is in one of the two places, once. Taking a free resource and
giving it back keep it (`Balanced.take`, `Balanced.give`), and so does a new
holder with nothing; the counts then add up (`Balanced.length`), and no
resource has two holders (`Balanced.eq_of_held`).
-/

namespace Ufs.Pool

open List

variable {β : Type*} {all free : List β} {held : List (Option β)}

def Balanced (all free : List β) (held : List (Option β)) : Prop := (free ++ held.reduceOption).Perm all

/-- A holder that had nothing takes `b`. -/
theorem reduceOption_set_some {i : ℕ} {b : β} (h : held[i]? = some none) :
    (held.set i (some b)).reduceOption.Perm (b :: held.reduceOption) := by
  induction held generalizing i with
  | nil => cases h
  | cons a held ih =>
    cases i with
    | zero =>
      obtain rfl : a = none := by simpa using h
      exact List.Perm.refl _
    | succ i =>
      have ih' := ih (i := i) (by simpa using h)
      cases a with
      | none => exact ih'
      | some c =>
        simp only [set_cons_succ, reduceOption_cons_of_some]
        exact (ih'.cons c).trans (List.Perm.swap b c _)

theorem balanced_start (all : List β) : Balanced all all [] := by simp [Balanced]

theorem Balanced.newHolder (h : Balanced all free held) : Balanced all free (held ++ [none]) := by
  simpa [Balanced, reduceOption_append] using h

theorem Balanced.take {i : ℕ} {b : β} (h : Balanced all (b :: free) held) (hi : held[i]? = some none) :
    Balanced all free (held.set i (some b)) := by
  refine List.Perm.trans ?_ h
  exact ((reduceOption_set_some hi).append_left free).trans perm_middle

theorem Balanced.give {i : ℕ} {b : β} (h : Balanced all free held) (hi : held[i]? = some (some b)) :
    Balanced all (free ++ [b]) (held.set i none) := by
  obtain ⟨hlt, hb⟩ := List.getElem?_eq_some_iff.1 hi
  -- `held` is what the holder had before, with `b` put back
  have hback : (held.set i none).set i (some b) = held := by
    rw [set_set, ← hb, set_getElem_self]
  have hp := reduceOption_set_some (b := b) (List.getElem?_set_self (a := none) hlt)
  rw [hback] at hp
  refine List.Perm.trans ?_ h
  rw [append_assoc]
  exact hp.symm.append_left free

/-- The free resources and the holders of one are together as many as there are resources. -/
theorem Balanced.length (h : Balanced all free held) :
    free.length + held.countP Option.isSome = all.length := by
  rw [← List.Perm.length_eq h, length_append, List.reduceOption, length_filterMap_eq_countP]
  rfl

/-- No resource has two holders. -/
theorem Balanced.eq_of_held (h : Balanced all free held) (hall : all.Nodup) {i j : ℕ} {b : β}
    (hi : held[i]? = some (some b)) (hj : held[j]? = some (some b)) : i = j := by
  have hnd : held.reduceOption.Nodup := (nodup_append.1 (h.nodup_iff.2 hall)).2.1
  have hpw := pairwise_iff_getElem.1 (pairwise_filterMap.1 hnd)
  obtain ⟨hi', hie⟩ := List.getElem?_eq_some_iff.1 hi
  obtain ⟨hj', hje⟩ := List.getElem?_eq_some_iff.1 hj
  rcases Nat.lt_trichotomy i j with hlt | heq | hgt
  · exact absurd rfl (hpw i j hi' hj' hlt b hie b hje)
  · exact heq
  · exact absurd rfl (hpw j i hj' hi' hgt b hje b hie)

end Ufs.Pool
