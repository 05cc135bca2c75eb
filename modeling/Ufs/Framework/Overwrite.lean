import Mathlib.Data.List.Basic

/-!
# Functions that overwrite

A state is seen as cells (`get`). A function overwrites when it gives each cell a
value that does not depend on the state, or leaves it alone. Such functions compose,
and running one again from a state in which some cells are old and some are new
gives the new state (`Overwrites.recovers`): what redo recovery rests on.
-/

namespace Ufs

variable {σ ι : Type*} {τ : ι → Type*} {get : σ → (i : ι) → τ i} {f g : σ → σ}

/-- `f` writes `w i` to cell `i`, or leaves it alone. -/
def Overwrites (get : σ → (i : ι) → τ i) (f : σ → σ) : Prop :=
  ∃ w : (i : ι) → Option (τ i), ∀ s i, get (f s) i = (w i).getD (get s i)

namespace Overwrites

theorem refl : Overwrites get fun s => s := ⟨fun _ => none, fun _ _ => rfl⟩

/-- A function that writes one cell. -/
theorem single [DecidableEq ι] (i : ι) (v : τ i) (hi : ∀ s, get (f s) i = v)
    (hother : ∀ s j, j ≠ i → get (f s) j = get s j) : Overwrites get f := by
  refine ⟨Function.update (fun _ => none) i (some v), fun s j => ?_⟩
  by_cases h : j = i
  · subst h
    rw [Function.update_self]
    exact hi s
  · rw [Function.update_of_ne h]
    exact hother s j h

theorem comp (hf : Overwrites get f) (hg : Overwrites get g) : Overwrites get fun s => g (f s) := by
  obtain ⟨v, hv⟩ := hf
  obtain ⟨w, hw⟩ := hg
  refine ⟨fun i => (w i).or (v i), fun s i => ?_⟩
  rw [hw, hv]
  show _ = ((w i).or (v i)).getD _
  cases w i <;> rfl

theorem ite (hf : Overwrites get f) (c : Bool) : Overwrites get fun s => if c then f s else s := by
  cases c
  · exact refl
  · exact hf

theorem foldl {α : Type*} {f : σ → α → σ} (hf : ∀ a, Overwrites get fun s => f s a) (as : List α) :
    Overwrites get fun s => as.foldl f s := by
  induction as with
  | nil => exact refl
  | cons a as ih => exact (hf a).comp ih

/-- From a state whose cells are each as before `f` or as after it, `f` gives the state after it. -/
theorem recovers (hf : Overwrites get f) {s m : σ} (hm : ∀ i, get m i = get s i ∨ get m i = get (f s) i) (i : ι) :
    get (f m) i = get (f s) i := by
  obtain ⟨w, hw⟩ := hf
  have hi := hm i
  rw [hw s i] at hi
  rw [hw, hw]
  cases hwi : w i with
  | some v => rfl
  | none =>
    rw [hwi] at hi
    exact hi.elim (fun h => h) fun h => h

end Overwrites

end Ufs
