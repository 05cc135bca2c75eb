import Mathlib.Data.List.Basic

/-!
# Runs of a labelled transition function

A system is a function `step : α → σ → Option σ`: the label says which of the possible steps is
taken, and `none` that it is not enabled. `run` takes a list of labels from a state, and `Along step
P` says that a property of a label and of the state it is taken in holds at every step of a run.
`run_inv` and `along_inv` are the induction on runs: what every step preserves holds in the state a
run leads to, and what an invariant gives of one step holds along the run. `Justified` says of a
trace that each of its events was allowed by the ones before it.
-/

namespace Ufs

open List

variable {α σ : Type*} (step : α → σ → Option σ)

/-- The state that a list of labels leads to, when every step is enabled. -/
def run : List α → σ → Option σ
  | [], s => some s
  | a :: as, s => (step a s).bind (run as)

/-- `P a s` for every label `a` of the run, `s` being the state it is taken in. -/
def Along (P : α → σ → Prop) : List α → σ → Prop
  | [], _ => True
  | a :: as, s => P a s ∧ match step a s with
    | some s' => Along P as s'
    | none => True

instance Along.decidable (P : α → σ → Prop) [∀ a s, Decidable (P a s)] :
    ∀ as s, Decidable (Along step P as s)
  | [], _ => isTrue trivial
  | a :: as, s =>
    match h : step a s with
    | some s' =>
      have := Along.decidable P as s'
      decidable_of_iff (P a s ∧ Along step P as s') (by simp only [Along, h])
    | none => decidable_of_iff (P a s) (by simp only [Along, h, and_true])

@[simp] theorem run_nil (s : σ) : run step [] s = some s := rfl

theorem run_cons (a : α) (as : List α) (s : σ) : run step (a :: as) s = (step a s).bind (run step as) := rfl

variable {step}

/-- A run of at least one step, taken apart at its first step. -/
theorem run_cons_eq_some {a : α} {as : List α} {s s' : σ} :
    run step (a :: as) s = some s' ↔ ∃ s1, step a s = some s1 ∧ run step as s1 = some s' := by
  rw [run_cons, Option.bind_eq_some_iff]

theorem run_append {as bs : List α} {s : σ} :
    run step (as ++ bs) s = (run step as s).bind (run step bs) := by
  induction as generalizing s with
  | nil => rfl
  | cons a as ih =>
    rw [cons_append, run_cons, run_cons]
    cases step a s with
    | none => rfl
    | some s1 => exact ih

theorem along_cons_some {P : α → σ → Prop} {a : α} {as : List α} {s s1 : σ} (h : step a s = some s1) :
    Along step P (a :: as) s ↔ P a s ∧ Along step P as s1 := by
  simp only [Along, h]

/-- What holds along a run holds along the run it starts with and, from the state
that one leads to, along the rest. -/
theorem along_append {P : α → σ → Prop} {as bs : List α} {s s1 : σ} (h : run step as s = some s1) :
    Along step P (as ++ bs) s ↔ Along step P as s ∧ Along step P bs s1 := by
  induction as generalizing s with
  | nil => cases h; simp [Along]
  | cons a as ih =>
    obtain ⟨s2, h1, h2⟩ := run_cons_eq_some.1 h
    rw [cons_append, along_cons_some h1, along_cons_some h1, ih h2, and_assoc]

theorem along_of_mem {P : α → σ → Prop} {as : List α} (h : ∀ a ∈ as, ∀ s, P a s) (s : σ) :
    Along step P as s := by
  induction as generalizing s with
  | nil => trivial
  | cons a as ih =>
    refine ⟨h a (mem_cons_self ..) s, ?_⟩
    split
    · exact ih (fun b hb => h b (mem_cons_of_mem _ hb)) _
    · trivial

/-- A property of the labels of a run, and one that holds along it. -/
theorem along_and_mem {P : α → Prop} {Q : α → σ → Prop} {as : List α} {s : σ} (hP : ∀ a ∈ as, P a)
    (hQ : Along step Q as s) : Along step (fun a s => P a ∧ Q a s) as s := by
  induction as generalizing s with
  | nil => trivial
  | cons a as ih =>
    refine ⟨⟨hP a (mem_cons_self ..), hQ.1⟩, ?_⟩
    cases h : step a s with
    | none => trivial
    | some s1 =>
      rw [along_cons_some h] at hQ
      exact ih (fun b hb => hP b (mem_cons_of_mem _ hb)) hQ.2

/-- The invariant rule: what every step that meets `P` preserves holds in the state
a run along `P` leads to. -/
theorem run_inv {P : α → σ → Prop} {I : σ → Prop}
    (hstep : ∀ a s s', I s → P a s → step a s = some s' → I s')
    {as : List α} {s s' : σ} (h : run step as s = some s') (hp : Along step P as s) (hi : I s) :
    I s' := by
  induction as generalizing s with
  | nil => cases h; exact hi
  | cons a as ih =>
    obtain ⟨s1, h1, h2⟩ := run_cons_eq_some.1 h
    rw [along_cons_some h1] at hp
    exact ih h2 hp.2 (hstep a s s1 hi hp.1 h1)

/-- `run_inv` without a condition on the steps. -/
theorem run_inv' {I : σ → Prop} (hstep : ∀ a s s', I s → step a s = some s' → I s')
    {as : List α} {s s' : σ} (h : run step as s = some s') (hi : I s) : I s' :=
  run_inv (P := fun _ _ => True) (fun a s s' hi _ => hstep a s s' hi) h
    (along_of_mem (fun _ _ _ => trivial) s) hi

/-- The rule for properties of single steps: along a run whose steps meet `P`, every
step has what the invariant gives of it. -/
theorem along_inv {P Q : α → σ → Prop} {I : σ → Prop} (hQ : ∀ a s, I s → P a s → Q a s)
    (hstep : ∀ a s s', I s → P a s → step a s = some s' → I s')
    {as : List α} {s : σ} (hp : Along step P as s) (hi : I s) : Along step Q as s := by
  induction as generalizing s with
  | nil => trivial
  | cons a as ih =>
    refine ⟨hQ a s hi hp.1, ?_⟩
    cases h : step a s with
    | none => trivial
    | some s1 =>
      rw [along_cons_some h] at hp
      exact ih hp.2 (hstep a s s1 hi hp.1 h)

/-- `along_inv` for a run whose steps are all enabled. -/
theorem along_of_run {P Q : α → σ → Prop} {I : σ → Prop}
    (hQ : ∀ a s s', I s → P a s → step a s = some s' → Q a s)
    (hstep : ∀ a s s', I s → P a s → step a s = some s' → I s')
    {as : List α} {s s' : σ} (h : run step as s = some s') (hp : Along step P as s) (hi : I s) :
    Along step Q as s := by
  induction as generalizing s with
  | nil => trivial
  | cons a as ih =>
    obtain ⟨s1, h1, h2⟩ := run_cons_eq_some.1 h
    rw [along_cons_some h1] at hp ⊢
    exact ⟨hQ a s s1 hi hp.1 h1, ih h2 hp.2 (hstep a s s1 hi hp.1 h1)⟩

/-- What a step of a loop that may fail keeps, the loop keeps. -/
theorem foldlM_keeps {β γ : Type*} {f : β → α → Option β} {g : β → γ}
    (h : ∀ b a b', f b a = some b' → g b' = g b) {as : List α} {b b' : β} (hf : as.foldlM f b = some b') :
    g b' = g b := by
  induction as generalizing b with
  | nil => cases hf; rfl
  | cons a as ih =>
    rw [foldlM_cons] at hf
    obtain ⟨b1, h1, h2⟩ := Option.bind_eq_some_iff.1 hf
    exact (ih h2).trans (h b a b1 h1)

section Trace

variable {ε : Type*} {P : List ε → ε → Prop} {tr : List ε} {e : ε}

/-- `P pre e` for every event `e` of the trace, `pre` being the events before it. -/
def Justified (P : List ε → ε → Prop) (tr : List ε) : Prop := ∀ pre e post, tr = pre ++ e :: post → P pre e

theorem justified_nil : Justified P [] := by
  intro pre e post h
  simp at h

theorem Justified.concat (h : Justified P tr) (he : P tr e) : Justified P (tr ++ [e]) := by
  intro pre e' post heq
  -- the event is the new one, or it is in the old trace
  rcases eq_nil_or_concat post with rfl | ⟨post', x, rfl⟩
  · obtain ⟨rfl, hx⟩ := append_inj' heq rfl
    obtain rfl := singleton_inj.1 hx
    exact he
  · apply h pre e' post'
    rw [concat_eq_append, ← cons_append, ← append_assoc] at heq
    exact (append_inj' heq rfl).1

end Trace

end Ufs
