import Ufs.Framework.Run

/-!
# Infinite executions and queues that are served fairly

`Execution` is an infinite run of a labelled transition function in which nothing may
happen for any time: `none` is no step. `Execution.inv` is the invariant rule.

A queue changes by messages that are added at its end and, when it is served, by
its first message going (`Queue`). If it is served again and again while there are
messages, every message comes to its front and goes (`Queue.served`), by induction on the
number of messages before it.
-/

namespace Ufs

open List

/-- An infinite run, with times at which nothing happens. -/
def Execution {α σ : Type*} (step : α → σ → Option σ) (s : ℕ → σ) (l : ℕ → Option α) : Prop :=
  ∀ t, match l t with
    | none => s (t + 1) = s t
    | some a => step a (s t) = some (s (t + 1))

section

variable {α σ : Type*} {step : α → σ → Option σ} {s : ℕ → σ} {l : ℕ → Option α} (h : Execution step s l)

include h

theorem Execution.waits {t : ℕ} (hl : l t = none) : s (t + 1) = s t := by
  have ht := h t
  rwa [hl] at ht

theorem Execution.steps {t : ℕ} {a : α} (hl : l t = some a) : step a (s t) = some (s (t + 1)) := by
  have ht := h t
  rwa [hl] at ht

theorem Execution.inv {I : σ → Prop} (hstep : ∀ a s s', I s → step a s = some s' → I s') (h0 : I (s 0)) (t : ℕ) :
    I (s t) := by
  induction t with
  | zero => exact h0
  | succ t ih =>
    cases hl : l t with
    | none => exact h.waits hl ▸ ih
    | some a => exact hstep a _ _ ih (h.steps hl)

end

/-- A run, and nothing after it, is an execution. -/
theorem Execution.of_run {α σ : Type*} {step : α → σ → Option σ} {ls : List α} {s s' : σ}
    (h : run step ls s = some s') :
    Execution step (fun t => (run step (ls.take t) s).getD s) (fun t => ls[t]?) := by
  intro t
  by_cases ht : t < ls.length
  · have hsplit : ls.take t ++ ls[t] :: ls.drop (t + 1) = ls := by
      rw [← drop_eq_getElem_cons ht, take_append_drop]
    rw [← hsplit, run_append] at h
    obtain ⟨s1, h1, h2⟩ := Option.bind_eq_some_iff.1 h
    obtain ⟨s2, h3, -⟩ := run_cons_eq_some.1 h2
    have hnext : run step (ls.take (t + 1)) s = some s2 := by
      rw [take_succ_eq_append_getElem ht, run_append, h1]
      exact run_cons_eq_some.2 ⟨s2, h3, rfl⟩
    simp only [List.getElem?_eq_getElem ht, hnext, h1, Option.getD_some]
    exact h3
  · have hle : ls.length ≤ t := Nat.le_of_not_lt ht
    simp only [List.getElem?_eq_none hle, take_of_length_le hle,
      take_of_length_le (Nat.le_succ_of_le hle)]

variable {M : Type*} {q : ℕ → List M} {serves : ℕ → Prop}

/-- How a queue changes: at the times `serves` its first message goes, and messages are added at its
end. -/
def Queue (q : ℕ → List M) (serves : ℕ → Prop) : Prop :=
  ∀ t, (serves t ∧ ∃ m rest added, q t = m :: rest ∧ q (t + 1) = rest ++ added) ∨
    (¬ serves t ∧ ∃ added, q (t + 1) = q t ++ added)

/-- Until it is served the queue only grows. -/
theorem Queue.next (h : Queue q serves) : ∀ {d t : ℕ}, serves (t + d) →
    ∃ t' ≥ t, serves t' ∧ ∃ added, q t' = q t ++ added
  | 0, t, hs => ⟨t, Nat.le_refl t, hs, [], (append_nil _).symm⟩
  | d + 1, t, hs => by
    rcases h t with ⟨ht, -⟩ | ⟨-, added, ht⟩
    · exact ⟨t, Nat.le_refl t, ht, [], (append_nil _).symm⟩
    · obtain ⟨t', hle, hs', added', hq⟩ := h.next (d := d) (t := t + 1) (by rwa [Nat.add_right_comm])
      exact ⟨t', by omega, hs', added ++ added', by rw [hq, ht, append_assoc]⟩

/-- Every message comes to the front of the queue at a time it is served. -/
theorem Queue.served (h : Queue q serves) (hfair : ∀ t, q t ≠ [] → ∃ t' ≥ t, serves t') {m : M} {t : ℕ}
    (hm : m ∈ q t) : ∃ t' ≥ t, serves t' ∧ ∃ rest, q t' = m :: rest := by
  obtain ⟨pre, post, hq⟩ := append_of_mem hm
  induction pre generalizing t post with
  | nil =>
    obtain ⟨t', hle, hs⟩ := hfair t (by simp [hq])
    obtain ⟨t'', hle', hs', added, hq'⟩ := h.next (d := t' - t) (t := t) (by rwa [Nat.add_sub_cancel' hle])
    exact ⟨t'', hle', hs', post ++ added, by rw [hq', hq]; rfl⟩
  | cons x pre ih =>
    obtain ⟨t', hle, hs⟩ := hfair t (by simp [hq])
    obtain ⟨t'', hle', hs', added, hq'⟩ := h.next (d := t' - t) (t := t) (by rwa [Nat.add_sub_cancel' hle])
    -- one message less is before it
    rcases h t'' with ⟨-, m', rest, added', hcons, hnext⟩ | ⟨hn, -⟩
    · rw [hq', hq, cons_append, cons_append, List.cons.injEq] at hcons
      rw [← hcons.2, append_assoc, append_assoc, cons_append] at hnext
      obtain ⟨t3, hle3, hs3, hq3⟩ := ih (by simp [hnext]) _ hnext
      exact ⟨t3, by omega, hs3, hq3⟩
    · exact absurd hs' hn

/-- A count that always grows while it is below a number comes to it. -/
theorem exists_le_of_grows {f : ℕ → ℕ} {n t : ℕ} (h : ∀ t' ≥ t, f t' < n → ∃ t'' ≥ t', f t' < f t'') :
    ∃ t' ≥ t, n ≤ f t' := by
  induction hd : n - f t using Nat.strongRecOn generalizing t with
  | _ d ih =>
  by_cases hn : f t < n
  · obtain ⟨t', hle, hlt⟩ := h t (Nat.le_refl t) hn
    obtain ⟨t'', hle', hr⟩ := ih (n - f t') (by omega) (fun u hu => h u (Nat.le_trans hle hu)) rfl
    exact ⟨t'', Nat.le_trans hle hle', hr⟩
  · exact ⟨t, Nat.le_refl t, Nat.le_of_not_lt hn⟩

end Ufs
