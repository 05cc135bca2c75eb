import Mathlib.Data.Prod.Lex
import Mathlib.Tactic.Linarith
import Ufs.Impl.Comparators

/-!
# The comparisons of the load manager as orders

Over the elements of a list, `std::sort` asks for a strict weak ordering. A comparison that is the
order of keys is one. The comparisons that put the primary first say that it comes before itself.
-/

namespace Ufs.Proof.LoadManager

open Impl CoreSummary
open RoutingTarget (before ext sameLevel)

/-- What `std::sort` asks of a comparison, over the elements of a list. -/
structure StrictWeakOn {α : Type} (l : List α) (before : α → α → Bool) : Prop where
  irrefl : ∀ a ∈ l, ¬ before a a
  asymm : ∀ a ∈ l, ∀ b ∈ l, before a b → ¬ before b a
  trans : ∀ a ∈ l, ∀ b ∈ l, ∀ c ∈ l, before a b → before b c → before a c
  incomp : ∀ a ∈ l, ∀ b ∈ l, ∀ c ∈ l, ¬ before a b ∧ ¬ before b a → ¬ before b c ∧ ¬ before c b → ¬ before a c ∧
    ¬ before c a

theorem StrictWeakOn.of_key {α κ : Type} [LinearOrder κ] {l : List α} {before : α → α → Bool} (key : α → κ)
    (h : ∀ a ∈ l, ∀ b ∈ l, (before a b ↔ key a < key b)) : StrictWeakOn l before := by
  constructor
  · intro a ha
    simp [h a ha a ha]
  · intro a ha b hb
    simpa only [h a ha b hb, h b hb a ha] using lt_asymm
  · intro a ha b hb c hc
    simpa only [h a ha b hb, h b hb c hc, h a ha c hc] using lt_trans
  · intro a ha b hb c hc
    simp only [h a ha b hb, h b hb a ha, h b hb c hc, h c hc b hb, h a ha c hc, h c hc a ha, not_lt]
    exact fun hab hbc => ⟨hbc.1.trans hab.1, hab.2.trans hbc.2⟩

theorem spreadBefore_strictWeak_iff (l : List CoreSummary) :
    StrictWeakOn l spreadBefore ↔ ∀ s ∈ l, ¬ (s.isMaster ∧ 1 < s.numTau) := by
  refine ⟨fun h s hs hm => h.irrefl s hs (by simp [spreadBefore, hm]), fun h => ?_⟩
  refine .of_key (fun s => toLex (-(s.numTau : ℤ), toLex (-s.avgRecvQlen, -s.cpuUt))) fun a ha b hb => ?_
  rw [spreadBefore, if_neg (h a ha), if_neg (h b hb)]
  split_ifs with htau hqlen <;> simp_all [Prod.Lex.toLex_lt_toLex]

theorem underBefore_strictWeak (l : List CoreSummary) : StrictWeakOn l underBefore := by
  refine .of_key (fun s => if s.isMaster then ⊤ else (s.cpuUt : WithTop ℚ)) fun a _ b _ => ?_
  unfold underBefore
  split_ifs <;> simp

theorem overBefore_strictWeak_iff (l : List CoreSummary) : StrictWeakOn l overBefore ↔ ∀ s ∈ l, ¬ s.isMaster := by
  refine ⟨fun h s hs hm => h.irrefl s hs (by simp [overBefore, hm]), fun h =>
    .of_key (fun s => -s.cpuUt) fun a ha b hb => ?_⟩
  simp [overBefore, h a ha, h b hb]

/-! ## Creations -/

section

variable {round : ℚ → ℚ} (hmono : Monotone round) (hneg : ∀ x, round (-x) = -round x) {a b c : RoutingTarget}

include hneg

theorem sameLevel_comm : a.sameLevel round b ↔ b.sameLevel round a := by
  unfold sameLevel
  rw [← neg_sub, hneg, abs_neg]

theorem round_zero : round 0 = 0 := by
  have := hneg 0
  rw [neg_zero] at this
  linarith

include hmono

/-- What lies between two threads of one level is on that level. -/
theorem sameLevel_between (hab : a.sameLevel round b) (hbc : b.ut ≤ c.ut) (hca : c.ut ≤ a.ut) :
    a.sameLevel round c := by
  unfold sameLevel at hab ⊢
  have hle : round (a.ut - c.ut) ≤ round (a.ut - b.ut) := hmono (by linarith)
  have hpos : 0 ≤ round (a.ut - c.ut) := round_zero hneg ▸ hmono (by linarith)
  rw [abs_of_nonneg hpos]
  exact (hle.trans (le_abs_self _)).trans_lt hab

omit hmono hneg in
theorem before_iff : a.before round b ↔ a.sameLevel round b ∧
    (b.numCrt < a.numCrt ∨ a.numCrt = b.numCrt ∧ b.ut < a.ut) ∨
      ¬ a.sameLevel round b ∧ b.ut < a.ut := by
  unfold before
  split_ifs with hs hn
  · simp [hs, hn]
  · simp [hs, hn]
  · simp [hs]

omit hmono in
theorem eq_of_incomp (hab : ¬ a.before round b) (hba : ¬ b.before round a) : a = b := by
  rw [before_iff] at hab hba
  rw [sameLevel_comm hneg] at hba
  have hut : a.ut = b.ut := by grind
  have hs : a.sameLevel round b := by
    rw [sameLevel, hut, sub_self, round_zero hneg]
    norm_num
  exact ext hut (by grind)

omit hmono in
theorem before_asymm (hab : a.before round b) : ¬ b.before round a := by
  rw [before_iff] at hab ⊢
  rw [sameLevel_comm hneg]
  grind

/-- Neighbours in utilisation are on one level and the two ends are not, while the creations grow as the utilisations
fall: `a` comes before `c`, `c` before `b` and `b` before `a`. -/
def Circle (round : ℚ → ℚ) (a b c : RoutingTarget) : Prop :=
  a.sameLevel round b ∧ b.sameLevel round c ∧ ¬ a.sameLevel round c ∧ c.ut < a.ut ∧
    a.numCrt < b.numCrt ∧ b.numCrt < c.numCrt

instance (round : ℚ → ℚ) (a b c : RoutingTarget) : Decidable (Circle round a b c) :=
  inferInstanceAs (Decidable (_ ∧ _ ∧ _ ∧ _ ∧ _ ∧ _))

omit hmono in
theorem Circle.before (h : Circle round a b c) : a.before round c ∧ c.before round b ∧ b.before round a := by
  obtain ⟨hab, hbc, hac, hut, hcrt, hcrt'⟩ := h
  rw [before_iff, before_iff, before_iff, sameLevel_comm hneg (a := c), sameLevel_comm hneg (a := b) (b := a)]
  exact ⟨.inr ⟨hac, hut⟩, .inl ⟨hbc, .inl hcrt'⟩, .inl ⟨hab, .inl hcrt⟩⟩

/-- Three that come before each other in a circle, the first with the highest utilisation. -/
theorem circle_of_max (hab : a.before round b) (hbc : b.before round c) (hca : c.before round a)
    (hb : b.ut ≤ a.ut) (hc : c.ut ≤ a.ut) : Circle round a c b := by
  rw [before_iff] at hab hbc hca
  have hca' : c.sameLevel round a ∧ a.numCrt < c.numCrt := by grind
  have hac : a.sameLevel round c := (sameLevel_comm hneg).1 hca'.1
  -- Between `c` and `a` all are on one level, where the creations decide.
  have hbelow : b.ut ≤ c.ut := by
    by_contra hcb
    have hab' := sameLevel_between hmono hneg hac (not_le.1 hcb).le hb
    have hbc' : b.sameLevel round c := by
      by_contra hnot
      have hle : round (b.ut - c.ut) ≤ round (a.ut - c.ut) := hmono (by linarith)
      have hpos : 0 ≤ round (b.ut - c.ut) := round_zero hneg ▸ hmono (by linarith [not_le.1 hcb])
      exact hnot ((abs_of_nonneg hpos).trans_le (hle.trans (le_abs_self _)) |>.trans_lt hac)
    grind
  have hbc' : b.sameLevel round c ∧ c.numCrt < b.numCrt := by grind
  have hnot : ¬ a.sameLevel round b := by grind
  exact ⟨hac, (sameLevel_comm hneg).1 hbc'.1, hnot, by grind, hca'.2, hbc'.2⟩

theorem before_strictWeak_iff (l : List RoutingTarget) : StrictWeakOn l (before round) ↔
    ∀ a ∈ l, ∀ b ∈ l, ∀ c ∈ l, ¬ Circle round a b c := by
  constructor
  · intro h a ha b hb c hc hcircle
    obtain ⟨hac, hcb, hba⟩ := hcircle.before hneg
    exact h.asymm a ha b hb (h.trans a ha c hc b hb hac hcb) hba
  intro h
  refine ⟨fun a _ => by simp [before], fun a _ b _ => before_asymm hneg, ?_, ?_⟩
  · intro a ha b hb c hc hab hbc
    by_contra hac
    have hca : c.before round a := by
      by_contra hca
      cases eq_of_incomp hneg hac hca
      exact before_asymm hneg hab hbc
    -- Whichever of the three has the highest utilisation begins a circle.
    rcases le_total a.ut b.ut with h1 | h1 <;> rcases le_total b.ut c.ut with h2 | h2 <;>
      rcases le_total a.ut c.ut with h3 | h3
    · exact h c hc b hb a ha (circle_of_max hmono hneg hca hab hbc h3 h2)
    · exact h c hc b hb a ha (circle_of_max hmono hneg hca hab hbc (h1.trans h2) h2)
    · exact h b hb a ha c hc (circle_of_max hmono hneg hbc hca hab h2 h1)
    · exact h b hb a ha c hc (circle_of_max hmono hneg hbc hca hab h2 h1)
    · exact h c hc b hb a ha (circle_of_max hmono hneg hca hab hbc h3 h2)
    · exact h a ha c hc b hb (circle_of_max hmono hneg hab hbc hca h1 h3)
    · exact h a ha c hc b hb (circle_of_max hmono hneg hab hbc hca h1 (h2.trans h1))
    · exact h a ha c hc b hb (circle_of_max hmono hneg hab hbc hca h1 h3)
  · intro a _ b _ c _ hab hbc
    cases eq_of_incomp hneg hab.1 hab.2
    exact hbc

end

/-! ## `FormLbMinusPlan` -/

variable (smr : ℤ → CoreSummary)

/-- The idle cores come first, by their numbers, and the primary last. -/
def minusKey (cid : ℤ) : WithTop (ℕ ×ₗ ℚ) :=
  if (smr cid).isMaster then ⊤
  else if (smr cid).cpuUt < kZero then (toLex (0, -cid) : ℕ ×ₗ ℚ) else (toLex (1, (smr cid).cpuUt) : ℕ ×ₗ ℚ)

theorem minusBefore_strictWeak (l : List ℤ) : StrictWeakOn l (minusBefore smr) := by
  refine .of_key (minusKey smr) fun a _ b _ => ?_
  unfold minusBefore minusKey
  by_cases ha : (smr a).isMaster <;> by_cases hb : (smr b).isMaster <;> simp only [ha, hb, if_true, if_false]
  · simp
  · simp
  · split_ifs <;> simp
  · by_cases hia : (smr a).cpuUt < kZero <;> by_cases hib : (smr b).cpuUt < kZero <;>
      simp only [hia, hib, if_true, if_false, and_true, and_false, WithTop.coe_lt_coe, Prod.Lex.toLex_lt_toLex]
    · simp
    · simpa using hia.trans_le (not_lt.1 hib)
    · simpa using (hib.trans_le (not_lt.1 hia)).le
    · simp

/-- In a sorted list nothing but the primary follows the primary. -/
theorem primary_last {pre post : List ℤ} {a : ℤ} (hsorted : (pre ++ a :: post).Pairwise fun x y =>
    ¬ minusBefore smr y x)
    (ha : (smr a).isMaster) : ∀ b ∈ post, (smr b).isMaster := by
  intro b hb
  have hba := List.rel_of_pairwise_cons (List.pairwise_append.1 hsorted).2.1 hb
  by_contra hnot
  simp [minusBefore, ha, hnot] at hba

/-- The comparisons are strict weak orderings, of the list that each sorts, but for two that put the primary first and
for the levels of the threads that create. -/
theorem comparisons_strictWeak {round : ℚ → ℚ} (hmono : Monotone round) (hneg : ∀ x, round (-x) = -round x)
    (summaries under overCores : List CoreSummary) (taus : List (ℕ × ℚ)) (targets : List RoutingTarget)
    (cores : List ℤ) :
    (StrictWeakOn summaries spreadBefore ↔ ∀ s ∈ summaries, ¬ (s.isMaster ∧ 1 < s.numTau)) ∧
    StrictWeakOn under underBefore ∧ (StrictWeakOn overCores overBefore ↔ ∀ s ∈ overCores, ¬ s.isMaster) ∧
    StrictWeakOn taus rebalanceBefore ∧
    (StrictWeakOn targets (RoutingTarget.before round) ↔
      ∀ a ∈ targets, ∀ b ∈ targets, ∀ c ∈ targets, ¬ Circle round a b c) ∧
    StrictWeakOn cores (minusBefore smr) ∧
    ∀ pre a post, (pre ++ a :: post).Pairwise (fun x y => ¬ minusBefore smr y x) → (smr a).isMaster →
      ∀ b ∈ post, (smr b).isMaster :=
  ⟨spreadBefore_strictWeak_iff _, underBefore_strictWeak _, overBefore_strictWeak_iff _,
    .of_key (fun t => -t.2) fun _ _ _ _ => by simp [rebalanceBefore], before_strictWeak_iff hmono hneg _,
    minusBefore_strictWeak smr _, fun _ _ _ => primary_last smr⟩

/-- Two cores, and threads 1/128 apart with the same number of creations. -/
theorem comparisons_strictWeak_three : StrictWeakOn [⟨0, 1, 0, 1⟩, ⟨1, 2, 0, 1 / 2⟩] spreadBefore ∧
    StrictWeakOn [⟨0, 1⟩, ⟨1 / 128, 1⟩, ⟨2 / 128, 1⟩] (RoutingTarget.before id) := by
  have h := comparisons_strictWeak (fun _ => ⟨0, 1, 0, 1⟩) monotone_id (fun _ => rfl)
    [⟨0, 1, 0, 1⟩, ⟨1, 2, 0, 1 / 2⟩] [] [] [] [⟨0, 1⟩, ⟨1 / 128, 1⟩, ⟨2 / 128, 1⟩] []
  exact ⟨h.1.2 (by decide +kernel), h.2.2.2.2.1.2 (by decide +kernel)⟩

/-- A primary with two threads comes before itself, and so does a primary among the overloaded cores. Three threads that
create, 1/128 apart, come before each other in a circle. -/
theorem comparisons_not_strict : ∃ (s : CoreSummary) (a b c : RoutingTarget), spreadBefore s s ∧ overBefore s s ∧
    a.before id b ∧ b.before id c ∧ c.before id a :=
  ⟨⟨0, 2, 0, 0⟩, ⟨0, 2⟩, ⟨1 / 128, 1⟩, ⟨2 / 128, 0⟩, by decide +kernel⟩

end Ufs.Proof.LoadManager
