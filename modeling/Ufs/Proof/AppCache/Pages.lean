import Mathlib.Data.List.Induction
import Mathlib.Order.Bounds.Defs
import Ufs.Impl.InAppBlocks

/-!
# The pages of a request that a client caches

The loops over the pages end with the last byte of a range and visit the pages that overlap it, as
long as the end is not at the start of a page, which is visited too, and 32 bits of the offsets
order them as the offsets themselves (`Plain`). What is on record for a page is then the number of
the last write, or 1 if it was only read (`lastSeq`).
-/

namespace Ufs.Proof.AppCache

open Impl
open Function (update update_of_ne update_self)
open List

variable {op : RwOpCommon} {c : InAppCall} {m : InAppPages} {calls : List InAppCall} {n turns a p : ℕ}

/-- The page at `p` has a byte of the operation. -/
def Overlaps (op : RwOpCommon) (p : ℕ) : Prop := 4096 ∣ p ∧ op.realOffset < p + 4096 ∧ p < op.realOffset + op.realCount

instance (op : RwOpCommon) (p : ℕ) : Decidable (Overlaps op p) := inferInstanceAs (Decidable (_ ∧ _ ∧ _))

/-- The range ends inside a page, which is in the same 4 GiB as its start and not the last one there. -/
def Plain (op : RwOpCommon) : Prop :=
  0 < op.realCount ∧ (op.realOffset + op.realCount) % 4096 ≠ 0 ∧
    op.realOffset / 2 ^ 32 = (op.realOffset + op.realCount) / 2 ^ 32 ∧
      (op.realOffset + op.realCount) % 2 ^ 32 < 2 ^ 32 - 4096

/-- The pages that a loop comes to from its turn `n` on. -/
def Rest (op : RwOpCommon) (n p : ℕ) : Prop := 4096 ∣ p ∧ op.startAlignedOff + n * 4096 ≤ p ∧
    p < op.realOffset + op.realCount

instance (op : RwOpCommon) (n p : ℕ) : Decidable (Rest op n p) := inferInstanceAs (Decidable (_ ∧ _ ∧ _))

theorem rest_zero : Rest op 0 p ↔ Overlaps op p := by
  unfold Rest Overlaps RwOpCommon.startAlignedOff gFsLibMallocPageSize
  constructor
  · rintro ⟨⟨k, rfl⟩, h⟩
    omega
  · rintro ⟨⟨k, rfl⟩, h⟩
    omega

theorem Plain.goesOn (h : Plain op) (hn : op.startAlignedOff + n * 4096 < op.realOffset + op.realCount + 4096) :
    (op.GoesOn n ↔ op.startAlignedOff + n * 4096 < op.realOffset + op.realCount) ∧
      op.curAlignedOff n = op.startAlignedOff + n * 4096 := by
  obtain ⟨hpos, hend, hwindow, hlast⟩ := h
  unfold RwOpCommon.GoesOn RwOpCommon.curAlignedOff
  unfold RwOpCommon.startAlignedOff gFsLibMallocPageSize at *
  omega

theorem rest_succ (h : op.startAlignedOff + n * 4096 < op.realOffset + op.realCount) :
    Rest op n p ↔ p = op.startAlignedOff + n * 4096 ∨ Rest op (n + 1) p := by
  unfold Rest RwOpCommon.startAlignedOff gFsLibMallocPageSize at *
  constructor
  · rintro ⟨⟨k, rfl⟩, hp⟩
    omega
  · rintro (rfl | ⟨⟨k, rfl⟩, hp⟩)
    · omega
    · omega

theorem not_rest_of_le (h : op.realOffset + op.realCount ≤ op.startAlignedOff + n * 4096) : ¬ Rest op n p := by
  unfold Rest
  omega

/-- Turn `n` is not behind the one that ends the loop, which is among the next `turns`. -/
def Within (op : RwOpCommon) (n turns : ℕ) : Prop :=
  op.startAlignedOff + n * 4096 < op.realOffset + op.realCount + 4096 ∧
    op.realOffset + op.realCount + 4096 ≤ op.startAlignedOff + (n + turns) * 4096

theorem Within.next (h : Within op n (turns + 1)) (hlt : op.startAlignedOff + n * 4096 < op.realOffset + op.realCount) :
    Within op (n + 1) turns := by
  obtain ⟨-, hle⟩ := h
  refine ⟨?_, by rwa [Nat.add_assoc n 1, Nat.add_comm 1]⟩
  rw [Nat.add_one_mul, ← Nat.add_assoc]
  exact Nat.add_lt_add_right hlt 4096

theorem Plain.within (h : Plain op) : Within op 0 (maxTurns + 1) := by
  obtain ⟨hpos, hend, hwindow, hlast⟩ := h
  unfold Within RwOpCommon.startAlignedOff gFsLibMallocPageSize maxTurns
  omega

/-! ## The loops -/

theorem extractRwReqPageNos_eq (h : Plain c.op) (hn : Within c.op n turns) :
    c.extractRwReqPageNos turns n m = some fun p =>
      if Rest c.op n p then some (if c.isWrite then c.accessSeqNo else (m p).getD 1) else m p := by
  induction turns generalizing n m with
  | zero => exact absurd hn.1 (Nat.not_lt.2 hn.2)
  | succ turns ih =>
    obtain ⟨hgo, hcur⟩ := h.goesOn hn.1
    unfold InAppCall.extractRwReqPageNos
    by_cases hlt : c.op.startAlignedOff + n * 4096 < c.op.realOffset + c.op.realCount
    · rw [if_pos (hgo.2 hlt), ih (hn.next hlt), hcur, Option.some.injEq]
      funext p
      unfold InAppCall.record
      rcases eq_or_ne p (c.op.startAlignedOff + n * 4096) with rfl | hne
      · have hnot : ¬ Rest c.op (n + 1) (c.op.startAlignedOff + n * 4096) := fun hr => by have := hr.2.1; omega
        rw [if_neg hnot, update_self, if_pos ((rest_succ hlt).2 (.inl rfl))]
      · rw [update_of_ne hne]
        exact if_congr ((rest_succ hlt).trans (or_iff_right hne)).symm rfl rfl
    · rw [if_neg (mt hgo.1 hlt), Option.some.injEq]
      funext p
      rw [if_neg (not_rest_of_le (Nat.not_lt.1 hlt))]

theorem retrieve_cases (h : Plain op) (hn : Within op n turns) :
    (∃ p, Rest op n p ∧ m p = none) ∧ op.retrieve m turns n a = some (false, 0) ∨
    (∀ p, Rest op n p → m p ≠ none) ∧ ∃ seq, op.retrieve m turns n a = some (true, seq) ∧
      IsGreatest (insert a {s | ∃ p, Rest op n p ∧ m p = some s}) seq := by
  induction turns generalizing n a with
  | zero => exact absurd hn.1 (Nat.not_lt.2 hn.2)
  | succ turns ih =>
    obtain ⟨hgo, hcur⟩ := h.goesOn hn.1
    unfold RwOpCommon.retrieve
    by_cases hlt : op.startAlignedOff + n * 4096 < op.realOffset + op.realCount
    · rw [if_pos (hgo.2 hlt), hcur]
      have hfirst := (rest_succ hlt).2 (.inl rfl)
      cases hm : m (op.startAlignedOff + n * 4096) with
      | none => exact .inl ⟨⟨_, hfirst, hm⟩, rfl⟩
      | some s =>
        rcases ih (a := if a < s then s else a) (hn.next hlt) with ⟨⟨p, hp, hnone⟩, hret⟩ | ⟨hall, seq, hret, hmem, hle⟩
        · exact .inl ⟨⟨p, (rest_succ hlt).2 (.inr hp), hnone⟩, hret⟩
        · refine .inr ⟨fun p hp => ?_, seq, hret, ?_, ?_⟩
          · rcases (rest_succ hlt).1 hp with rfl | hp
            · rw [hm]
              exact Option.some_ne_none _
            · exact hall p hp
          · rcases hmem with rfl | ⟨p, hp, hs⟩
            · split
              · exact .inr ⟨_, hfirst, hm⟩
              · exact .inl rfl
            · exact .inr ⟨p, (rest_succ hlt).2 (.inr hp), hs⟩
          · have hbound := hle (.inl rfl)
            rintro x (rfl | ⟨p, hp, hs⟩)
            · split at hbound <;> omega
            · rcases (rest_succ hlt).1 hp with rfl | hp
              · cases hm.symm.trans hs
                split at hbound <;> omega
              · exact hle (.inr ⟨p, hp, hs⟩)
    · rw [if_neg (mt hgo.1 hlt)]
      have hnot {p : ℕ} : ¬ Rest op n p := not_rest_of_le (Nat.not_lt.1 hlt)
      refine .inr ⟨fun p hp => absurd hp hnot, a, rfl, .inl rfl, ?_⟩
      rintro x (rfl | ⟨p, hp, -⟩)
      · exact Nat.le_refl _
      · exact absurd hp hnot

/-! ## Calls -/

/-- The calls for an inode that was not in the map; `none` when one of them does not end. -/
def addAll (calls : List InAppCall) : Option (Option InAppPages) :=
  calls.foldlM (fun pending c => (addInAppAllocOpDataBlocks pending c).map some) none

/-- The number of the last write of a page, or 1 if it was only read. -/
def lastSeq (calls : List InAppCall) (p : ℕ) : Option ℕ :=
  if ∃ c ∈ calls, Overlaps c.op p then
    some (((calls.reverse.find? fun c => c.isWrite && decide (Overlaps c.op p)).map (·.accessSeqNo)).getD 1)
  else none

theorem lastSeq_concat (calls : List InAppCall) (c : InAppCall) (p : ℕ) : lastSeq (calls ++ [c]) p =
    if Overlaps c.op p then some (if c.isWrite then c.accessSeqNo else
      (lastSeq calls p).getD 1) else lastSeq calls p := by
  unfold lastSeq
  simp only [mem_append, mem_singleton, or_and_right, exists_or, exists_eq_left, reverse_append,
    reverse_singleton, singleton_append, List.find?_cons]
  by_cases hc : Overlaps c.op p
  · by_cases hw : c.isWrite = true
    · simp [hc, hw]
    · by_cases hex : ∃ c ∈ calls, Overlaps c.op p
      · simp [hc, hw, hex]
      · have hnone : (calls.reverse.find? fun c => c.isWrite && decide (Overlaps c.op p)) = none := by
          rw [List.find?_eq_none]
          intro x hx hover
          exact hex ⟨x, mem_reverse.1 hx, of_decide_eq_true (Bool.and_eq_true_iff.1 hover).2⟩
        simp [hc, hw, hex, hnone]
  · simp [hc]

theorem addAll_eq (h : ∀ c ∈ calls, Plain c.op) : ∃ pending, addAll calls = some pending ∧
    (pending.getD fun _ => none) = lastSeq calls ∧ (calls ≠ [] → pending = some (lastSeq calls)) := by
  induction calls using List.reverseRecOn with
  | nil => exact ⟨none, rfl, by funext p; simp [lastSeq], fun hne => absurd rfl hne⟩
  | append_singleton calls c ih =>
    obtain ⟨pending, hadd, hget, -⟩ := ih fun c hc => h c (mem_append_left _ hc)
    have hplain := h c (mem_append_right _ (mem_singleton_self c))
    have hnext : addInAppAllocOpDataBlocks pending c = some (lastSeq (calls ++ [c])) := by
      unfold addInAppAllocOpDataBlocks
      rw [hget, extractRwReqPageNos_eq hplain hplain.within, Option.some.injEq]
      funext p
      rw [lastSeq_concat]
      exact if_congr rest_zero rfl rfl
    refine ⟨some (lastSeq (calls ++ [c])), ?_, rfl, fun _ => rfl⟩
    unfold addAll at hadd ⊢
    rw [foldlM_append, hadd]
    simp [hnext]

/-- A call of the history wrote to the page. -/
def Written (calls : List InAppCall) (p : ℕ) : Prop :=
  ∃ c ∈ calls, c.isWrite = true ∧ Overlaps c.op p

/-- Each page that overlaps the range overlaps a range of the history. -/
def Recorded (calls : List InAppCall) (op : RwOpCommon) : Prop :=
  ∀ p, Overlaps op p → ∃ c ∈ calls, Overlaps c.op p

/-- What a client is to learn of a range: that it is all in the cache if and only if each of its
pages is on record and one of them was written, and then the largest number on record. -/
def Tracked (calls : List InAppCall) (op : RwOpCommon) : Prop :=
  ∃ allInApp maxSeq,
    retrieveInAppAllocOpDataBlocks (some (lastSeq calls)) op 0 = some (allInApp, maxSeq) ∧
    (allInApp = true ↔ Recorded calls op ∧ ∃ p, Overlaps op p ∧ Written calls p) ∧
    (allInApp = true → IsGreatest {seq | ∃ p, Overlaps op p ∧ lastSeq calls p = some seq} maxSeq)

theorem lastSeq_ne_none : lastSeq calls p ≠ none ↔ ∃ c ∈ calls, Overlaps c.op p := by
  unfold lastSeq
  split <;> simp_all

theorem written_of_lastSeq_zero (h : lastSeq calls p = some 0) : Written calls p := by
  unfold lastSeq at h
  split at h
  · cases hfind : calls.reverse.find? fun c => c.isWrite && decide (Overlaps c.op p) with
    | none => simp [hfind] at h
    | some c =>
      have hfound := List.find?_some hfind
      obtain ⟨hwrite, hover⟩ := Bool.and_eq_true_iff.1 hfound
      exact ⟨c, mem_reverse.1 (mem_of_find?_eq_some hfind), hwrite, of_decide_eq_true hover⟩
  · cases h

theorem Plain.overlaps (h : Plain op) : Overlaps op op.startAlignedOff := by
  have hpos := h.1
  unfold Overlaps RwOpCommon.startAlignedOff gFsLibMallocPageSize
  omega

/-- The result of a retrieve of a plain range: a page that was only read counts with the number 1. -/
theorem retrieve_eq (hop : Plain op) : ∃ allInApp maxSeq,
    retrieveInAppAllocOpDataBlocks (some (lastSeq calls)) op 0 = some (allInApp, maxSeq) ∧
    (allInApp = true ↔
      Recorded calls op ∧ ∃ p seq, Overlaps op p ∧ lastSeq calls p = some seq ∧ seq ≠ 0) ∧
    (allInApp = true →
      IsGreatest {seq | ∃ p, Overlaps op p ∧ lastSeq calls p = some seq} maxSeq) := by
  unfold retrieveInAppAllocOpDataBlocks
  rw [Option.bind_some]
  have hcases := retrieve_cases (m := lastSeq calls) (a := 0) hop hop.within
  simp only [rest_zero] at hcases
  rcases hcases with ⟨⟨p, hp, hnone⟩, hret⟩ | ⟨hall, seq, hret, hmem, hle⟩
  · rw [hret]
    exact ⟨false, 0, rfl, ⟨nofun, fun h => absurd hnone (lastSeq_ne_none.2 (h.1 p hp))⟩, nofun⟩
  · rw [hret]
    refine ⟨_, seq, rfl, ?_, fun hall => ?_⟩
    · simp only [Bool.true_and, bne_iff_ne, ne_eq]
      refine ⟨fun h0 => ⟨fun p hp => lastSeq_ne_none.1 (hall p hp), ?_⟩, ?_⟩
      · obtain ⟨p, hp, hs⟩ := hmem.resolve_left h0
        exact ⟨p, seq, hp, hs, h0⟩
      · rintro ⟨-, p, s, hp, hs, hs0⟩ rfl
        exact hs0 (Nat.le_zero.mp (hle (Or.inr ⟨p, hp, hs⟩)))
    · have h0 : seq ≠ 0 := by simpa using hall
      exact ⟨hmem.resolve_left h0, fun x hx => hle (Or.inr hx)⟩

/-- After calls for plain ranges, the pages on record are those that overlap one of them. A plain
range is tracked if and only if, when all its pages are on record, one of them was written and not
all of them have the number 0 on record. -/
theorem in_app_pages_tracked (hne : calls ≠ []) (hcalls : ∀ c ∈ calls, Plain c.op)
    (hop : Plain op) :
    addAll calls = some (some (lastSeq calls)) ∧
    (Tracked calls op ↔ (Recorded calls op →
      (∃ p, Overlaps op p ∧ Written calls p) ∧
      ∃ p, Overlaps op p ∧ lastSeq calls p ≠ some 0)) := by
  obtain ⟨pending, hadd, -, hpending⟩ := addAll_eq hcalls
  rw [hpending hne] at hadd
  refine ⟨hadd, ?_⟩
  obtain ⟨allInApp, maxSeq, hret, hall, hmax⟩ := @retrieve_eq op calls hop
  constructor
  · rintro ⟨all', max', hret', hall', -⟩ hrec
    rw [hret] at hret'
    cases hret'
    -- Were all the numbers 0, each page would have been written, the first one too.
    by_cases hzero : ∀ p, Overlaps op p → lastSeq calls p = some 0
    · have hwritten := written_of_lastSeq_zero (hzero _ hop.overlaps)
      obtain ⟨-, p, seq, hp, hs, h0⟩ := hall.1 (hall'.2 ⟨hrec, _, hop.overlaps, hwritten⟩)
      rw [hzero p hp, Option.some.injEq] at hs
      exact absurd hs.symm h0
    · push Not at hzero
      obtain ⟨p, hp, h0⟩ := hzero
      obtain ⟨seq, hs⟩ := Option.ne_none_iff_exists'.1 (lastSeq_ne_none.2 (hrec p hp))
      refine ⟨(hall'.1 (hall.2 ⟨hrec, p, seq, hp, hs, ?_⟩)).2, p, hp, h0⟩
      rintro rfl
      exact h0 hs
  · intro h
    refine ⟨allInApp, maxSeq, hret, hall.trans (and_congr_right fun hrec => ?_), hmax⟩
    obtain ⟨hwritten, p, hp, h0⟩ := h hrec
    obtain ⟨seq, hs⟩ := Option.ne_none_iff_exists'.1 (lastSeq_ne_none.2 (hrec p hp))
    refine ⟨fun _ => hwritten, fun _ => ⟨p, seq, hp, hs, ?_⟩⟩
    rintro rfl
    exact h0 hs

theorem in_app_pages_tracked_written : ∃ r, (addAll [⟨⟨0, 100⟩, true, 5⟩]).bind
    (retrieveInAppAllocOpDataBlocks · ⟨0, 100⟩ 0) = some r ∧ r.1 = true := by
  have hplain : Plain ⟨0, 100⟩ := by unfold Plain; decide
  have hcalls : ∀ c ∈ [(⟨⟨0, 100⟩, true, 5⟩ : InAppCall)], Plain c.op := by simpa using hplain
  obtain ⟨hadd, htracked⟩ := in_app_pages_tracked (by simp) hcalls hplain
  have hwritten : Written [⟨⟨0, 100⟩, true, 5⟩] 0 := ⟨_, List.mem_singleton_self _, rfl, by decide⟩
  obtain ⟨allInApp, maxSeq, hret, hall, -⟩ :=
    htracked.2 fun _ => ⟨⟨0, by decide, hwritten⟩, 0, by decide, by decide⟩
  rw [hadd, Option.bind_some, hret]
  exact ⟨_, rfl, hall.2 ⟨fun p hp => ⟨_, List.mem_singleton_self _, hp⟩, 0, by decide, hwritten⟩⟩

/-- A write of the first page records the second one too, which is then all in the cache; and a page that was only read
is. -/
theorem page_behind_recorded : (addAll [⟨⟨0, 4096⟩, true, 5⟩]).bind (retrieveInAppAllocOpDataBlocks · ⟨4096, 100⟩ 0) =
      some (true, 5) ∧ ¬ Overlaps ⟨0, 4096⟩ 4096 ∧
    (addAll [⟨⟨0, 100⟩, false, 0⟩]).bind (retrieveInAppAllocOpDataBlocks · ⟨0, 100⟩ 0) = some (true, 1) := by
  decide +kernel

end Ufs.Proof.AppCache
