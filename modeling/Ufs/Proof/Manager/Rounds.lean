import Ufs.Proof.Journal.Spec
import Ufs.Proof.Manager.Stranded

/-!
# The loop at the end of a superblock write

When a superblock write completes, its manager calls `tryNextTransaction` as long as there is an
entry and a buffer. A call that finds the hard watermark reached does nothing. If no turn parks its
entry the loop ends, whatever the other managers do: the steps of the manager are bounded by what it
has to do (`rank`), and by the entries that callbacks submit meanwhile.
-/

namespace Ufs.Proof.Manager

open Impl
open Function (update update_self)
open JournalManager (finish idle modify)
open List

variable {js js' : JSuper} {m m' : JournalManager} {N : ℕ}

/-- The loop that waits for a superblock write runs. -/
def inLoop (m : JournalManager) : Bool :=
  match m.waiting with
  | .jsuperLoop _ :: _ => true
  | _ => false

/-- A step of the manager in the loop does not park the entry. -/
def Goes (w : Fin N) (a : Fin N × JournalAct) (s : Journals N) : Prop :=
  a = (w, .advance) → inLoop (s.mgrs w) = true → parks s.js (s.mgrs w) = false

instance (w : Fin N) (a : Fin N × JournalAct) (s : Journals N) : Decidable (Goes w a s) := by
  unfold Goes
  infer_instance

/-! ## What is left to do -/

/-- The loop has an entry and a buffer for it. -/
def active (m : JournalManager) : Bool := !m.jeQueue.isEmpty && !m.pinnedMemQueue.isEmpty

/-- The steps that what the thread runs has left before it returns. -/
def rankOf (m : JournalManager) : Option Running → ℕ
  | some .tryNextTransaction => 3
  | some (.slotAcquired _ _ _ true) => 2
  | some (.slotAcquired _ _ _ false) => 1
  | some (.processJournalEntry _) => 10
  | some .writeJSuper => 5
  | some (.setLast _) => 6
  | some (.release _ _) => 7
  | none => if inLoop m && active m then 4 else 0

/-- The same of a call that waits for another. -/
def rankOfWaiting : Waiting → ℕ
  | .callback => 5
  | .jsuperLoop _ => 6

/-- A bound for the steps that are left when no entry is submitted. -/
def rank (m : JournalManager) : ℕ :=
  10 * m.jeQueue.length + (m.waiting.map rankOfWaiting).sum + rankOf m m.now

theorem rankOf_none_le (m : JournalManager) : rankOf m none ≤ 4 := by
  show (if inLoop m && active m then 4 else 0) ≤ 4
  split <;> omega

theorem rankOf_none_of_inactive (h : active m = false) : rankOf m none = 0 := by
  show (if inLoop m && active m then 4 else 0) = 0
  rw [h, Bool.and_false, if_neg Bool.false_ne_true]

theorem tryNextTransaction_rank (hn : m.now = some .tryNextTransaction)
    (hgoes : inLoop m = true → parks js m = false) : rank (m.tryNextTransaction js).2 < rank m := by
  have hrank : rank m = 10 * m.jeQueue.length + (m.waiting.map rankOfWaiting).sum + 3 := by
    unfold rank
    rw [hn]
    rfl
  -- The call returns with nothing done.
  have hreturn (m' : JournalManager) (hq : m'.jeQueue = m.jeQueue) (hw : m'.waiting = m.waiting) (hnow : m'.now = none)
      (hidle : (inLoop m' && active m') = false) : rank m' < rank m := by
    unfold rank at hrank ⊢
    rw [hrank, hq, hw, hnow, rankOf, hidle, if_neg Bool.false_ne_true]
    omega
  unfold JournalManager.tryNextTransaction
  split
  · next hq =>
    refine hreturn _ rfl rfl rfl ?_
    simp [active, JournalManager.run, List.head?_eq_none_iff.1 hq]
  · next je hq =>
    have hlen : m.jeQueue.tail.length + 1 = m.jeQueue.length := by
      cases hm : m.jeQueue with
      | nil => rw [hm] at hq; cases hq
      | cons => rfl
    split
    · next hpin =>
      refine hreturn _ rfl rfl rfl ?_
      simp [active, JournalManager.run, hpin]
    · next hpin =>
      simp only [modify_bodySize]
      split
      · rw [hrank]
        refine (?_ : 10 * m.jeQueue.tail.length + (m.waiting.map rankOfWaiting).sum + 10 < _)
        omega
      · next hle =>
        split
        · rw [hrank]
          refine (?_ : 10 * m.jeQueue.tail.length + (m.waiting.map rankOfWaiting).sum + 10 < _)
          omega
        · next hns =>
          split
          · next hret =>
            have hpk : parks js m = true := by simp [parks, hn, hq, hpin, hns, hret, Nat.le_of_not_lt hle]
            refine hreturn _ rfl rfl rfl ?_
            have hloop : inLoop m = false := by
              by_contra hloop
              rw [hgoes (by simpa using hloop)] at hpk
              cases hpk
            have hloop' : inLoop ((m.modify je fun e => { e with startBlock := 0, nblocks := 0 }).run none) =
              false := hloop
            rw [hloop', Bool.false_and]
          · rw [hrank]
            generalize (js.acquireNextNSlots _).1.writeJsuper.getD false = b
            cases b with
            | true =>
              refine (?_ : 10 * m.jeQueue.length + (m.waiting.map rankOfWaiting).sum + 2 < _)
              omega
            | false =>
              refine (?_ : 10 * m.jeQueue.length + (m.waiting.map rankOfWaiting).sum + 1 < _)
              omega

theorem processJournalEntry_rank {je : ℕ} (hn : m.now = some (.processJournalEntry je)) :
    rank (m.processJournalEntry je) < rank m := by
  have hrank : rank m = 10 * m.jeQueue.length + (m.waiting.map rankOfWaiting).sum + 10 := by
    unfold rank
    rw [hn]
    rfl
  have hreturn (m' : JournalManager) (hq : m'.jeQueue = m.jeQueue) (hw : m'.waiting = m.waiting)
    (hnow : m'.now = none) : rank m' < rank m := by
    have := rankOf_none_le m'
    rw [hrank]
    unfold rank
    rw [hq, hw, hnow]
    omega
  have hrelease : (m.releasePinnedMem je).jeQueue = m.jeQueue ∧ (m.releasePinnedMem je).waiting = m.waiting := by
    unfold JournalManager.releasePinnedMem
    split <;> exact ⟨rfl, rfl⟩
  have hfinish (e : ManagedEntry) (ok : Bool) : rank (m.finish je e ok) < rank m := by
    unfold finish
    dsimp only
    split
    · refine lt_of_le_of_lt (?_ : _ ≤ 10 * (m.releasePinnedMem je).jeQueue.length +
        (5 + ((m.releasePinnedMem je).waiting.map rankOfWaiting).sum) + 0) ?_
      · exact Nat.le_refl _
      · rw [hrelease.1, hrelease.2, hrank]
        omega
    · refine (?_ : 10 * (m.releasePinnedMem je).jeQueue.length +
        ((m.releasePinnedMem je).waiting.map rankOfWaiting).sum + 3 < _)
      rw [hrelease.1, hrelease.2, hrank]
      omega
  unfold JournalManager.processJournalEntry
  split
  · exact hreturn _ rfl rfl rfl
  · split
    · exact hfinish _ _
    · exact hfinish _ _
    · exact hreturn _ rfl rfl rfl
    · split <;> exact hreturn _ rfl rfl rfl
    · exact hreturn _ rfl rfl rfl
    · exact hreturn _ rfl rfl rfl

theorem writeJSuper_same (js : JSuper) (m : JournalManager) :
    (m.writeJSuper js).2.jeQueue = m.jeQueue ∧ (m.writeJSuper js).2.waiting = m.waiting := by
  unfold JournalManager.writeJSuper
  split <;> exact ⟨rfl, rfl⟩

theorem startEntry_pops (hinv : Inv m.flushSupported (view m)) {je idx n : ℕ} {b : Bool}
    (hn : m.now = some (.slotAcquired je idx n b)) : m.jeQueue.tail.length + 1 = m.jeQueue.length ∧
      m.pinnedMemQueue.tail.length + 1 = m.pinnedMemQueue.length := by
  obtain ⟨hhead, hfree, -⟩ := hinv.ids.slot je (by simp [view, hn, slottedOf])
  obtain ⟨q, hq⟩ := List.head?_eq_some_iff.1 hhead
  obtain ⟨x, fr, hfr⟩ := exists_cons_of_ne_nil hfree
  rw [show m.jeQueue = je :: q from hq, show m.pinnedMemQueue = x :: fr from hfr]
  exact ⟨rfl, rfl⟩

theorem advanceRunning_rank (hinv : Inv m.flushSupported (view m)) {f : Running} (hn : m.now = some f)
    (hgoes : inLoop m = true → parks js m = false) : rank (m.advanceRunning js f).2 < rank m := by
  have hrank : rank m = 10 * m.jeQueue.length + (m.waiting.map rankOfWaiting).sum + rankOf m (some f) := by
    unfold rank
    rw [hn]
  obtain ⟨hq, hw⟩ := writeJSuper_same js m
  cases f with
  | tryNextTransaction => exact tryNextTransaction_rank hn hgoes
  | slotAcquired je idx n b =>
    cases b with
    | true =>
      rw [hrank]
      refine (?_ : 10 * (m.writeJSuper js).2.jeQueue.length +
        ((m.writeJSuper js).2.waiting.map rankOfWaiting).sum + 1 < _ + 2)
      rw [hq, hw]
      omega
    | false =>
      have hpop := (startEntry_pops hinv hn).1
      rw [hrank]
      refine (?_ : 10 * m.jeQueue.tail.length + (m.waiting.map rankOfWaiting).sum + 10 < _ + 1)
      omega
  | processJournalEntry je => exact processJournalEntry_rank hn
  | writeJSuper =>
    have hnone := rankOf_none_le ((m.writeJSuper js).2.run none)
    rw [hrank]
    refine (?_ : 10 * (m.writeJSuper js).2.jeQueue.length +
      ((m.writeJSuper js).2.waiting.map rankOfWaiting).sum + rankOf ((m.writeJSuper js).2.run none) none < _ + 5)
    rw [hq, hw]
    omega
  | release k ts =>
    rw [hrank]
    exact Nat.lt_succ_self _
  | setLast ts =>
    rw [hrank]
    exact Nat.lt_succ_self _

theorem jsuperLoop_rank (js : JSuper) {i : ℕ} {ws : List Waiting} (hn : m.now = none)
    (hw : m.waiting = .jsuperLoop i :: ws) :
    rank (m.jsuperLoop js i ws) < rank m := by
  have hloop : inLoop m = true := by rw [inLoop, hw]
  unfold JournalManager.jsuperLoop
  split
  · next hend =>
    have hidle (m' : JournalManager) (hq : m'.jeQueue = m.jeQueue) (hp : m'.pinnedMemQueue = m.pinnedMemQueue) :
      active m' = false := by
      rcases hend with hend | hend <;> simp [active, hq, hp, hend]
    have hrank : rank m = 10 * m.jeQueue.length + (6 + (ws.map rankOfWaiting).sum) + 0 := by
      unfold rank
      rw [hn, hw, rankOf_none_of_inactive (hidle m rfl rfl)]
      rfl
    rw [hrank]
    split
    · refine (?_ : 10 * m.jeQueue.length + (ws.map rankOfWaiting).sum + 5 < _)
      omega
    · refine (?_ : 10 * m.jeQueue.length + (ws.map rankOfWaiting).sum + rankOf { m.run none with waiting := ws } none < _)
      have hnone := rankOf_none_of_inactive (hidle { m.run none with waiting := ws } rfl rfl)
      omega
  · next hactive =>
    have hactive : active m = true := by
      rw [not_or] at hactive
      simp [active, hactive.1, hactive.2]
    have hrank : rank m = 10 * m.jeQueue.length + (6 + (ws.map rankOfWaiting).sum) + 4 := by
      unfold rank rankOf
      rw [hn, hw, hloop, hactive]
      rfl
    rw [hrank]
    exact Nat.lt_succ_self _

/-- What a manager does until its loop is over. -/
def isStep : JournalAct → Bool
  | .advance | .callbackReturns => true
  | _ => false

/-- A client submits an entry. -/
def isSubmit : JournalAct → Bool
  | .submitJournalEntry _ _ => true
  | _ => false

theorem step_rank {a : JournalAct} (hinv : Inv m.flushSupported (view m)) (ha : isStep a = true)
    (hgoes : a = .advance → inLoop m = true → parks js m = false)
      (hstep : JournalManager.step a js m = some (js', m')) : rank m' < rank m := by
  cases a with
  | advance =>
    unfold JournalManager.step at hstep
    dsimp only at hstep
    split at hstep
    · next f hn =>
      rw [← show (m.advanceRunning js f).2 = m' by rw [Option.some.inj hstep]]
      exact advanceRunning_rank hinv hn (hgoes rfl)
    · next i ws hn hw =>
      cases hstep
      exact jsuperLoop_rank js hn hw
    · cases hstep
  | callbackReturns =>
    unfold JournalManager.step at hstep
    dsimp only at hstep
    split at hstep
    · next ws hn hw =>
      cases hstep
      refine (?_ : 10 * m.jeQueue.length + (ws.map rankOfWaiting).sum + 3 < _)
      unfold rank
      rw [hw, map_cons, sum_cons]
      dsimp only [rankOfWaiting]
      omega
    · cases hstep
  | _ => cases ha

theorem submit_rank {a : JournalAct} (ha : isSubmit a = true)
    (hstep : JournalManager.step a js m = some (js', m')) : rank m' ≤ rank m + 13 := by
  cases a with
  | submitJournalEntry size cb =>
    unfold JournalManager.step at hstep
    dsimp only at hstep
    split at hstep
    · cases hstep
      refine (?_ : 10 * (m.jeQueue ++ [m.entries.length]).length + (m.waiting.map rankOfWaiting).sum + 3 ≤ _)
      unfold rank
      rw [length_append, length_singleton]
      omega
    · cases hstep
  | _ => cases ha

theorem steps_le {w : Fin N} {bs : List (Fin N × JournalAct)} {s s' : Journals N} (hinv : AllInv s)
    (hrun : run Journals.step bs s = some s') (hgoes : Along Journals.step (Goes w) bs s)
    (hacts : ∀ b ∈ bs, b.1 = w → isStep b.2 = true ∨ isSubmit b.2 = true) :
    bs.countP (fun b => b.1 = w && isStep b.2) + rank (s'.mgrs w) ≤ rank (s.mgrs w) + 13 * bs.countP
      (fun b => b.1 = w && isSubmit b.2) := by
  induction bs generalizing s with
  | nil =>
    cases hrun
    simp
  | cons b bs ih =>
    obtain ⟨s1, hstep, hrun⟩ := run_cons_eq_some.1 hrun
    obtain ⟨hgo, hgoes⟩ := (along_cons_some hstep).1 hgoes
    have hrest := ih (allInv_step b s s1 hinv hstep) hrun hgoes fun b hb => hacts b (mem_cons_of_mem _ hb)
    obtain ⟨m', hm', hs1⟩ := journals_step hstep
    rw [countP_cons, countP_cons]
    by_cases hw : b.1 = w
    · subst hw
      have hrank : rank (s1.mgrs b.1) = rank m' := by rw [hs1, update_self]
      have hexcl : isStep b.2 = true → isSubmit b.2 = false := by
        cases b.2 <;> simp [isStep, isSubmit]
      rcases hacts b (mem_cons_self ..) rfl with ha | ha
      · have hlt := step_rank (hinv b.1) ha (fun hadv => hgo (Prod.ext rfl hadv)) hm'
        simp only [ha, hexcl ha, decide_true, Bool.and_true, Bool.and_false, if_pos, Bool.false_eq_true, if_false]
        omega
      · have hle := submit_rank ha hm'
        have hno : isStep b.2 = false := by
          by_contra hyes
          rw [hexcl (by simpa using hyes)] at ha
          cases ha
        simp only [ha, hno, decide_true, Bool.and_true, Bool.and_false, if_pos, Bool.false_eq_true, if_false]
        omega
    · have hsame : s1.mgrs w = s.mgrs w := by rw [hs1, Function.update_of_ne (Ne.symm hw)]
      rw [hsame] at hrest
      simp only [hw, decide_false, Bool.false_and, Bool.false_eq_true, if_false]
      exact hrest

theorem exists_step (js : JSuper) (hidle : m.idle = false) :
    ∃ a p, isStep a = true ∧ JournalManager.step a js m = some p := by
  cases hn : m.now with
  | some f => exact ⟨.advance, m.advanceRunning js f, rfl, by simp only [JournalManager.step, hn]⟩
  | none =>
    cases hw : m.waiting with
    | nil => simp [idle, hn, hw] at hidle
    | cons c ws =>
      cases c with
      | callback =>
        exact ⟨.callbackReturns, (js, { m.run (some .tryNextTransaction) with waiting := ws }), rfl, by
          simp only [JournalManager.step, hn, hw]⟩
      | jsuperLoop i =>
        exact ⟨.advance, (js, m.jsuperLoop js i ws), rfl, by simp only [JournalManager.step, hn, hw]⟩

/-- The first entry of the queue has left it, or has its slot and leaves it next (`startEntry_pops`). -/
def Taken (m m' : JournalManager) : Prop := m'.jeQueue = m.jeQueue.tail ∨ slottedOf m'.now = m.jeQueue.head?

theorem tryNextTransaction_taken (hn : m.now = some .tryNextTransaction) (hactive : active m = true) :
    Taken m (m.tryNextTransaction js).2 ↔ parks js m = false := by
  unfold active at hactive
  rw [Bool.and_eq_true, Bool.not_eq_true', Bool.not_eq_true', isEmpty_eq_false_iff, isEmpty_eq_false_iff] at hactive
  obtain ⟨hq, hpin⟩ := hactive
  obtain ⟨je, q, hjq⟩ := exists_cons_of_ne_nil hq
  have hhead : m.jeQueue.head? = some je := by rw [hjq]; rfl
  unfold JournalManager.tryNextTransaction Taken
  simp only [hhead, if_neg hpin, modify_bodySize]
  split
  · next hlt =>
    refine ⟨fun _ => ?_, fun _ => .inl rfl⟩
    simp [parks, hhead, Nat.not_le.2 hlt]
  · next hle =>
    split
    · next hns =>
      refine ⟨fun _ => ?_, fun _ => .inl rfl⟩
      simp [parks, hhead, hns]
    · next hns =>
      split
      · next hret =>
        have hpk : parks js m = true := by simp [parks, hn, hhead, hpin, hns, hret, Nat.le_of_not_lt hle]
        rw [hpk]
        refine ⟨fun h => ?_, fun h => by cases h⟩
        rcases h with h | h
        · have hlen := congrArg List.length (show m.jeQueue = m.jeQueue.tail from h)
          rw [hjq] at hlen
          simp at hlen
        · cases h
      · next hret =>
        refine ⟨fun _ => ?_, fun _ => .inr rfl⟩
        simp [parks, hhead, hret]

/-- In every state that is reached a turn of the loop takes the first entry from the queue if and
only if it does not park it. And when from there on no turn of the loop parks its entry, the manager
takes finitely many steps until the loop is over, whatever the others do: it has a step until then,
and as many as `rank` and the entries submitted allow. -/
theorem jsuper_loop_ends (js : JSuper) (flush : Bool) (as : List (Fin N × JournalAct)) (s : Journals N)
    (h : run Journals.step as (Journals.start js flush) = some s) (w : Fin N) :
    (∀ s₁, active (s.mgrs w) = true → (s.mgrs w).now = some .tryNextTransaction →
      Journals.step (w, .advance) s = some s₁ →
        (Taken (s.mgrs w) (s₁.mgrs w) ↔ parks s.js (s.mgrs w) = false)) ∧
    ∀ bs s', run Journals.step bs s = some s' → Along Journals.step (Goes w) bs s →
      (∀ b ∈ bs, b.1 = w → isStep b.2 = true ∨ isSubmit b.2 = true) →
        bs.countP (fun b => b.1 = w && isStep b.2) + rank (s'.mgrs w) ≤
          rank (s.mgrs w) + 13 * bs.countP (fun b => b.1 = w && isSubmit b.2) ∧
        ((s'.mgrs w).idle = false → ∃ a s'', isStep a = true ∧ Journals.step (w, a) s' = some s'') := by
  have hinv : AllInv s := run_inv' allInv_step h (start_allInv js flush)
  refine ⟨fun s₁ hactive hn hstep => ?_, fun bs s' hrun hgoes hacts =>
    ⟨steps_le hinv hrun hgoes hacts, fun hidle => ?_⟩⟩
  · obtain ⟨m', hm', hs₁⟩ := journals_step hstep
    have heq : m' = ((s.mgrs w).tryNextTransaction s.js).2 := by
      simp only [JournalManager.step, hn, JournalManager.advanceRunning] at hm'
      rw [Option.some.inj hm']
    rw [hs₁, update_self, heq]
    exact tryNextTransaction_taken hn hactive
  · obtain ⟨a, p, ha, hp⟩ := exists_step s'.js hidle
    exact ⟨a, _, ha, Option.map_eq_some_iff.mpr ⟨p, hp, rfl⟩⟩

/-- Some checkpoints of the empty journal, of which the first writes the superblock; an entry; and the superblock write
completes. -/
def checkpointsThenEntry (n : ℕ) : List (Fin 1 × JournalAct) :=
  ((List.replicate n [JournalAct.prepareForCheckpointing, .onCheckpointSuccess 1, .advance, .advance,
    .advance]).flatten ++
    [JournalAct.submitJournalEntry 300 true, JournalAct.advance, JournalAct.jsuperWriteComplete]).map
      (Prod.mk ⟨0, Nat.one_pos⟩)

/-- With two checkpoints the entry is parked, and the loop that takes it is over after six steps. -/
theorem jsuper_loop_ends_two : ∃ s s' : Journals 1,
    run Journals.step (checkpointsThenEntry 2) (Journals.start (.ofDisk (globalJSuper 0)) true) = some s ∧
    inLoop (s.mgrs 0) = true ∧ active (s.mgrs 0) = true ∧ run Journals.step (List.replicate 6 (0, .advance)) s =
      some s' ∧
    (List.replicate 6 ((0 : Fin 1), JournalAct.advance)).countP (fun b => b.1 = 0 && isStep b.2) + rank (s'.mgrs 0) ≤
      rank (s.mgrs 0) + 13 * (List.replicate 6 ((0 : Fin 1), JournalAct.advance)).countP
        (fun b => b.1 = 0 && isSubmit b.2) ∧
    (s'.mgrs 0).idle = true := by
  have hrun : run Journals.step (checkpointsThenEntry 2) (Journals.start (.ofDisk (globalJSuper 0)) true) =
      some (after (checkpointsThenEntry 2)) := rfl
  have hrun' : run Journals.step (List.replicate 6 (0, .advance)) (after (checkpointsThenEntry 2)) =
      some (after (checkpointsThenEntry 2 ++ List.replicate 6 (0, .advance))) := rfl
  have hgoes : Along Journals.step (Goes 0) (List.replicate 6 (0, .advance)) (after (checkpointsThenEntry 2)) := by
    decide +kernel
  exact ⟨_, _, hrun, by decide +kernel, by decide +kernel, hrun',
    ((jsuper_loop_ends _ _ _ _ hrun 0).2 _ _ hrun' hgoes (by decide)).1, by decide +kernel⟩

/-- The manager is at the test of its loop, and the turn that follows will park the entry. -/
structure Spins (js : JSuper) (q : List ℕ) (i : ℕ) (m : JournalManager) : Prop where
  now : m.now = none
  waiting : m.waiting = [.jsuperLoop i]
  queue : m.jeQueue = q
  parks : parks js (m.run (some .tryNextTransaction)) = true

theorem Spins.turn {q : List ℕ} {i : ℕ} (h : Spins js q i m) :
    ∃ m₁ m', JournalManager.step .advance js m = some (js, m₁) ∧
    JournalManager.step .advance js m₁ = some (js, m') ∧ Spins js q (i + 1) m' := by
  have hp := h.parks
  simp only [Manager.parks, JournalManager.run, Bool.and_eq_true, Bool.not_eq_true', isEmpty_eq_false_iff] at hp
  obtain ⟨⟨-, hpin⟩, hslot⟩ := hp
  obtain ⟨je, hq⟩ : ∃ je, m.jeQueue.head? = some je := by
    cases hq : m.jeQueue.head? with
    | none => simp [hq] at hslot
    | some je => exact ⟨je, rfl⟩
  have hne : m.jeQueue ≠ [] := fun h => by simp [h] at hq
  simp only [hq, Bool.and_eq_true, Bool.not_eq_true'] at hslot
  obtain ⟨⟨hle, hns⟩, hret⟩ := hslot
  replace hle := of_decide_eq_true hle
  refine ⟨{ m.run (some .tryNextTransaction) with waiting := [.jsuperLoop (i + 1)] },
    { (m.modify je fun e => { e with startBlock := 0, nblocks := 0 }).run none with waiting := [.jsuperLoop (i + 1)] },
    ?_, ?_, rfl, rfl, h.queue, ?_⟩
  · simp only [JournalManager.step, h.now, h.waiting, JournalManager.jsuperLoop, hne, hpin, or_self, if_false]
  · simp only [JournalManager.step, JournalManager.run, JournalManager.advanceRunning,
      JournalManager.tryNextTransaction, JournalManager.modify]
    have hsize := modify_bodySize m je
    simp only [JournalManager.modify] at hsize
    simp only [hq, hpin, if_false, hsize, Nat.not_lt.2 hle, hns, hret, Bool.false_eq_true, if_true]
    have hjs : (js.acquireNextNSlots (JournalManager.jblocksRequired
      ((m.entries[je]?.map ManagedEntry.bodySize).getD 0))).2 = js := by
      refine (JSuper.acquire_refused fun hg => ?_).1
      rw [hg.2] at hret
      cases hret
    rw [hjs]
  · have hsize := modify_bodySize m je
    simp only [JournalManager.modify] at hsize
    simp only [Manager.parks, JournalManager.run, JournalManager.modify, hq, hsize]
    simp [hpin, hle, hns, hret]

/-- With three checkpoints the count is above the hard watermark when the write completes, and nobody starts another
write: the loop turns for ever with its entry in the queue. -/
theorem jsuper_loop_spins : ∃ s : Journals 1,
    run Journals.step (checkpointsThenEntry 3) (Journals.start (.ofDisk (globalJSuper 0)) true) = some s ∧
    ∀ n, ∃ s', run Journals.step (List.replicate (2 * n) (0, .advance)) s = some s' ∧
      (s'.mgrs 0).waiting = [.jsuperLoop n] ∧ (s'.mgrs 0).jeQueue = [0] := by
  refine ⟨after (checkpointsThenEntry 3), rfl, fun n => ?_⟩
  suffices h : ∃ s', run Journals.step (List.replicate (2 * n) (0, .advance)) (after (checkpointsThenEntry 3)) =
    some s' ∧
      Spins s'.js [0] n (s'.mgrs 0) by
    obtain ⟨s', hrun, hspins⟩ := h
    exact ⟨s', hrun, hspins.waiting, hspins.queue⟩
  induction n with
  | zero => exact ⟨_, rfl, by decide +kernel, by decide +kernel, by decide +kernel, by decide +kernel⟩
  | succ n ih =>
    obtain ⟨s₁, hrun, hspins⟩ := ih
    obtain ⟨m₁, m', hstep, hstep', hspins'⟩ := hspins.turn
    have hfirst : Journals.step (0, .advance) s₁ = some ⟨s₁.js, update s₁.mgrs 0 m₁⟩ :=
      Option.map_eq_some_iff.mpr ⟨_, hstep, rfl⟩
    have hsecond : Journals.step (0, .advance) ⟨s₁.js, update s₁.mgrs 0 m₁⟩ =
        some ⟨s₁.js, update (update s₁.mgrs 0 m₁) 0 m'⟩ := by
      refine Option.map_eq_some_iff.mpr ⟨(s₁.js, m'), ?_, rfl⟩
      dsimp only
      rw [update_self]
      exact hstep'
    refine ⟨⟨s₁.js, update (update s₁.mgrs 0 m₁) 0 m'⟩, ?_, ?_⟩
    · rw [Nat.mul_succ, List.replicate_add, run_append, hrun]
      exact run_cons_eq_some.mpr ⟨_, hfirst, run_cons_eq_some.mpr ⟨_, hsecond, rfl⟩⟩
    · dsimp only
      rw [update_self]
      exact hspins'

end Ufs.Proof.Manager
