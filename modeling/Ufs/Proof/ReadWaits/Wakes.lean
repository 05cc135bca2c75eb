import Ufs.Impl.ReadWaits

/-!
# A request that waits for reads is woken once

`Waits` is kept by the steps that are `Accepted`: the device refuses no read, and a unit that is
only waited for has a read in flight. `wakes_once`: in a run of such steps a suspended request is
registered for exactly the units it waits for, each of which has one read in flight, and it is put
on the ready queue once for each suspension, when it waits for no more.
-/

namespace Ufs.Proof.ReadWaits

open Impl ReadWaits
open Function (update update_of_ne update_self)
open List

variable {s s' : ReadWaits} {req : ℕ} {refused : IoUnit → Bool} {u : IoUnit}

/-- A block that is waited for has one read in flight, and no other has. -/
def OneRead (s : ReadWaits) : Prop := ∀ u, s.inFlight u = if (s.readPendingSubmitFsReq u).isSome then 1 else 0

/-- What the loop over the units leaves: the request is registered for them, and they have reads in flight. -/
structure Registers (s s' : ReadWaits) (req : ℕ) (us : List IoUnit) : Prop where
  oneRead : OneRead s'
  pendingMap : s'.ioUnitPendingMap = s.ioUnitPendingMap
  suspensions : s'.suspensions = s.suspensions
  wakes : s'.wakes = s.wakes
  registered : ∀ u r, r ∈ s'.readPendingFsReqs u ↔ r ∈ s.readPendingFsReqs u ∨ r = req ∧ u ∈ us
  submitted : ∀ u, (s'.readPendingSubmitFsReq u).isSome ↔ (s.readPendingSubmitFsReq u).isSome ∨ u ∈ us

theorem Registers.trans {s₁ : ReadWaits} {us vs : List IoUnit} (h : Registers s s₁ req us)
    (h' : Registers s₁ s' req vs) :
    Registers s s' req (us ++ vs) := by
  refine ⟨h'.oneRead, h'.pendingMap.trans h.pendingMap, h'.suspensions.trans h.suspensions, h'.wakes.trans h.wakes,
    fun u r => ?_, fun u => ?_⟩
  · rw [h'.registered, h.registered, mem_append]
    tauto
  · rw [h'.submitted, h.submitted, mem_append]
    tauto

theorem registers_pendOn (h : OneRead s) (hu : (s.readPendingSubmitFsReq u).isSome) (req : ℕ) :
    Registers s (s.submitPendOn req u) req [u] := by
  obtain ⟨r0, hr0⟩ := Option.isSome_iff_exists.1 hu
  unfold ReadWaits.submitPendOn
  rw [hr0]
  refine ⟨h, rfl, rfl, rfl, fun v r => ?_, fun v => ?_⟩
  · change r ∈ update s.readPendingFsReqs u _ v ↔ _
    rcases eq_or_ne v u with rfl | hne
    · rw [update_self, Finset.mem_insert, mem_singleton]
      tauto
    · rw [update_of_ne hne, mem_singleton]
      tauto
  · rw [mem_singleton]
    refine ⟨.inl, fun hv => hv.elim id ?_⟩
    rintro rfl
    exact hu

theorem registers_submit (h : OneRead s) (hu : s.readPendingSubmitFsReq u = none) (req : ℕ) :
    Registers s (((s.insertSubmit req u).devRead u).submitPendOn req u) req [u] := by
  have hself : ((s.insertSubmit req u).devRead u).readPendingSubmitFsReq u = some req := update_self ..
  have hread : OneRead ((s.insertSubmit req u).devRead u) := by
    intro v
    change update s.inFlight u (s.inFlight u + 1) v = if (update s.readPendingSubmitFsReq u
      (some req) v).isSome then 1 else 0
    rcases eq_or_ne v u with rfl | hne
    · rw [update_self, update_self, h v, hu]
      rfl
    · rw [update_of_ne hne, update_of_ne hne]
      exact h v
  have hpend := registers_pendOn hread (by rw [hself]; rfl) req
  refine ⟨hpend.oneRead, hpend.pendingMap, hpend.suspensions, hpend.wakes, hpend.registered, fun v => ?_⟩
  rw [hpend.submitted]
  change (update s.readPendingSubmitFsReq u (some req) v).isSome ∨ _ ↔ _
  rcases eq_or_ne v u with rfl | hne
  · rw [mem_singleton]
    tauto
  · rw [update_of_ne hne]

/-- The condition on the units of a request: no read is refused, and what is waited for has a read in flight. -/
def UnitsAccepted (refused : IoUnit → Bool) (us : List (IoUnit × Bool)) (s : ReadWaits) : Prop :=
  ∀ x ∈ us, if x.2 then refused x.1 = false else (s.readPendingSubmitFsReq x.1).isSome

theorem Registers.accepted {s₁ : ReadWaits} {us : List IoUnit} {vs : List (IoUnit × Bool)} (h : Registers s s₁ req us)
    (ha : UnitsAccepted refused vs s) : UnitsAccepted refused vs s₁ := by
  intro x hx
  have hx := ha x hx
  split at hx
  · next hsub => rw [if_pos hsub]; exact hx
  · next hwait => rw [if_neg hwait]; exact (h.submitted x.1).2 (.inl hx)

theorem registers_pendingMap {us : List (IoUnit × Bool)} (h : OneRead s)
    (ha : UnitsAccepted refused us s) {begin : Bool}
    (hstep : submitPendingMap req refused begin us s = some s') : Registers s s' req (us.map Prod.fst) := by
  induction us generalizing s begin with
  | nil =>
    cases hstep
    exact ⟨h, rfl, rfl, rfl, fun _ _ => by simp, fun _ => by simp⟩
  | cons x us ih =>
    obtain ⟨u, sub⟩ := x
    have hx := ha (u, sub) mem_cons_self
    have hrest : UnitsAccepted refused us s := fun y hy => ha y (mem_cons_of_mem _ hy)
    have hhead : ∃ s1, Registers s s1 req [u] ∧ submitPendingMap req refused false us s1 = some s' := by
      cases sub with
      | true =>
        unfold submitPendingMap at hstep
        split at hstep
        · next hnone =>
          rw [if_pos rfl] at hx
          rw [hx, if_neg Bool.false_ne_true] at hstep
          exact ⟨_, registers_submit h hnone req, hstep⟩
        · cases hstep
      | false =>
        rw [if_neg Bool.false_ne_true] at hx
        unfold submitPendingMap at hstep
        exact ⟨_, registers_pendOn h hx req, hstep⟩
    obtain ⟨s1, hreg, hnext⟩ := hhead
    exact hreg.trans (ih hreg.oneRead (hreg.accepted hrest) hnext)

/-- Every suspended request waits for reads that will come. -/
structure Waits (s : ReadWaits) : Prop where
  oneRead : OneRead s
  registered : ∀ u r, r ∈ s.readPendingFsReqs u ↔ u ∈ s.ioUnitPendingMap r
  submitted : ∀ r, ∀ u ∈ s.ioUnitPendingMap r, (s.readPendingSubmitFsReq u).isSome
  counts : ∀ r, s.wakes r + (if s.ioUnitPendingMap r = ∅ then 0 else 1) = s.suspensions r

/-- The device accepts the reads of the step. -/
def Accepted : ReadWaits.Label → ReadWaits → Prop
  | .submit _ refused blocks sectors, s => UnitsAccepted refused (blocks ++ sectors) s
  | .complete _, _ => True

theorem Waits.submit (h : Waits s) {blocks sectors : List (IoUnit × Bool)}
    (ha : UnitsAccepted refused (blocks ++ sectors) s)
    (hempty : s.ioUnitPendingMap req = ∅) (hne : blocks ++ sectors ≠ [])
    (hstep : (s.suspend req ((blocks ++ sectors).map Prod.fst).toFinset).submitFsGeneratedRequests req refused blocks sectors =
      some s') : Waits s' := by
  obtain ⟨s1, hblocks, hsectors⟩ := Option.bind_eq_some_iff.1 hstep
  have hone : OneRead (s.suspend req ((blocks ++ sectors).map Prod.fst).toFinset) := h.oneRead
  have hb := registers_pendingMap hone (fun x hx => ha x (mem_append_left _ hx)) hblocks
  have hs := registers_pendingMap hb.oneRead (hb.accepted fun x hx => ha x (mem_append_right _ hx)) hsectors
  have hreg := hb.trans hs
  rw [← map_append] at hreg
  have hself : s'.ioUnitPendingMap req = ((blocks ++ sectors).map Prod.fst).toFinset := by
    rw [hreg.pendingMap]
    exact update_self ..
  have hother (r : ℕ) (hr : r ≠ req) : s'.ioUnitPendingMap r = s.ioUnitPendingMap r := by
    rw [hreg.pendingMap]
    exact update_of_ne hr ..
  refine ⟨hreg.oneRead, fun u r => ?_, fun r u hu => (hreg.submitted u).2 ?_, fun r => ?_⟩
  · rw [hreg.registered]
    change r ∈ s.readPendingFsReqs u ∨ _ ↔ _
    rw [h.registered]
    rcases eq_or_ne r req with rfl | hr
    · rw [hself, hempty, mem_toFinset]
      simp only [Finset.notMem_empty, false_or, true_and]
    · rw [hother r hr]
      tauto
  · rcases eq_or_ne r req with rfl | hr
    · rw [hself, mem_toFinset] at hu
      exact .inr hu
    · rw [hother r hr] at hu
      exact .inl (h.submitted r u hu)
  · rw [hreg.wakes, hreg.suspensions]
    change s.wakes r + _ = update s.suspensions req (s.suspensions req + 1) r
    rcases eq_or_ne r req with rfl | hr
    · have hsome : ((blocks ++ sectors).map Prod.fst).toFinset ≠ ∅ := by
        rw [ne_eq, toFinset_eq_empty_iff, map_eq_nil_iff]
        exact hne
      have hcount := h.counts r
      rw [if_pos hempty] at hcount
      rw [update_self, hself, if_neg hsome, ← hcount]
    · rw [update_of_ne hr, hother r hr]
      exact h.counts r

theorem Waits.complete (h : Waits s) (u : IoUnit) : Waits (s.submitDevAsyncReadReqCompletion u) := by
  have hpend (r : ℕ) : (s.submitDevAsyncReadReqCompletion u).ioUnitPendingMap r = (s.ioUnitPendingMap r).erase u := by
    change (if r ∈ s.readPendingFsReqs u then _ else _) = _
    split
    · rfl
    · next hr => exact (Finset.erase_eq_of_notMem fun hu => hr ((h.registered u r).2 hu)).symm
  refine ⟨fun v => ?_, fun v r => ?_, fun r v hv => ?_, fun r => ?_⟩
  · change update s.inFlight u (s.inFlight u - 1) v = if (update s.readPendingSubmitFsReq u none v).isSome then 1 else 0
    rcases eq_or_ne v u with rfl | hne
    · have hone := h.oneRead v
      rw [update_self, update_self, hone]
      split <;> rfl
    · rw [update_of_ne hne, update_of_ne hne]
      exact h.oneRead v
  · rw [hpend, Finset.mem_erase]
    change r ∈ update s.readPendingFsReqs u ∅ v ↔ _
    rcases eq_or_ne v u with rfl | hne
    · rw [update_self]
      exact ⟨fun hr => absurd hr (Finset.notMem_empty r), fun hx => absurd rfl hx.1⟩
    · rw [update_of_ne hne, h.registered]
      exact ⟨fun hv => ⟨hne, hv⟩, fun hv => hv.2⟩
  · rw [hpend, Finset.mem_erase] at hv
    change (update s.readPendingSubmitFsReq u none v).isSome
    rw [update_of_ne hv.1]
    exact h.submitted r v hv.2
  · rw [hpend]
    change (if r ∈ s.readPendingFsReqs u ∧ (s.ioUnitPendingMap r).erase u =
      ∅ then s.wakes r + 1 else s.wakes r) + _ = s.suspensions r
    have hcount := h.counts r
    by_cases hr : r ∈ s.readPendingFsReqs u
    · have hsome := Finset.ne_empty_of_mem ((h.registered u r).1 hr)
      rw [if_neg hsome] at hcount
      by_cases hlast : (s.ioUnitPendingMap r).erase u = ∅
      · rw [if_pos ⟨hr, hlast⟩, if_pos hlast]
        exact hcount
      · rw [if_neg fun hx => hlast hx.2, if_neg hlast]
        exact hcount
    · rw [if_neg fun hx => hr hx.1, Finset.erase_eq_of_notMem fun hu => hr ((h.registered u r).2 hu)]
      exact hcount

theorem Waits.step {l : ReadWaits.Label} (h : Waits s) (ha : Accepted l s) (hstep : ReadWaits.step l s = some s') :
    Waits s' := by
  unfold ReadWaits.step at hstep
  cases l with
  | submit req refused blocks sectors =>
    dsimp only at hstep
    split at hstep
    · next hx => exact h.submit ha hx.1 hx.2.2 hstep
    · cases hstep
  | complete u =>
    dsimp only at hstep
    split at hstep
    · cases hstep
      exact h.complete u
    · cases hstep

theorem waits_start : Waits start := by
  refine ⟨fun _ => rfl, fun u r => ?_, fun _ _ hu => absurd hu (Finset.notMem_empty _), fun _ => rfl⟩
  exact ⟨fun hr => absurd hr (Finset.notMem_empty r), fun hu => absurd hu (Finset.notMem_empty u)⟩

/-- What is asked of every state: who waits is registered and will be woken, once for each
suspension, and no unit has two reads in flight. -/
structure WakesOnce (s : ReadWaits) : Prop where
  registered : ∀ r u, u ∈ s.ioUnitPendingMap r ↔ r ∈ s.readPendingFsReqs u
  reads : ∀ r, ∀ u ∈ s.ioUnitPendingMap r, s.inFlight u = 1
  asleep : ∀ r, s.ioUnitPendingMap r ≠ ∅ → s.wakes r + 1 = s.suspensions r
  woken : ∀ r, s.ioUnitPendingMap r = ∅ → s.wakes r = s.suspensions r
  single : ∀ u, s.inFlight u ≤ 1

theorem Waits.wakesOnce (h : Waits s) : WakesOnce s := by
  refine ⟨fun r u => (h.registered u r).symm, fun r u hu => ?_, fun r hne => ?_, fun r hempty => ?_, fun u => ?_⟩
  · rw [h.oneRead u, if_pos (h.submitted r u hu)]
  · have hcount := h.counts r
    rwa [if_neg hne] at hcount
  · have hcount := h.counts r
    rwa [if_pos hempty] at hcount
  · rw [h.oneRead u]
    split <;> omega

/-- **Requests suspended on reads wake up exactly once**, in every run in which no read is refused
and what is only waited for has a read in flight. -/
theorem wakes_once {ls : List ReadWaits.Label} (hrun : run ReadWaits.step ls start = some s)
    (halong : Along ReadWaits.step Accepted ls start) : WakesOnce s := by
  have hwaits : Waits s := run_inv (P := Accepted) (I := Waits)
    (fun _ _ _ h ha hstep => h.step ha hstep) hrun halong waits_start
  exact hwaits.wakesOnce

/-- A block. -/
def blockA : IoUnit := ⟨false, 10⟩

/-- Another block. -/
def blockB : IoUnit := ⟨false, 11⟩

/-- A request waits for two blocks, and one is read. -/
def twoBlocks (refused : IoUnit → Bool) : List ReadWaits.Label :=
  [.submit 1 refused [(blockA, true), (blockB, true)] [], .complete blockA]

theorem wakes_once_twoBlocks :
    ∃ s, run ReadWaits.step (twoBlocks fun _ => false) start = some s ∧ s.suspensions 1 = 1 ∧ s.wakes 1 = 0 ∧
      WakesOnce s := by
  have hmap : (run ReadWaits.step (twoBlocks fun _ => false) start).map (fun s => (s.suspensions 1, s.wakes 1)) =
    some (1, 0) := by
    decide +kernel
  obtain ⟨s, hrun, heq⟩ := Option.map_eq_some_iff.mp hmap
  have halong : Along ReadWaits.step Accepted (twoBlocks fun _ => false) start := by
    refine along_of_mem (fun l hl s => ?_) _
    simp only [twoBlocks, List.mem_cons, List.not_mem_nil, or_false] at hl
    rcases hl with rfl | rfl
    · intro x hx
      simp only [List.append_nil, List.mem_cons, List.not_mem_nil, or_false] at hx
      rcases hx with rfl | rfl <;> rfl
    · trivial
  exact ⟨s, hrun, (Prod.mk.inj heq).1, (Prod.mk.inj heq).2, wakes_once hrun halong⟩

/-- **A request is never woken**: the device refuses the second read, the request waits for the
block, and no read of it is in flight. -/
theorem refused_read_never_wakes : ∃ s, run ReadWaits.step (twoBlocks fun u => u = blockB) start = some s ∧
    blockB ∈ s.ioUnitPendingMap 1 ∧
      s.readPendingFsReqs blockB = ∅ ∧ s.inFlight blockA = 0 ∧ s.inFlight blockB = 0 ∧ s.wakes 1 = 0 := by
  have hmap : (run ReadWaits.step (twoBlocks fun u => u = blockB) start).map
      (fun s => (decide (blockB ∈ s.ioUnitPendingMap 1), decide (s.readPendingFsReqs blockB = ∅), s.inFlight blockA,
        s.inFlight blockB, s.wakes 1)) = some (true, true, 0, 0, 0) := by
    decide +kernel
  obtain ⟨s, hrun, heq⟩ := Option.map_eq_some_iff.mp hmap
  obtain ⟨hpend, heq⟩ := Prod.mk.inj heq
  obtain ⟨hreqs, heq⟩ := Prod.mk.inj heq
  obtain ⟨hA, heq⟩ := Prod.mk.inj heq
  obtain ⟨hB, hwakes⟩ := Prod.mk.inj heq
  exact ⟨s, hrun, of_decide_eq_true hpend, of_decide_eq_true hreqs, hA, hB, hwakes⟩

end Ufs.Proof.ReadWaits
