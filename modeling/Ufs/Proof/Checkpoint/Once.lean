import Ufs.Proof.Checkpoint.System

/-!
# What a checkpoint releases

Every worker records the size of the shared ring when it prepares and releases that many blocks when
the checkpoint is complete. So the blocks released are the sum of what the workers recorded
(`total_step`). They are those that were in the ring when the images were taken exactly when every
worker that prepares finds that those before it recorded an empty ring (`released_once_iff`).
-/

namespace Ufs.Proof.Checkpoint

open Impl Ufs.Ring Journal

variable {N : ℕ}

theorem sum_due_update (f : Fin N → Phase) (w : Fin N) (p : Phase) :
    ∑ v, (Function.update f w p v).due + (f w).due = ∑ v, (f v).due + p.due := by
  have hrest : ∑ v ∈ {w}ᶜ, (Function.update f w p v).due = ∑ v ∈ {w}ᶜ, (f v).due := by
    refine Finset.sum_congr rfl fun v hv => ?_
    rw [Function.update_of_ne (by simpa using hv)]
  rw [Fintype.sum_eq_add_sum_compl w, Fintype.sum_eq_add_sum_compl w fun v => (f v).due, hrest, Function.update_self]
  omega

theorem due_le (s : Sys N) (w : Fin N) : (s.phase w).due ≤ s.due :=
  Finset.single_le_sum (f := fun w => (s.phase w).due) (fun _ _ => Nat.zero_le _) (Finset.mem_univ w)

theorem IsWrite.frame {op : Op} {h h' : Hist} (hop : Sys.IsWrite op) (he : Hist.step op h = some h') :
    h'.enq = h.enq ∧ h'.deq = h.deq ∧ h'.grants = h.grants ∧ h'.js.djsuper = h.js.djsuper := by
  rcases Hist.step_cases he with ⟨n, rfl, -⟩ | ⟨k, rfl, -⟩ | ⟨-, rfl | ⟨-, rfl⟩⟩ | ⟨p, -, -, rfl⟩ |
    ⟨p, -, -, rfl⟩ | ⟨ts, rfl, -⟩
  · simp [Sys.IsWrite] at hop
  · simp [Sys.IsWrite] at hop
  · exact ⟨rfl, rfl, rfl, rfl⟩
  · exact ⟨rfl, rfl, rfl, rfl⟩
  · exact ⟨rfl, rfl, rfl, rfl⟩
  · exact ⟨rfl, rfl, rfl, rfl⟩
  · simp [Sys.IsWrite] at hop

theorem acquire_deq (h : Hist) (n : ℕ) : (h.acquire n).deq = h.deq := by
  unfold Hist.acquire
  dsimp only
  split <;> rfl

theorem acquire_enq_le (h : Hist) (n : ℕ) : h.enq ≤ (h.acquire n).enq := by
  unfold Hist.acquire
  dsimp only
  split
  · exact Nat.le_refl _
  · simp only [Hist.grant]
    omega

theorem EntryStep.frame {a : Act N} {s s' : Sys N} {i : ℕ} {e e' : SysEntry N} (he : Sys.EntryStep a s s' i e e') :
    s'.hist = s.hist ∧ s'.phase = s.phase ∧ s'.written = s.written ∧ s'.mark = s.mark ∧ s'.nImaged = s.nImaged := by
  rcases he with ⟨now, bitmaps, -, -, -, -, rfl⟩ | ⟨-, -, -, rfl⟩ | ⟨-, -, -, rfl⟩ | ⟨-, -, -, rfl⟩ <;>
    exact ⟨rfl, rfl, rfl, rfl, rfl⟩

theorem total_step {a : Act N} {s s' : Sys N} (ha : ∀ w, a ≠ .prepareForCheckpointing w) (he : Sys.step a s = some s') :
    s'.mark = s.mark ∧ s'.nImaged = s.nImaged ∧ s'.hist.deq + s'.due = s.hist.deq + s.due := by
  rcases Sys.step_cases he with ⟨w, n, -, -, -, ⟨-, rfl⟩ | ⟨-, rfl⟩⟩ | ⟨i, e, e', -, he⟩ | ⟨w, rfl, -⟩ |
    ⟨-, -, -, rfl⟩ | ⟨w, k, -, hk, -, rfl⟩ | ⟨w, now, -, hw, -, rfl⟩ | ⟨op, h, hop, hh, rfl, -⟩
  · exact ⟨rfl, rfl, rfl⟩
  · exact ⟨rfl, rfl, congrArg (· + s.due) (acquire_deq s.hist n)⟩
  · obtain ⟨h1, h2, -, h3, h4⟩ := EntryStep.frame he
    refine ⟨h3, h4, ?_⟩
    simp only [Sys.due, h1, h2]
  · exact absurd rfl (ha w)
  · exact ⟨rfl, rfl, rfl⟩
  · refine ⟨rfl, rfl, ?_⟩
    have hsum := sum_due_update s.phase w .released
    rw [hk, Phase.due_prepared, Phase.due_released] at hsum
    simp only [Sys.due, Sys.releaseSlots, Hist.release]
    omega
  · refine ⟨rfl, rfl, ?_⟩
    have hsum := sum_due_update s.phase w .idle
    rw [hw, Phase.due_released, Phase.due_idle] at hsum
    simp only [Sys.due, Sys.setStamp]
    omega
  · exact ⟨rfl, rfl, congrArg (· + s.due) (IsWrite.frame hop hh).2.1⟩

/-! ## The blocks released -/

/-- A release does not take more blocks than are in use: `n_used` stays a number of blocks. -/
def NoWrap (a : Act N) (s : Sys N) : Prop :=
  match a with
  | .releaseFirstNSlots w => (s.phase w).due ≤ s.hist.js.size
  | _ => True

/-- A worker that prepares finds that those before it recorded an empty ring. -/
def NothingDue (a : Act N) (s : Sys N) : Prop :=
  match a with
  | .prepareForCheckpointing _ => ∀ v, (s.phase v).due = 0
  | _ => True

instance (a : Act N) (s : Sys N) : Decidable (NothingDue a s) := by
  cases a <;> unfold NothingDue <;> infer_instance

/-- The checkpoint `acts`, taken by workers whose journal is `h` and leading to `s`,
released each block exactly once: as many as were in the ring when the last worker
prepared, and none of a slot granted after that. -/
structure ReleasedOnce (h : Hist) (acts : List (Act N)) (s : Sys N) : Prop where
  noWrap : Along Sys.step NoWrap acts (Sys.start h)
  deq : s.hist.deq = h.deq + s.nImaged
  tail : s.hist.js.djsuper.tail = (h.js.djsuper.tail + s.nImaged) % s.hist.js.capacity
  later : ∀ g ∈ s.hist.grants, s.mark ≤ g.pos → s.hist.deq ≤ g.pos

/-- Up to the write of the images nothing was released since `h`, and the mark is as far ahead of
the tail as the number that the last worker recorded. -/
structure Preparing (d : JSuperOnDisk) (h : Hist) (s : Sys N) : Prop where
  inv : Inv d s.hist
  written : s.written = false
  phase : ∀ w, s.phase w ≠ .released
  deq : s.hist.deq = h.deq
  le : s.mark ≤ s.hist.enq
  mark : s.mark = h.deq + s.nImaged

section

variable {d : JSuperOnDisk} {h : Hist} {s s' : Sys N} {a : Act N}

theorem preparing_start (hi : Inv d h) : Preparing d h (Sys.start h : Sys N) :=
  ⟨hi, rfl, by simp [Sys.start], rfl, Nat.le_refl _, hi.used⟩

theorem Preparing.step (hd : d.Geom) (hp : Preparing d h s) (ha : a ≠ .imagesWritten)
    (he : Sys.step a s = some s') : Preparing d h s' := by
  rcases Sys.step_cases he with ⟨w, n, -, -, hn, ⟨-, rfl⟩ | ⟨-, rfl⟩⟩ | ⟨i, e, e', -, he⟩ | ⟨w, -, -, -, rfl⟩ |
    ⟨rfl, -⟩ | ⟨w, k, -, -, hw, -⟩ | ⟨w, now, -, hw, -⟩ | ⟨op, h', hop, hh, rfl, -⟩
  · exact hp
  · exact ⟨hp.inv.acquire hd (hp.inv.bounded_of_le hd hn).used, hp.written, hp.phase, (acquire_deq _ _).trans hp.deq,
      hp.le.trans (acquire_enq_le _ _), hp.mark⟩
  · obtain ⟨h1, h2, h3, h4, h5⟩ := EntryStep.frame he
    exact ⟨h1 ▸ hp.inv, h3 ▸ hp.written, h2 ▸ hp.phase, h1 ▸ hp.deq,
      by rw [h1, h4]; exact hp.le, by rw [h4, h5]; exact hp.mark⟩
  · refine ⟨hp.inv, hp.written, fun v => ?_, hp.deq, Nat.le_refl _, ?_⟩
    · rcases eq_or_ne v w with rfl | hv
      · simp [Sys.prepare]
      · simpa [Sys.prepare, hv] using hp.phase v
    · rw [← hp.deq]; exact hp.inv.used
  · exact absurd rfl ha
  · rw [hp.written] at hw; cases hw
  · exact absurd hw (hp.phase w)
  · obtain ⟨h1, h2, -, -⟩ := IsWrite.frame hop hh
    refine ⟨hp.inv.step hd hh, hp.written, hp.phase, h2.trans hp.deq, ?_, hp.mark⟩
    simp only [Sys.setHist, h1]
    exact hp.le

theorem Preparing.noWrap (hp : Preparing d h s) (he : Sys.step a s = some s') : NoWrap a s := by
  cases a with
  | releaseFirstNSlots w =>
    simp only [Sys.step, hp.written, Bool.false_eq_true, if_false] at he
    split at he <;> cases he
  | _ => trivial

theorem prepare_due {w : Fin N} (hw : s.phase w = .idle) : (s.prepare w).due = s.due + s.hist.js.size := by
  have hsum := sum_due_update s.phase w (.prepared s.hist.js.size)
  rw [hw, Phase.due_prepared, Phase.due_idle] at hsum
  exact hsum

theorem Preparing.cases (hp : Preparing d h s) (ha : a ≠ .imagesWritten) (he : Sys.step a s = some s') :
    (∃ w, a = .prepareForCheckpointing w ∧ s.phase w = .idle ∧ s' = s.prepare w) ∨
    (∀ w, a ≠ .prepareForCheckpointing w) ∧ s'.phase = s.phase ∧ s'.mark = s.mark ∧ s'.hist.deq = s.hist.deq := by
  rcases Sys.step_cases he with ⟨w, n, rfl, -, -, ⟨-, rfl⟩ | ⟨-, rfl⟩⟩ | ⟨i, e, e', -, he⟩ |
    ⟨w, rfl, hw, -, rfl⟩ | ⟨rfl, -⟩ | ⟨w, k, -, -, hw, -⟩ | ⟨w, now, -, hw, -⟩ | ⟨op, h', hop, hh, rfl, -, hn, -⟩
  · exact .inr ⟨by simp, rfl, rfl, rfl⟩
  · exact .inr ⟨by simp, rfl, rfl, acquire_deq _ _⟩
  · obtain ⟨h1, h2, -, h4, -⟩ := EntryStep.frame he
    refine .inr ⟨?_, h2, h4, congrArg Hist.deq h1⟩
    rcases he with ⟨now, bitmaps, rfl, -⟩ | ⟨rfl, -⟩ | ⟨rfl, -⟩ | ⟨rfl, -⟩ <;> simp
  · exact .inl ⟨w, rfl, hw, rfl⟩
  · exact absurd rfl ha
  · rw [hp.written] at hw; cases hw
  · exact absurd hw (hp.phase w)
  · exact .inr ⟨hn, rfl, rfl, (IsWrite.frame hop hh).2.1⟩

/-- The blocks due are those in the ring when the last worker prepared. -/
def Exact (s : Sys N) : Prop := (∃ w, s.phase w ≠ .idle) → s.hist.deq + s.due = s.mark

/-- The releases that are due take blocks enqueued after the mark. -/
def Overdue (s : Sys N) : Prop := s.mark < s.hist.deq + s.due

section

variable (hp : Preparing d h s)

include hp

theorem Preparing.exact_step (ha : a ≠ .imagesWritten) (hn : NothingDue a s) (hx : Exact s)
    (he : Sys.step a s = some s') : Exact s' := by
  rcases hp.cases ha he with ⟨w, rfl, hw, rfl⟩ | ⟨-, h1, h2, h3⟩
  · intro _
    have h0 : s.due = 0 := Finset.sum_eq_zero fun v _ => hn v
    rw [prepare_due hw, h0, Nat.zero_add]
    exact hp.inv.used.symm
  · simp only [Exact, Sys.due, h1, h2, h3]
    exact hx

theorem Preparing.overdue_prepare {w : Fin N} (hw : s.phase w = .idle) (hdue : 0 < s.due) : Overdue (s.prepare w) := by
  have hu : (s.prepare w).mark = s.hist.deq + s.hist.js.size := hp.inv.used
  rw [Overdue, prepare_due hw, hu]
  simp only [Sys.prepare]
  omega

theorem Preparing.overdue_step (ha : a ≠ .imagesWritten) (ho : Overdue s) (he : Sys.step a s = some s') :
    Overdue s' := by
  rcases hp.cases ha he with ⟨w, rfl, hw, rfl⟩ | ⟨-, h1, h2, h3⟩
  · have := hp.mark
    have := hp.deq
    exact hp.overdue_prepare hw (by unfold Overdue at ho; omega)
  · simp only [Overdue, Sys.due, h1, h2, h3]
    exact ho

theorem Preparing.overdue_of_not (ha : a ≠ .imagesWritten) (hn : ¬ NothingDue a s) (he : Sys.step a s = some s') :
    Overdue s' := by
  rcases hp.cases ha he with ⟨w, rfl, hw, rfl⟩ | ⟨h1, -⟩
  · refine hp.overdue_prepare hw (Nat.pos_of_ne_zero fun h0 => hn fun v => ?_)
    exact Nat.le_zero.1 (h0 ▸ due_le s v)
  · cases a with
    | prepareForCheckpointing w => exact absurd rfl (h1 w)
    | _ => exact absurd trivial hn

end

theorem preparing_run (hd : d.Geom) {pre : List (Act N)} (hpre : .imagesWritten ∉ pre)
    (hp : Preparing d h s) (hr : run Sys.step pre s = some s') :
      Preparing d h s' ∧ (Exact s → Along Sys.step NothingDue pre s → Exact s') ∧
      (Overdue s → Overdue s') ∧ (¬ Along Sys.step NothingDue pre s → Overdue s') := by
  induction pre generalizing s with
  | nil =>
    cases hr
    exact ⟨hp, fun hx _ => hx, id, fun hn => absurd trivial hn⟩
  | cons a as ih =>
    obtain ⟨s1, h1, h2⟩ := run_cons_eq_some.1 hr
    have ha : a ≠ .imagesWritten := fun h => hpre (h ▸ List.mem_cons_self ..)
    obtain ⟨hp', hx', ho', hn'⟩ := ih (fun h => hpre (List.mem_cons_of_mem _ h)) (hp.step hd ha h1) h2
    refine ⟨hp', fun hx hal => ?_, fun ho => ho' (hp.overdue_step ha ho h1), fun hnot => ?_⟩
    · rw [along_cons_some h1] at hal
      exact hx' (hp.exact_step ha hal.1 hx h1) hal.2
    · rw [along_cons_some h1] at hnot
      by_cases hn : NothingDue a s
      · exact hn' fun h => hnot ⟨hn, h⟩
      · exact ho' (hp.overdue_of_not ha hn h1)

/-- The state while the workers complete the checkpoint: what is due was in the ring when
the last of them prepared. -/
structure Completing (d : JSuperOnDisk) (s : Sys N) : Prop where
  inv : Inv d s.hist
  due : s.hist.deq + s.due = s.mark
  le : s.mark ≤ s.hist.enq

theorem Completing.due_le_size (hc : Completing d s) (w : Fin N) : (s.phase w).due ≤ s.hist.js.size := by
  have := hc.inv.used
  have := hc.due
  have := hc.le
  have := due_le s w
  simp only [JSuper.size]
  omega

theorem Completing.noWrap (hc : Completing d s) : NoWrap a s := by
  cases a with
  | releaseFirstNSlots w => exact hc.due_le_size w
  | _ => trivial

theorem Completing.step (hd : d.Geom) (hc : Completing d s) (ha : ∀ w, a ≠ .prepareForCheckpointing w)
    (he : Sys.step a s = some s') : Completing d s' := by
  obtain ⟨hm, -, ht⟩ := total_step ha he
  have hdue : s'.hist.deq + s'.due = s'.mark := by rw [ht, hm]; exact hc.due
  rcases Sys.step_cases he with ⟨w, n, -, -, hn, ⟨-, rfl⟩ | ⟨-, rfl⟩⟩ | ⟨i, e, e', -, he⟩ | ⟨w, rfl, -⟩ |
    ⟨-, -, -, rfl⟩ | ⟨w, k, -, hk, -, rfl⟩ | ⟨w, now, -, -, -, rfl⟩ | ⟨op, h', hop, hh, rfl, -⟩
  · exact hc
  · exact ⟨hc.inv.acquire hd (hc.inv.bounded_of_le hd hn).used, hdue, hc.le.trans (acquire_enq_le _ _)⟩
  · obtain ⟨h1, -⟩ := EntryStep.frame he
    exact ⟨h1 ▸ hc.inv, hdue, by rw [h1, hm]; exact hc.le⟩
  · exact absurd rfl (ha w)
  · exact ⟨hc.inv, hdue, hc.le⟩
  · have hle := hc.due_le_size w
    rw [hk] at hle
    exact ⟨hc.inv.release hd hle, hdue, hc.le⟩
  · exact ⟨hc.inv.setLastCheckpoint now, hdue, hc.le⟩
  · refine ⟨hc.inv.step hd hh, hdue, ?_⟩
    rw [Sys.setHist, (IsWrite.frame hop hh).1]
    exact hc.le

end

theorem total_run {as : List (Act N)} {s s' : Sys N} (has : ∀ a ∈ as, ∀ w, a ≠ .prepareForCheckpointing w)
    (h : run Sys.step as s = some s') :
    s'.mark = s.mark ∧ s'.nImaged = s.nImaged ∧ s'.hist.deq + s'.due = s.hist.deq + s.due := by
  refine run_inv (P := fun a _ => ∀ w, a ≠ .prepareForCheckpointing w)
    (I := fun t : Sys N => t.mark = s.mark ∧ t.nImaged = s.nImaged ∧ t.hist.deq + t.due = s.hist.deq + s.due)
    (fun a t t' ht ha he => ?_) h (along_of_mem (fun a ha _ => has a ha) s) ⟨rfl, rfl, rfl⟩
  obtain ⟨h1, h2, h3⟩ := total_step ha he
  exact ⟨h1.trans ht.1, h2.trans ht.2.1, h3.trans ht.2.2⟩

/-- A checkpoint of any number of workers releases each block exactly once, if and only if
every worker that prepares finds that those before it recorded an empty ring. -/
theorem released_once_iff {d : JSuperOnDisk} (hd : EmptyJournal d) {ops : List Op} {h : Hist}
    (hr : run Hist.step ops (Hist.start d) = some h) (hN : 0 < N) {pre post : List (Act N)} {s : Sys N}
    (hpre : .imagesWritten ∉ pre) (hpost : ∀ w, .prepareForCheckpointing w ∉ post)
    (hrun : run Sys.step (pre ++ .imagesWritten :: post) (Sys.start h) = some s) (hidle : ∀ w, s.phase w = .idle) :
    ReleasedOnce h (pre ++ .imagesWritten :: post) s ↔ Along Sys.step NothingDue (pre ++ .imagesWritten :: post)
      (Sys.start h) := by
  have hi := reachable_inv hd hr
  rw [run_append, Option.bind_eq_some_iff] at hrun
  obtain ⟨s₁, hr₁, hrun⟩ := hrun
  obtain ⟨s₂, hstep, hr₂⟩ := run_cons_eq_some.mp hrun
  obtain ⟨hp, hexact, -, hover⟩ := preparing_run hd.geom hpre (preparing_start hi) hr₁
  have hpost' : ∀ a ∈ post, ∀ w, a ≠ .prepareForCheckpointing w := fun a ha w h => hpost w (h ▸ ha)
  have htotal : s.mark = s₁.mark ∧ s.nImaged = s₁.nImaged ∧ s.hist.deq + s.due = s₁.hist.deq + s₁.due := by
    refine total_run (fun a ha w => ?_) hrun
    rcases List.mem_cons.mp ha with rfl | ha
    · exact nofun
    · exact hpost' a ha w
  have hdue : s.due = 0 := Finset.sum_eq_zero fun w _ => by rw [hidle w]; rfl
  have hmark := hp.mark
  have hdeq := hp.deq
  constructor
  · intro hro
    have hal : Along Sys.step NothingDue pre (Sys.start h) := by
      by_contra hnot
      have := hover hnot
      have := hro.deq
      unfold Overdue at *
      omega
    rw [along_append hr₁, along_cons_some hstep]
    refine ⟨hal, trivial, along_of_mem (fun a ha t => ?_) s₂⟩
    cases a with
    | prepareForCheckpointing w => exact absurd rfl (hpost' _ ha w)
    | _ => trivial
  · intro hal
    rw [along_append hr₁] at hal
    have hx := hexact (fun ⟨w, hw⟩ => absurd rfl hw) hal.1
    have hstep' := hstep
    simp only [Sys.step, Option.ite_none_right_eq_some, Option.some.injEq] at hstep
    obtain ⟨⟨hall, -⟩, rfl⟩ := hstep
    have hc : Completing d s₁.writeImages := ⟨hp.inv, hx ⟨⟨0, hN⟩, hall _⟩, hp.le⟩
    have hprep : Along Sys.step (fun a _ => ∀ w, a ≠ .prepareForCheckpointing w) post s₁.writeImages :=
      along_of_mem (fun a ha _ => hpost' a ha) _
    have hcs : Completing d s := run_inv (fun a t t' ht ha he => ht.step hd.geom ha he) hr₂ hprep hc
    have htail : h.js.djsuper.tail = h.deq % d.capacity := hi.snap.tail
    have hcap : s.hist.js.capacity = d.capacity := hcs.inv.capacity
    have hsd := hcs.due
    refine ⟨?_, by omega, ?_, fun g _ hg => by omega⟩
    · rw [along_append hr₁, along_cons_some hstep']
      refine ⟨?_, trivial, ?_⟩
      · exact along_of_run (P := fun a _ => a ≠ .imagesWritten) (I := Preparing d h)
          (fun a t t' ht _ he => ht.noWrap he) (fun a t t' ht ha he => ht.step hd.geom ha he) hr₁
          (along_of_mem (fun a ha _ => ne_of_mem_of_not_mem ha hpre) _) (preparing_start hi)
      · exact along_inv (fun a t ht _ => ht.noWrap) (fun a t t' ht ha he => ht.step hd.geom ha he) hprep hc
    · rw [htail, hcap, Nat.mod_add_mod, show h.deq + s.nImaged = s.hist.deq by omega]
      exact hcs.inv.snap.tail

/-- An entry of 2 blocks, and a checkpoint of one worker during which another is granted. -/
def checkpointOfOne : List (Act 1) :=
  [.prepareForCheckpointing 0] ++ .imagesWritten ::
    [.acquireNextNSlots 0 3, .releaseFirstNSlots 0, .setLastCheckpoint 0 1]

theorem released_once_of_one : ∃ (h : Hist) (s : Sys 1), run Hist.step [.acquire 2] (Hist.start smallJournal) = some h ∧
    run Sys.step checkpointOfOne (Sys.start h) = some s ∧ ReleasedOnce h checkpointOfOne s := by
  refine ⟨_, _, rfl, rfl, ?_⟩
  exact (@released_once_iff 1 _ smallJournal_empty [.acquire 2] _ rfl Nat.one_pos _ _ _ (by decide) (by decide) rfl
    (by decide)).mpr (by decide)

/-- The two workers of `released_twice`: both find the entry of 2 blocks in the ring. -/
def checkpointOfTwo : List (Act 2) :=
  [.prepareForCheckpointing 0, .prepareForCheckpointing 1] ++ .imagesWritten ::
    [.releaseFirstNSlots 0, .setLastCheckpoint 0 1, .releaseFirstNSlots 1, .setLastCheckpoint 1 2]

/-- The second release takes two blocks from an empty ring, and `nUsed` wraps. -/
theorem released_twice : ∃ (h : Hist) (s : Sys 2), run Hist.step [.acquire 2] (Hist.start smallJournal) = some h ∧
    run Sys.step checkpointOfTwo (Sys.start h) = some s ∧ (∀ w, s.phase w = .idle) ∧
    s.hist.js.size = 2 ^ 64 - 2 ∧ ¬ ReleasedOnce h checkpointOfTwo s := by
  refine ⟨_, _, rfl, rfl, by decide, by decide, fun hro => ?_⟩
  exact absurd hro.deq (by decide)

end Ufs.Proof.Checkpoint
