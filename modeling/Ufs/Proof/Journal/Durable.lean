import Ufs.Impl.WriteCache

/-!
# What is durable when slots of the journal are used again

The data and the body of an entry are durable when its commit block is issued: the flush was issued
after their completion. The images of a checkpoint need a flush between their completion and the
release of the slots (`Flushed`), which `checkpointAllJournals` does not issue.

`reused_after_durable` has the first for all runs and the rest for those in which another flush does this;
`slot_released_before_images` is a run of the code without.
-/

namespace Ufs.Proof.WriteCache

open Impl WriteCache
open Function (update update_of_ne update_self)

variable {s s' : WriteCache} {l : WriteCache.Label} {safe : Prop}

/-- What is asked of every state, of the writes that may be on the device. -/
structure InTime (s : WriteCache) : Prop where
  commits : ∀ e, .commit e ∈ s.issued → .body e ∈ s.durable ∧ ∀ w ∈ s.issued, w.isData e → w ∈ s.durable
  supers : ∀ n, .jsuper n ∈ s.issued → ∀ c ∈ s.covers n, ∀ w ∈ s.issued, w.isImage c → w ∈ s.durable
  slots : ∀ e c, .body e ∈ s.issued → s.usesSlotOf e = some c → ∀ w ∈ s.issued, w.isImage c → w ∈ s.durable

/-- What is known of the writes of entry `e` in each of its states: before the commit record is
issued its body and the data are durable. -/
def Entered (s : WriteCache) (e : ℕ) : Prop :=
  match s.entry e with
  | .unsubmitted => .body e ∉ s.issued ∧ .commit e ∉ s.issued
  | .writeBody => .commit e ∉ s.issued ∧ ∀ w ∈ s.issued, w.isData e → w ∈ s.completed
  | .flush covered => .commit e ∉ s.issued ∧ .body e ∈ covered ∧ ∀ w ∈ s.issued, w.isData e → w ∈ covered
  | .writeCommit => .body e ∈ s.durable ∧ ∀ w ∈ s.issued, w.isData e → w ∈ s.durable

/-- The invariant; what depends on the flush before a release is there if the run is `safe`. -/
structure Cached (safe : Prop) (s : WriteCache) : Prop where
  entered : ∀ e, Entered s e
  flushed : ∀ covered ∈ s.flushed, covered ⊆ s.durable
  released : safe → ∀ c ∈ s.released, ∀ w ∈ s.issued, w.isImage c → w ∈ s.durable
  covers : ∀ n, .jsuper n ∈ s.issued → s.covers n ⊆ s.released
  slots : ∀ e c, .body e ∈ s.issued → s.usesSlotOf e = some c → c ∈ s.released

/-- The condition: before a checkpoint releases its slots, a flush that covers its images has completed. -/
def Flushed : WriteCache.Label → WriteCache → Prop
  | .onCheckpointSuccess c, s => ∃ covered ∈ s.flushed, ∀ w ∈ s.issued, w.isImage c → w ∈ covered
  | _, _ => True

variable {e : ℕ}

theorem Entered.keep (h : Entered s e) (hentry : s'.entry e = s.entry e) (hdurable : s.durable ⊆ s'.durable)
    (hcompleted : s.completed ⊆ s'.completed) (hbody : .body e ∈ s'.issued → .body e ∈ s.issued)
    (hcommit : .commit e ∈ s'.issued → .commit e ∈ s.issued) (hdata : ∀ w ∈ s'.issued, w.isData e → w ∈ s.issued) :
      Entered s' e := by
  unfold Entered at h ⊢
  rw [hentry]
  cases hs : s.entry e with
  | unsubmitted =>
    rw [hs] at h
    exact ⟨fun hx => h.1 (hbody hx), fun hx => h.2 (hcommit hx)⟩
  | writeBody =>
    rw [hs] at h
    exact ⟨fun hx => h.1 (hcommit hx), fun w hw hd => hcompleted (h.2 w (hdata w hw hd) hd)⟩
  | flush covered =>
    rw [hs] at h
    exact ⟨fun hx => h.1 (hcommit hx), h.2.1, fun w hw hd => h.2.2 w (hdata w hw hd) hd⟩
  | writeCommit =>
    rw [hs] at h
    exact ⟨hdurable h.1, fun w hw hd => hdurable (h.2 w (hdata w hw hd) hd)⟩

theorem mem_issue {w v : DevWrite} (h : v ∈ (s.issue w).issued) : v = w ∨ v ∈ s.issued := Finset.mem_insert.1 h

theorem mem_of_issue {w v : DevWrite} (h : v ∈ (s.issue w).issued) (hne : v ≠ w) : v ∈ s.issued :=
  (mem_issue h).resolve_left hne

section

variable (h : Cached safe s)

include h

theorem Cached.writeData {e k : ℕ} (he : s.entry e = .unsubmitted) : Cached safe (s.issue (.data e k)) := by
  refine ⟨fun e' => ?_, h.flushed, fun hsafe c hc w hw hi => ?_, fun n hn => ?_, fun e' c hb => ?_⟩
  · rcases eq_or_ne e' e with rfl | hne
    · have hold := h.entered e'
      unfold Entered at hold ⊢
      change s.entry e' = _ at he
      change match s.entry e' with
        | .unsubmitted => _
        | .writeBody => _
        | .flush _ => _
        | .writeCommit => _
      rw [he] at hold ⊢
      exact ⟨fun hx => hold.1 (mem_of_issue hx nofun), fun hx => hold.2 (mem_of_issue hx nofun)⟩
    · refine (h.entered e').keep rfl (Finset.Subset.refl _) (Finset.Subset.refl _) (fun hx => mem_of_issue hx nofun)
        (fun hx => mem_of_issue hx nofun) fun w hw hd => mem_of_issue hw ?_
      rintro rfl
      exact hne (beq_iff_eq.1 hd).symm
  · refine h.released hsafe c hc w (mem_of_issue hw ?_) hi
    rintro rfl
    cases hi
  · exact h.covers n (mem_of_issue hn nofun)
  · exact h.slots e' c (mem_of_issue hb nofun)

theorem Cached.complete (w : DevWrite) {durable : Finset DevWrite} (hd : s.durable ⊆ durable) :
    Cached safe { s with completed := insert w s.completed, durable := durable } :=
  ⟨fun e => (h.entered e).keep rfl hd (Finset.subset_insert ..) id id fun _ hw _ => hw,
    fun covered hc => (h.flushed covered hc).trans hd, fun hsafe c hc w hw hi =>
      hd (h.released hsafe c hc w hw hi), h.covers, h.slots⟩

theorem Cached.submitEntry {slotOf : Option ℕ} (he : s.entry e = .unsubmitted)
    (hdata : ∀ w ∈ s.issued, w.isData e → w ∈ s.completed) (hslot : ∀ c ∈ slotOf, c ∈ s.released) :
      Cached safe { s.issue (.body e) with
      entry := update s.entry e .writeBody
      usesSlotOf := update s.usesSlotOf e slotOf } := by
  refine ⟨fun e' => ?_, h.flushed, fun hsafe c hc w hw hi => ?_, fun n hn => ?_, fun e' c hb hs => ?_⟩
  · rcases eq_or_ne e' e with rfl | hne
    · have hold := h.entered e'
      unfold Entered at hold ⊢
      dsimp only
      rw [update_self]
      rw [he] at hold
      refine ⟨fun hx => hold.2 (mem_of_issue hx nofun), fun w hw hd => hdata w (mem_of_issue hw ?_) hd⟩
      rintro rfl
      cases hd
    · refine (h.entered e').keep (update_of_ne hne ..) (Finset.Subset.refl _) (Finset.Subset.refl _)
        (fun hx => mem_of_issue hx fun heq => hne (DevWrite.body.inj heq)) (fun hx => mem_of_issue hx nofun)
        fun w hw hd => mem_of_issue hw ?_
      rintro rfl
      cases hd
  · refine h.released hsafe c hc w (mem_of_issue hw ?_) hi
    rintro rfl
    cases hi
  · exact h.covers n (mem_of_issue hn nofun)
  · dsimp only at hs
    rcases eq_or_ne e' e with rfl | hne
    · rw [update_self] at hs
      exact hslot c hs
    · rw [update_of_ne hne] at hs
      exact h.slots e' c (mem_of_issue hb fun heq => hne (DevWrite.body.inj heq)) hs

theorem Cached.flush (he : s.entry e = .writeBody) (hb : .body e ∈ s.completed) :
    Cached safe { s with entry := update s.entry e (.flush s.completed) } := by
  refine ⟨fun e' => ?_, h.flushed, h.released, h.covers, h.slots⟩
  rcases eq_or_ne e' e with rfl | hne
  · have hold := h.entered e'
    unfold Entered at hold ⊢
    dsimp only
    rw [update_self]
    rw [he] at hold
    exact ⟨hold.1, hb, hold.2⟩
  · exact (h.entered e').keep (update_of_ne hne ..) (Finset.Subset.refl _) (Finset.Subset.refl _) id id fun _ hw _ => hw

variable {covered : Finset DevWrite}

theorem Cached.writeCommit (he : s.entry e = .flush covered) : Cached safe { s.issue (.commit e) with
      durable := s.durable ∪ covered
      flushed := covered :: s.flushed
      entry := update s.entry e .writeCommit } := by
  have hsub : s.durable ⊆ s.durable ∪ covered := Finset.subset_union_left
  refine ⟨fun e' => ?_, fun c hc => ?_, fun hsafe c hc w hw hi => ?_, fun n hn => ?_, fun e' c hb hs => ?_⟩
  · rcases eq_or_ne e' e with rfl | hne
    · have hold := h.entered e'
      unfold Entered at hold ⊢
      dsimp only
      rw [update_self]
      rw [he] at hold
      refine ⟨Finset.mem_union_right _ hold.2.1, fun w hw hd =>
        Finset.mem_union_right _ (hold.2.2 w (mem_of_issue hw ?_) hd)⟩
      rintro rfl
      cases hd
    · refine (h.entered e').keep (update_of_ne hne ..) hsub (Finset.Subset.refl _) (fun hx => mem_of_issue hx nofun)
        (fun hx => mem_of_issue hx fun heq => hne (DevWrite.commit.inj heq)) fun w hw hd => mem_of_issue hw ?_
      rintro rfl
      cases hd
  · rcases List.mem_cons.1 hc with rfl | hc
    · exact Finset.subset_union_right
    · exact (h.flushed c hc).trans hsub
  · refine hsub (h.released hsafe c hc w (mem_of_issue hw ?_) hi)
    rintro rfl
    cases hi
  · exact h.covers n (mem_of_issue hn nofun)
  · exact h.slots e' c (mem_of_issue hb nofun) hs

theorem Cached.writeImage {c k : ℕ} (hc : c ∉ s.released) : Cached safe (s.issue (.image c k)) := by
  refine ⟨fun e => ?_, h.flushed, fun hsafe c' hc' w hw hi => ?_, fun n hn => ?_, fun e c' hb => ?_⟩
  · refine (h.entered e).keep rfl (Finset.Subset.refl _) (Finset.Subset.refl _) (fun hx => mem_of_issue hx nofun)
      (fun hx => mem_of_issue hx nofun) fun w hw hd => mem_of_issue hw ?_
    rintro rfl
    cases hd
  · refine h.released hsafe c' hc' w (mem_of_issue hw ?_) hi
    rintro rfl
    exact hc (beq_iff_eq.1 hi ▸ hc')
  · exact h.covers n (mem_of_issue hn nofun)
  · exact h.slots e c' (mem_of_issue hb nofun)

theorem Cached.onCheckpointSuccess {c : ℕ}
    (hf : safe → ∃ covered ∈ s.flushed, ∀ w ∈ s.issued, w.isImage c → w ∈ covered) :
      Cached safe { s with released := insert c s.released } := by
  have hsub : s.released ⊆ insert c s.released := Finset.subset_insert ..
  refine ⟨h.entered, h.flushed, fun hsafe c' hc' w hw hi => ?_, fun n hn => (h.covers n hn).trans hsub,
    fun e c' hb hs => hsub (h.slots e c' hb hs)⟩
  rcases Finset.mem_insert.1 hc' with rfl | hc'
  · obtain ⟨covered, hin, hall⟩ := hf hsafe
    exact h.flushed covered hin (hall w hw hi)
  · exact h.released hsafe c' hc' w hw hi

theorem Cached.writeJSuper (n : ℕ) : Cached safe { s.issue (.jsuper n) with covers := update s.covers n s.released } := by
  refine ⟨fun e => ?_, h.flushed, fun hsafe c hc w hw hi => ?_, fun n' hn => ?_, fun e c hb hs => ?_⟩
  · refine (h.entered e).keep rfl (Finset.Subset.refl _) (Finset.Subset.refl _) (fun hx => mem_of_issue hx nofun)
      (fun hx => mem_of_issue hx nofun) fun w hw hd => mem_of_issue hw ?_
    rintro rfl
    cases hd
  · refine h.released hsafe c hc w (mem_of_issue hw ?_) hi
    rintro rfl
    cases hi
  · dsimp only
    rcases eq_or_ne n' n with rfl | hne
    · rw [update_self]
      exact Finset.Subset.refl _
    · rw [update_of_ne hne]
      exact h.covers n' (mem_of_issue hn fun heq => hne (DevWrite.jsuper.inj heq))
  · exact h.slots e c (mem_of_issue hb nofun) hs

theorem Cached.step (hf : safe → Flushed l s) (hstep : WriteCache.step l s = some s') : Cached safe s' := by
  unfold WriteCache.step at hstep
  cases l with
  | writeData e k =>
    dsimp only at hstep
    split at hstep
    · next hx =>
      cases hstep
      exact h.writeData hx.1
    · cases hstep
  | complete w =>
    dsimp only at hstep
    split at hstep
    · cases hstep
      refine h.complete w ?_
      split
      · exact Finset.subset_insert ..
      · exact Finset.Subset.refl _
    · cases hstep
  | submitEntry e slotOf =>
    dsimp only at hstep
    split at hstep
    · next hx =>
      cases hstep
      exact h.submitEntry hx.1 hx.2.1 hx.2.2
    · cases hstep
  | flush e =>
    dsimp only at hstep
    split at hstep
    · next hx =>
      cases hstep
      exact h.flush hx.1 hx.2
    · cases hstep
  | writeCommit e =>
    dsimp only at hstep
    split at hstep
    · next covered hx =>
      cases hstep
      exact h.writeCommit hx
    · cases hstep
  | writeImage c k =>
    dsimp only at hstep
    split at hstep
    · next hx =>
      cases hstep
      exact h.writeImage hx.1
    · cases hstep
  | onCheckpointSuccess c =>
    dsimp only at hstep
    split at hstep
    · cases hstep
      exact h.onCheckpointSuccess hf
    · cases hstep
  | writeJSuper n =>
    dsimp only at hstep
    split at hstep
    · cases hstep
    · cases hstep
      exact h.writeJSuper n

end

theorem cached_start : Cached safe start := by
  refine ⟨fun e => ⟨?_, ?_⟩, nofun, fun _ _ hc => absurd hc (Finset.notMem_empty _),
    fun _ hn => absurd hn (Finset.notMem_empty _), fun _ _ hb => absurd hb (Finset.notMem_empty _)⟩
  · exact Finset.notMem_empty _
  · exact Finset.notMem_empty _

theorem Cached.commits (h : Cached safe s) {e : ℕ} (he : .commit e ∈ s.issued) :
    .body e ∈ s.durable ∧ ∀ w ∈ s.issued, w.isData e → w ∈ s.durable := by
  have hold := h.entered e
  unfold Entered at hold
  split at hold
  · exact absurd he hold.2
  · exact absurd he hold.1
  · exact absurd he hold.1
  · exact hold

theorem Cached.inTime (h : Cached safe s) (hsafe : safe) : InTime s :=
  ⟨fun _ he => h.commits he, fun n hn c hc => h.released hsafe c (h.covers n hn hc),
    fun e c hb hs => h.released hsafe c (h.slots e c hb hs)⟩

/-- **Journal space is reused only after durable checkpoint writes**, in every run in which a flush
that covers the images of a checkpoint has completed before it releases its slots. In every run, the
body and the data of an entry are durable when its commit block is issued. -/
theorem reused_after_durable {ls : List WriteCache.Label} (hrun : run WriteCache.step ls start = some s) :
    (∀ e, .commit e ∈ s.issued → .body e ∈ s.durable ∧ ∀ w ∈ s.issued, w.isData e → w ∈ s.durable) ∧
    (Along WriteCache.step Flushed ls start → InTime s) := by
  have hcached (safe : Prop) (halong : Along WriteCache.step (fun l s => safe → Flushed l s) ls start) :
    Cached safe s :=
    run_inv (I := Cached safe) (fun _ _ _ h hf hstep => h.step hf hstep) hrun halong cached_start
  refine ⟨fun e he => ?_, fun halong => ?_⟩
  · exact (hcached False (along_of_mem (fun _ _ _ => False.elim) _)).commits he
  · have hflushed : Along WriteCache.step (fun l s => True → Flushed l s) ls start :=
      along_inv (I := fun _ => True) (fun _ _ _ hf _ => hf) (fun _ _ _ _ _ _ => trivial) halong trivial
    exact (hcached True hflushed).inTime trivial

/-- One fsync, up to the write of its commit record. -/
def oneFsync : List WriteCache.Label :=
  [.writeData 1 0, .complete (.data 1 0), .submitEntry 1 none, .complete (.body 1), .flush 1, .writeCommit 1]

theorem reused_after_durable_fsync : ∃ s, run WriteCache.step oneFsync start = some s ∧ .commit 1 ∈ s.issued ∧
    InTime s := by
  have hmap : (run WriteCache.step oneFsync start).map (fun s => decide (.commit 1 ∈ s.issued)) = some true := by
    decide +kernel
  obtain ⟨s, hrun, hcommit⟩ := Option.map_eq_some_iff.mp hmap
  have halong : Along WriteCache.step Flushed oneFsync start := by
    refine along_of_mem (fun l hl s => ?_) _
    simp only [oneFsync, List.mem_cons, List.not_mem_nil, or_false] at hl
    rcases hl with rfl | rfl | rfl | rfl | rfl | rfl <;> trivial
  exact ⟨s, hrun, of_decide_eq_true hcommit, (reused_after_durable hrun).2 halong⟩

/-- A checkpoint with one image, and the superblock after it. -/
def checkpointThenSuper : List WriteCache.Label :=
  [.writeImage 1 0, .complete (.image 1 0), .onCheckpointSuccess 1, .writeJSuper 1, .complete (.jsuper 1)]

/-- **A slot is released before the images are durable**: the superblock is durable, and the image may be lost. -/
theorem slot_released_before_images : ∃ s, run WriteCache.step checkpointThenSuper start = some s ∧
    .jsuper 1 ∈ s.durable ∧ 1 ∈ s.covers 1 ∧
      .image 1 0 ∉ s.durable := by
  have hmap : (run WriteCache.step checkpointThenSuper start).map
      (fun s => decide (.jsuper 1 ∈ s.durable ∧ 1 ∈ s.covers 1 ∧ .image 1 0 ∉ s.durable)) = some true := by
    decide +kernel
  obtain ⟨s, hrun, hall⟩ := Option.map_eq_some_iff.mp hmap
  exact ⟨s, hrun, of_decide_eq_true hall⟩

end Ufs.Proof.WriteCache
