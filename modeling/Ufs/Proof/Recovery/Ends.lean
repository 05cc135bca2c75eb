import Ufs.Proof.Recovery.Idempotent
import Ufs.Proof.Recovery.Loop

/-!
# When recovery ends

A loop that is to come to a header that does not fit never ends (`not_ended`): the number of blocks
comes from the device and is not checked. If the headers fit, every call of `getNextEntry` consumes
a block or finds less than a read gives in the buffer, and the loop ends by induction on what is
left of the region (`Ready.ends`). An entry that cannot be processed is tried again until the loop
throws.
-/

namespace Ufs.Proof.Recovery

open Impl JournalIterator Journal
open JournalIterator (ofJSuper)

/-! ## Runs of the loop -/

/-- The loop has ended, by itself or with an exception, and between any two reads it has consumed a
block. -/
def Ended : Outcome → Prop
  | .finished s | .threw s _ => s.ji.refills.Pairwise (· < ·)
  | .running _ | .terminate | .outOfBounds => False

/-- `n` more steps from time `t`, if the run has not ended. -/
def goOn (dev : Device) (completes : ℕ → Bool) (n t : ℕ) : Outcome → Outcome
  | .running s => s.steps dev completes n t
  | o => o

/-- A read is completed again and again. -/
def Fair (completes : ℕ → Bool) : Prop := ∀ t, ∃ t' ≥ t, completes t' = true

/-- A block was consumed between any two reads; if none was since the last one, all that it gave is in
the buffer. -/
def Decreasing (dev : Device) (it : JournalIterator) : Prop :=
  it.refills.Pairwise (· < ·) ∧ ∀ r ∈ it.refills.head?, it.jsuper.djsuper.nUsed ≤ r ∧
    (it.jsuper.djsuper.nUsed = r → it.jsuper.djsuper.nUsed ≠ 0 → Full dev it)

/-- What a run keeps, and what makes it end. -/
structure Ready (dev : Device) (B : ℕ) (s : Checkpointing) : Prop where
  base : Base dev B s
  fit : Fit dev s
  decreasing : Decreasing dev s.ji

theorem goOn_succ (dev : Device) (completes : ℕ → Bool) (n t : ℕ) (s : Checkpointing) :
    goOn dev completes (n + 1) t (.running s) = goOn dev completes n (t + 1) (s.step dev (completes t)) := by
  show s.steps dev completes (n + 1) t = _
  unfold Checkpointing.steps goOn
  cases s.step dev (completes t) <;> rfl

section

variable {dev : Device} {B : ℕ} {completes : ℕ → Bool}

theorem not_ended (hB : 0 < B) (n t : ℕ) {s : Checkpointing} (h : Base dev B s) (hf : ¬ Fit dev s) :
    ¬ Ended (goOn dev completes n t (.running s)) := by
  induction n generalizing t s with
  | zero => exact id
  | succ n ih =>
    rw [goOn_succ]
    have hs := preserves_step hB h (completes t)
    cases ho : s.step dev (completes t) with
    | running s' =>
      rw [ho] at hs
      exact ih (t + 1) hs.1 fun hf' => hf (hs.2.2 hf')
    | finished s' =>
      rw [ho] at hs
      exact absurd hs hf
    | threw s' what =>
      rw [ho] at hs
      exact absurd hs hf
    | terminate => exact id
    | outOfBounds => exact id

/-- The run ends after some number of steps. -/
def EndsFrom (dev : Device) (completes : ℕ → Bool) (t : ℕ) (o : Outcome) : Prop :=
  ∃ n, Ended (goOn dev completes n t o)

theorem EndsFrom.step {t : ℕ} {s : Checkpointing}
    (h : EndsFrom dev completes (t + 1) (s.step dev (completes t))) : EndsFrom dev completes t (.running s) := by
  obtain ⟨n, hn⟩ := h
  exact ⟨n + 1, by rwa [goOn_succ]⟩

variable {it it' : JournalIterator}

theorem Decreasing.consumed (h : Decreasing dev it) (hr : it'.refills = it.refills)
    (hlt : it'.jsuper.djsuper.nUsed = 0 ∨ it'.jsuper.djsuper.nUsed < it.jsuper.djsuper.nUsed) : Decreasing dev it' := by
  refine ⟨hr ▸ h.1, fun r hm => ?_⟩
  rw [hr] at hm
  have := (h.2 r hm).1
  exact ⟨by omega, fun _ _ => by omega⟩

theorem Decreasing.refilled (h : Decreasing dev it) (hr : Refilled dev it it')
    (hmoves : AtCursor.Moves (found dev it.devBufBlocks it.jsuper)) :
      Decreasing dev it' ∧ (it'.jsuper = it.jsuper → ¬ Full dev it) := by
  have hfull : it'.jsuper = it.jsuper → ¬ Full dev it := by
    intro he hfull
    rcases hr.progress with hlt | ⟨-, hc⟩
    · rw [he] at hlt
      omega
    · rw [hfull.cursor_eq] at hc
      rw [hc] at hmoves
      exact hmoves
  refine ⟨⟨?_, ?_⟩, hfull⟩
  · rw [hr.refills]
    refine List.pairwise_cons.2 ⟨fun r hm => ?_, h.1⟩
    -- The last read was before the block consumed since, and the earlier ones before it.
    cases hl : it.refills with
    | nil => rw [hl] at hm; cases hm
    | cons last rest =>
      have hlast : it'.jsuper.djsuper.nUsed < last := by
        obtain ⟨hle, hlast⟩ := h.2 last (by rw [hl]; rfl)
        rcases hr.progress with hlt | ⟨he, -⟩
        · omega
        · have hleft := hr.left
          rw [he] at hleft ⊢
          exact lt_of_le_of_ne hle fun h' => hfull he (hlast h' hleft)
      rw [hl] at hm
      rcases List.mem_cons.1 hm with rfl | hm
      · exact hlast
      · have := h.1
        rw [hl] at this
        exact hlast.trans ((List.pairwise_cons.1 this).1 r hm)
  · intro r hm
    rw [hr.refills, List.head?_cons, Option.mem_def, Option.some.injEq] at hm
    exact ⟨hm.le, fun _ _ => hr.full⟩

/-- What the loop has after it has asked for an entry: less of the region, or no entry and nothing
left, or no entry and all that a read gives in the buffer, for the first time. -/
structure Taken (dev : Device) (B : ℕ) (s : Checkpointing) (next : LoopHead) (s' : Checkpointing) : Prop where
  ready : Ready dev B s'
  progress : s'.ji.jsuper.djsuper.nUsed < s.ji.jsuper.djsuper.nUsed ∨
    s'.jentry = none ∧ s'.head = next ∧
      (s'.ji.jsuper.djsuper.nUsed = 0 ∨ s'.ji.jsuper = s.ji.jsuper ∧ Full dev s'.ji ∧ ¬ Full dev s.ji)

theorem taken_takeNextEntry (hB : 0 < B) {s : Checkpointing} (hg : Good dev s.ji) (hb : s.ji.devBufBlocks = B)
    (hp : s.ji.pendingIO = false) (hfit : HeadersFit dev B s.ji.jsuper s.metadata) (hd : Decreasing dev s.ji)
    (next : LoopHead) : ∃ s', s.takeNextEntry dev next = .running s' ∧ Taken dev B s next s' := by
  have hs := preserves_takeNextEntry hB hg hb hp next
  have ha := answers_getNextEntry hg (hb ▸ hB) hp
  unfold Checkpointing.takeNextEntry at hs ⊢
  cases hr : s.ji.getNextEntry dev with
  | entry je it =>
    rw [hr] at ha hs
    obtain ⟨hm, -, hrf, j, k, hsk, hn, hf, hj⟩ := ha
    have hlt : it.jsuper.djsuper.nUsed < s.ji.jsuper.djsuper.nUsed := by
      obtain ⟨hin, hle⟩ := hsk.inRing hg.inRing
      rw [hj]
      exact (hin.entry hf).2.trans_le hle
    exact ⟨_, rfl, ⟨hs.1, hs.2.1 hfit, hd.consumed hrf (.inr hlt)⟩, .inl hlt⟩
  | null it =>
    rw [hr] at ha hs
    obtain ⟨hm, hsk, hend | href⟩ := ha
    · obtain ⟨h0, -, hrf⟩ := hend
      exact ⟨_, rfl, ⟨hs.1, hs.2.1 hfit, hd.consumed hrf (.inl h0)⟩, .inr ⟨rfl, rfl, .inl h0⟩⟩
    · have hn : s.ji.jsuper.djsuper.nUsed ≠ 0 := by
        have := (hsk.inRing hg.inRing).2
        have := href.left
        omega
      have hmoves := (fits_iff hg.inRing hB hn).1 (hfit _ _ (.refl _ _) hn)
      rw [← hb] at hmoves
      obtain ⟨hd', hfull⟩ := hd.refilled href hmoves
      refine ⟨_, rfl, ⟨hs.1, hs.2.1 hfit, hd'⟩, ?_⟩
      rcases href.progress with hlt | ⟨he, -⟩
      · exact .inl hlt
      · exact .inr ⟨rfl, rfl, .inr ⟨he, href.full, hfull he⟩⟩
  | terminate =>
    rw [hr] at hs
    exact absurd hfit hs
  | outOfBounds =>
    rw [hr] at hs
    exact absurd hfit hs

theorem Ready.taken (hB : 0 < B) {s : Checkpointing} (h : Ready dev B s) (hj : s.jentry = none) :
    ∃ s', (s.processCompletions true).takeNextEntry dev .queue = .running s' ∧ Taken dev B s .queue s' := by
  obtain ⟨s', hs', htaken⟩ := taken_takeNextEntry (s := s.processCompletions true) hB
    ⟨h.base.good.inRing, h.base.good.buffered⟩ h.base.blocks rfl ((h.base.fit_none hj).1 h.fit) h.decreasing .queue
  exact ⟨s', hs', htaken.ready, htaken.progress⟩

/-! ### Every state ends

`IH` is what is known of the states with less of the region left. -/

variable {N : ℕ} {t : ℕ} {s : Checkpointing}

theorem Ready.ends_of_nothing_left (h : Ready dev B s) (hj : s.jentry = none) (h0 : s.ji.jsuper.djsuper.nUsed = 0) :
    EndsFrom dev completes t (.running s) := by
  have hqueue : ∀ t s, Ready dev B s → s.jentry = none → s.ji.jsuper.djsuper.nUsed = 0 → s.head = .queue →
      EndsFrom dev completes t (.running s) := by
    intro t s h hj h0 hh
    apply EndsFrom.step
    rw [step_queue hh]
    cases completes t with
    | false =>
      rw [turn_finished (s := s.processCompletions false) hj h0]
      exact ⟨0, h.decreasing.1⟩
    | true =>
      rw [turn_finished (s := s.processCompletions true) hj h0]
      exact ⟨0, h.decreasing.1⟩
  cases hh : s.head with
  | queue => exact hqueue t s h hj h0 hh
  | process =>
    apply EndsFrom.step
    rw [step_process hh, innerTurn_none hj]
    exact hqueue _ _ ⟨⟨h.base.good, h.base.blocks, h.base.idle⟩, h.fit, h.decreasing⟩ hj h0 rfl

theorem endsFrom_of_wait (hfair : Fair completes) (hh : s.head = .queue) (hj : s.jentry = none)
    (hn : s.ji.jsuper.djsuper.nUsed ≠ 0)
    (h : ∀ t, EndsFrom dev completes t ((s.processCompletions true).takeNextEntry dev .queue)) :
      EndsFrom dev completes t (.running s) := by
  obtain ⟨t', hle, hc⟩ := hfair t
  obtain ⟨d, rfl⟩ := Nat.exists_eq_add_of_le hle
  clear hle
  -- By induction on the time until the read is complete.
  induction d generalizing t with
  | zero =>
    apply EndsFrom.step
    rw [step_queue hh, show completes t = true from hc, turn_take (s := s.processCompletions true) hj hn rfl]
    exact h _
  | succ d ih =>
    apply EndsFrom.step
    rw [step_queue hh]
    cases completes t with
    | true =>
      rw [turn_take (s := s.processCompletions true) hj hn rfl]
      exact h _
    | false =>
      cases hp : s.ji.pendingIO with
      | false =>
        rw [← processCompletions_of_idle hp true]
        rw [turn_take (s := (s.processCompletions true).processCompletions false) hj hn rfl]
        exact h _
      | true =>
        rw [turn_pending (s := s.processCompletions false) hj hn hp]
        exact ih (by rwa [show t + 1 + d = t + (d + 1) by omega])

variable {je : JournalEntry}

section

variable (hB : 0 < B) (hfair : Fair completes)
  (IH : ∀ t s, Ready dev B s → s.ji.jsuper.djsuper.nUsed < N → EndsFrom dev completes t (.running s))
    (h : Ready dev B s)

include hB hfair IH h

section

variable (hh : s.head = .queue) (hj : s.jentry = none) (hN : s.ji.jsuper.djsuper.nUsed = N)

include hh hj hN

theorem Ready.ends_of_full (hn : N ≠ 0) (hfull : Full dev s.ji) : EndsFrom dev completes t (.running s) := by
  refine endsFrom_of_wait hfair hh hj (hN ▸ hn) fun t => ?_
  obtain ⟨s', hs', htaken⟩ := h.taken hB hj
  rw [hs']
  rcases htaken.progress with hlt | ⟨hj', -, h0 | ⟨-, -, hnot⟩⟩
  · exact IH t s' htaken.ready (hN ▸ hlt)
  · exact htaken.ready.ends_of_nothing_left hj' h0
  · exact absurd hfull hnot

theorem Ready.ends_of_queue : EndsFrom dev completes t (.running s) := by
  rcases Nat.eq_zero_or_pos N with h0 | hpos
  · exact h.ends_of_nothing_left hj (hN.trans h0)
  refine endsFrom_of_wait hfair hh hj (by omega) fun t => ?_
  obtain ⟨s', hs', htaken⟩ := h.taken hB hj
  rw [hs']
  rcases htaken.progress with hlt | ⟨hj', hh', h0 | ⟨he, hfull, -⟩⟩
  · exact IH t s' htaken.ready (hN ▸ hlt)
  · exact htaken.ready.ends_of_nothing_left hj' h0
  · have hN' : s'.ji.jsuper.djsuper.nUsed = N := by rw [he]; exact hN
    exact htaken.ready.ends_of_full hB hfair IH hh' hj' hN' hpos.ne' hfull

end

theorem Ready.ends_of_none (hj : s.jentry = none) (hN : s.ji.jsuper.djsuper.nUsed = N) :
    EndsFrom dev completes t (.running s) := by
  cases hh : s.head with
  | queue => exact h.ends_of_queue hB hfair IH hh hj hN
  | process =>
    apply EndsFrom.step
    rw [step_process hh, innerTurn_none hj]
    have hready : Ready dev B { s with head := .queue } :=
      ⟨⟨h.base.good, h.base.blocks, h.base.idle⟩, h.fit, h.decreasing⟩
    exact hready.ends_of_queue hB hfair IH rfl hj hN

theorem Ready.ends_of_can (hj : s.jentry = some je) (hc : s.metadata.canProcessJournalEntry je = true)
    (hN : s.ji.jsuper.djsuper.nUsed = N)
    (hh : s.head = .process) : EndsFrom dev completes t (.running s) := by
  apply EndsFrom.step
  rw [step_process hh, innerTurn_can hj hc]
  obtain ⟨s', hs', htaken⟩ := taken_takeNextEntry (s := processed je s) hB h.base.good h.base.blocks
    (h.base.idle je hj) ((h.base.fit_can hj hc).1 h.fit) h.decreasing .process
  rw [hs']
  rcases htaken.progress with hlt | ⟨hj', -, h0 | ⟨he, -, -⟩⟩
  · exact IH _ s' htaken.ready (hN ▸ hlt)
  · exact htaken.ready.ends_of_nothing_left hj' h0
  · have hN' : s'.ji.jsuper.djsuper.nUsed = N := by rw [he]; exact hN
    exact htaken.ready.ends_of_none hB hfair IH hj' hN'

end

theorem endsFrom_of_retry (d t : ℕ) {s : Checkpointing} (hd : 6 - s.timesJentryEnqueued ≤ d)
    (hh : s.head = .queue) (hj : s.jentry = some je) (hc : s.metadata.canProcessJournalEntry je = false)
    (hp : s.ji.pendingIO = false) (hr : s.ji.refills.Pairwise (· < ·)) : EndsFrom dev completes t (.running s) := by
  induction d generalizing t s with
  | zero =>
    apply EndsFrom.step
    rw [step_queue hh, processCompletions_of_idle hp, turn_entry hj hp, if_pos ⟨by omega, hc⟩]
    exact ⟨0, hr⟩
  | succ d ih =>
    apply EndsFrom.step
    rw [step_queue hh, processCompletions_of_idle hp, turn_entry hj hp]
    split
    · exact ⟨0, hr⟩
    · apply EndsFrom.step
      rw [step_process rfl, innerTurn_cannot (s := { s with head := .process }) hj hc]
      exact ih _ (by dsimp only; omega) rfl hj hc hp hr

theorem Ready.ends_of_cannot (h : Ready dev B s) (hj : s.jentry = some je)
    (hc : s.metadata.canProcessJournalEntry je = false) : EndsFrom dev completes t (.running s) := by
  cases hh : s.head with
  | queue => exact endsFrom_of_retry _ t (Nat.le_refl _) hh hj hc (h.base.idle je hj) h.decreasing.1
  | process =>
    apply EndsFrom.step
    rw [step_process hh, innerTurn_cannot hj hc]
    exact endsFrom_of_retry _ _ (Nat.le_refl _) rfl hj hc (h.base.idle je hj) h.decreasing.1

theorem Ready.ends (hB : 0 < B) (hfair : Fair completes) (h : Ready dev B s) :
    EndsFrom dev completes t (.running s) := by
  induction hN : s.ji.jsuper.djsuper.nUsed using Nat.strong_induction_on generalizing t s with
  | _ N ih =>
    have IH : ∀ t s, Ready dev B s → s.ji.jsuper.djsuper.nUsed < N → EndsFrom dev completes t (.running s) :=
      fun t s hs hlt => ih _ hlt hs rfl
    cases hj : s.jentry with
    | none => exact h.ends_of_none hB hfair IH hj hN
    | some je =>
      cases hc : s.metadata.canProcessJournalEntry je with
      | false => exact h.ends_of_cannot hj hc
      | true =>
        cases hh : s.head with
        | process => exact h.ends_of_can hB hfair IH hj hc hN hh
        | queue =>
          have hready : Ready dev B { s with head := .process } :=
            ⟨⟨h.base.good, h.base.blocks, h.base.idle⟩, h.fit, h.decreasing⟩
          apply EndsFrom.step
          rw [step_queue hh, processCompletions_of_idle (h.base.idle je hj), turn_entry hj (h.base.idle je hj),
            if_neg (by simp [hc])]
          exact hready.ends_of_can hB hfair IH hj hc hN rfl

end

/-! ## Recovery -/

/-- Recovery ends, by itself or with an exception, whenever the reads are complete at some time, and it
consumes a block between any two reads. -/
def RecoveryEnds (dev : Device) (sb B : ℕ) (m : Metadata) (dj : JSuperOnDisk) : Prop :=
  ∀ completes, Fair completes → ∃ n o, checkpointLoop dev completes n sb B m dj = .ok o ∧ Ended o

theorem seed_eq (dev : Device) (m : Metadata) {B : ℕ} {j : JSuper} (hB : 0 < B) (hr : InRing j)
    (hn : j.djsuper.nUsed ≠ 0) :
    ∃ s, Checkpointing.seed dev m (ofJSuper j B) = .running s ∧ Base dev B s ∧
      Decreasing dev s.ji ∧ (Fit dev s ↔ HeadersFit dev B j m) ∧ s.ji.jsuper = j ∧ s.jentry = none ∧
        s.numJentriesProcessed = 0 := by
  have hfill := fillDevBuffer_eq dev (ofJSuper j B) hr hB hn
  obtain ⟨hgood, hfull⟩ := Good.fill dev (ofJSuper j B) hr hB hn
  have hnext : (ofJSuper j B).getNextEntry dev = .null ((ofJSuper j B).fillDevBuffer dev) := by
    have hempty : (ofJSuper j B).empty = false := by
      rw [← Bool.not_eq_true, empty_iff]
      exact hn
    unfold getNextEntry
    rw [hempty]
    show (if (ofJSuper j B).empty then _ else _) = _
    rw [hempty]
    rfl
  refine ⟨⟨.queue, (ofJSuper j B).fillDevBuffer dev, none, 0, 0, m⟩, ?_,
    ⟨hgood, by rw [hfill]; rfl, nofun⟩, ?_, ?_, by rw [hfill]; rfl, rfl, rfl⟩
  · unfold Checkpointing.seed
    rw [hnext]
  · dsimp only
    rw [hfill] at hfull ⊢
    refine ⟨List.pairwise_singleton _ _, fun r hm => ?_⟩
    rw [List.head?_cons, Option.mem_def, Option.some.injEq] at hm
    exact ⟨hm.le, fun _ _ => hfull⟩
  · show HeadersFit dev _ _ m ↔ _
    rw [hfill]
    rfl

theorem checkpointLoop_eq (dev : Device) (m : Metadata) {sb B : ℕ} {dj : JSuperOnDisk} (hB : 0 < B)
    (hv : validateJSuper sb (JSuper.ofDisk dj) = .ok ()) (hr : Scannable dj) :
    ∃ s, Base dev B s ∧ Decreasing dev s.ji ∧ (Fit dev s ↔ HeadersFit dev B (extended dj) m) ∧
      (s.ji.jsuper = extended dj ∧ s.jentry = none ∧ s.numJentriesProcessed = 0) ∧
      ∀ completes n, checkpointLoop dev completes n sb B m dj = .ok (goOn dev completes n 0 (.running s)) := by
  obtain ⟨he, hn⟩ := extend_of_accepted hr.toSmall hv
  obtain ⟨s, hseed, hbase, hdec, hfit, hstart⟩ := seed_eq dev m hB hr.inRing hn
  refine ⟨s, hbase, hdec, hfit, hstart, fun completes n => ?_⟩
  unfold checkpointLoop
  rw [hv, he]
  simp only [bind, Except.bind, hseed]
  rfl

section

variable {dev : Device} {m : Metadata} {sb B : ℕ} {dj : JSuperOnDisk}

section

variable (hB : 0 < B) (hv : validateJSuper sb (JSuper.ofDisk dj) = .ok ()) (hr : Scannable dj)

include hB hv hr

theorem headersFit_of_recoveryEnds (hends : RecoveryEnds dev sb B m dj) : HeadersFit dev B (extended dj) m := by
  obtain ⟨s, hb, -, hfit, -, hloop⟩ := checkpointLoop_eq dev m hB hv hr
  by_contra hnot
  obtain ⟨n, o, hrun, hend⟩ := hends (fun _ => true) fun t => ⟨t, Nat.le_refl _, rfl⟩
  rw [hloop, Except.ok.injEq] at hrun
  exact not_ended hB n 0 hb (fun h => hnot (hfit.1 h)) (hrun ▸ hend)

theorem recoveryEnds_of_headersFit (hfits : HeadersFit dev B (extended dj) m) : RecoveryEnds dev sb B m dj := by
  obtain ⟨s, hb, hd, hfit, -, hloop⟩ := checkpointLoop_eq dev m hB hv hr
  intro completes hfair
  have hready : Ready dev B s := ⟨hb, hfit.2 hfits, hd⟩
  obtain ⟨n, hend⟩ : EndsFrom dev completes 0 (.running s) := hready.ends hB hfair
  exact ⟨n, _, hloop completes n, hend⟩

end

end

/-- Recovery from a superblock that it accepts ends exactly when the headers that the scan comes to
fit, if the end of the region is the end of the ring for a region that goes past it. -/
theorem recovery_ends (dev : Device) (m : Metadata) {sb B : ℕ} {dj : JSuperOnDisk} (hB : maxBlocks ≤ B)
    (hv : validateJSuper sb (JSuper.ofDisk dj) = .ok ()) :
    (Scannable dj ∧ HeadersFit dev B (extended dj) m → RecoveryEnds dev sb B m dj) ∧
    (Scannable dj → RecoveryEnds dev sb B m dj → HeadersFit dev B (extended dj) m) := by
  have hB' := pos_of_maxBlocks_le hB
  exact ⟨fun h => recoveryEnds_of_headersFit hB' hv h.1 h.2, headersFit_of_recoveryEnds hB' hv⟩

theorem recovery_ends_zeros : RecoveryEnds (journalOf []) (globalJSuper 0).jsuperBlockno 32 blank (globalJSuper 0) := by
  refine (recovery_ends _ blank (Nat.le_refl _) (globalJSuper_accepted 0)).1
    ⟨scannable_globalJSuper 0, fun j _ _ _ hf => ?_⟩
  rw [show blockAt (journalOf []) j = padded [] from ite_self _] at hf
  exact absurd hf (not_freshHeader_zeros _)

/-- A header newer than the checkpoint that counts `nblocks` blocks. -/
def headerCounting (nblocks : UInt64) : Block :=
  padded (Codec.put jbodyMagic ++ Codec.put (1 : UInt64) ++ Codec.put (48 : UInt64) ++ Codec.put (0 : UInt64) ++
    Codec.put (0 : UInt64) ++ Codec.put nblocks)

theorem not_recoveryEnds_of_header {b : Block} (hf : FreshHeader 0 b.1)
    (hk : headerBlocks b.1 = 0 ∨ 32 < headerBlocks b.1) (m : Metadata) :
    ¬ RecoveryEnds (journalOf [b]) (globalJSuper 0).jsuperBlockno 32 m (globalJSuper 0) := by
  intro hends
  have hfits := headersFit_of_recoveryEnds (by decide) (globalJSuper_accepted 0) (scannable_globalJSuper 0) hends _ _
    (.refl _ _) (extend_of_accepted (scannable_globalJSuper 0).toSmall (globalJSuper_accepted 0)).2
  have hb : blockAt (journalOf [b]) (extended (globalJSuper 0)) = b := journalOf_add [b] 0
  unfold Fits at hfits
  rw [hb] at hfits
  have hw := (window_le 32 (extended (globalJSuper 0))).1
  have := hfits hf
  omega

/-- The first block of the journal is taken for the header of an entry that counts more blocks than
the buffer has, or none. -/
theorem rereads_forever : ¬ RecoveryEnds (journalOf [headerCounting 33]) (globalJSuper 0).jsuperBlockno 32 blank
    (globalJSuper 0) ∧
    ¬ RecoveryEnds (journalOf [headerCounting 0]) (globalJSuper 0).jsuperBlockno 32 blank (globalJSuper 0) :=
  ⟨not_recoveryEnds_of_header (by decide +kernel) (by decide +kernel) blank,
    not_recoveryEnds_of_header (by decide +kernel) (by decide +kernel) blank⟩

end Ufs.Proof.Recovery
