import Ufs.Proof.Recovery.Ends
import Ufs.Proof.Recovery.Idempotent
import Ufs.Proof.Recovery.Scan

/-!
# What recovery leaves

The loop of the offline checkpointer has processed the entries that it found before the one that it
holds (`Replayed`). So a loop that finishes has replayed what the scan finds, in its order, however
the reads completed, and a second one after a crash leaves the same.
-/

namespace Ufs.Proof.Recovery

open Impl JournalIterator Entry List

section

variable {dev : Device} {sb B n : ℕ} {j j' j'' : JSuper} {m : Metadata} {es es' : List JournalEntry} {s : Checkpointing} {completes : ℕ → Bool}

theorem Finds.trans (hf : Finds dev B j es j') (hf' : Finds dev B j' es' j'') : Finds dev B j (es ++ es') j'' := by
  induction hf with
  | refl => exact hf'
  | skip hn h _ ih => exact .skip hn h (ih hf')
  | entry hn h _ ih => exact .entry hn h (ih hf')

/-- What is found on the way to the end comes first. -/
theorem Finds.prefix_of_end (hf : Finds dev B j es j') (hf' : Finds dev B j es' j'') (h0 : j''.djsuper.nUsed = 0) :
    es <+: es' := by
  induction hf generalizing es' with
  | refl => exact nil_prefix
  | skip hn h _ ih => exact ih (hf'.of_skip h0 hn h)
  | entry hn h _ ih =>
    obtain ⟨rest, rfl, hrest⟩ := hf'.of_entry h0 hn h
    exact (prefix_cons_inj _).2 (ih hrest)

theorem Finds.headersFit (hf : Finds dev B j es j') (h0 : j'.djsuper.nUsed = 0) (h : InRing j) (hB : 0 < B) :
    HeadersFit dev B j m := by
  induction hf generalizing m with
  | refl => exact headersFit_end h0
  | skip hn hfound _ ih => exact (headersFit_skip h hB hn hfound).2 (ih h0 (h.skip hfound).1)
  | entry hn hfound _ ih => exact (headersFit_entry h hB hn hfound).2 fun _ => ih h0 (h.entry hfound).1

/-- Of a loop that started at `j` with the metadata `m`. -/
def Replayed (dev : Device) (B : ℕ) (j : JSuper) (m : Metadata) (held : Option JournalEntry) (s : Checkpointing) :
    Prop :=
  ∃ es, Finds dev B j (es ++ held.toList) s.ji.jsuper ∧ s.metadata = m.processJournal es

/-- What is replayed when a run is in the outcome. -/
def ReplayedAfter (dev : Device) (B : ℕ) (j : JSuper) (m : Metadata) : Outcome → Prop
  | .running s => Replayed dev B j m s.jentry s
  | .finished s => Replayed dev B j m none s ∧ s.ji.jsuper.djsuper.nUsed = 0
  | .threw s _ => ∃ je, Replayed dev B j m (some je) s ∧ s.metadata.canProcessJournalEntry je = false
  | _ => True

theorem Replayed.process {je : JournalEntry} (h : Replayed dev B j m (some je) s) :
    Replayed dev B j m none (processed je s) := by
  obtain ⟨es, hf, hm⟩ := h
  refine ⟨es ++ [je], by simpa [processed] using hf, ?_⟩
  simp [processed, hm, Metadata.processJournal]

variable (hB : 0 < B)

include hB

theorem replayedAfter_take (hg : Good dev s.ji) (hb : s.ji.devBufBlocks = B) (hp : s.ji.pendingIO = false)
    (h : Replayed dev B j m none s) (next : LoopHead) : ReplayedAfter dev B j m (s.takeNextEntry dev next) := by
  obtain ⟨es, hf, hm⟩ := h
  rw [Option.toList_none, append_nil] at hf
  subst hb
  have ha := answers_getNextEntry hg hB hp
  unfold Checkpointing.takeNextEntry
  cases hr : s.ji.getNextEntry dev with
  | entry je it =>
    rw [hr] at ha
    obtain ⟨-, -, -, j', k, hs, hn, hfound, hj⟩ := ha
    exact ⟨es, hj ▸ hf.trans (hs.finds (.entry hn hfound (.refl _))), hm⟩
  | null it =>
    rw [hr] at ha
    obtain ⟨-, hs, -⟩ := ha
    exact ⟨es, hf.trans (hs.finds (.refl _)), hm⟩
  | _ => trivial

variable (hb : Base dev B s) (h : Replayed dev B j m s.jentry s)

include hb h

theorem replayedAfter_turn : ReplayedAfter dev B j m (s.turn dev) := by
  cases hj : s.jentry with
  | none =>
    have h' := hj ▸ h
    by_cases h0 : s.ji.jsuper.djsuper.nUsed = 0
    · rw [turn_finished hj h0]
      exact ⟨h', h0⟩
    cases hp : s.ji.pendingIO with
    | true =>
      rw [turn_pending hj h0 hp]
      exact h
    | false =>
      rw [turn_take hj h0 hp]
      exact replayedAfter_take hB hb.good hb.blocks hp h' .queue
  | some je =>
    rw [turn_entry hj (hb.idle je hj)]
    split_ifs with hc
    · exact ⟨je, hj ▸ h, hc.2⟩
    · exact h

theorem replayedAfter_innerTurn : ReplayedAfter dev B j m (s.innerTurn dev) := by
  cases hj : s.jentry with
  | none =>
    rw [innerTurn_none hj]
    exact h
  | some je =>
    cases hc : s.metadata.canProcessJournalEntry je with
    | true =>
      rw [innerTurn_can hj hc]
      exact replayedAfter_take (s := processed je s) hB hb.good hb.blocks (hb.idle je hj) (hj ▸ h).process .process
    | false =>
      rw [innerTurn_cannot hj hc]
      exact h

theorem replayedAfter_goOn (t : ℕ) : ReplayedAfter dev B j m (goOn dev completes n t (.running s)) := by
  induction n generalizing t s with
  | zero => exact h
  | succ n ih =>
    rw [goOn_succ]
    have hstep : ReplayedAfter dev B j m (s.step dev (completes t)) := by
      cases hh : s.head with
      | queue =>
        rw [step_queue hh]
        refine replayedAfter_turn hB (hb.processCompletions _).1 ?_
        cases completes t <;> exact h
      | process =>
        rw [step_process hh]
        exact replayedAfter_innerTurn hB hb h
    have hbase := preserves_step hB hb (completes t)
    cases ho : s.step dev (completes t) with
    | running s' =>
      rw [ho] at hstep hbase
      exact ih hbase.1 hstep (t + 1)
    | finished s' => rwa [ho] at hstep
    | threw s' _ => rwa [ho] at hstep
    | _ => trivial

omit hb h

variable {dj : JSuperOnDisk} (hv : validateJSuper sb (JSuper.ofDisk dj) = .ok ()) (hr : Scannable dj)

include hv hr

theorem replayedAfter_loop {o : Outcome} (hrun : checkpointLoop dev completes n sb B m dj = .ok o) :
    ReplayedAfter dev B (extended dj) m o := by
  obtain ⟨he, hn⟩ := extend_of_accepted hr.toSmall hv
  obtain ⟨s0, hseed, hb, -, -, hj, hnone, -⟩ := seed_eq dev m hB hr.inRing hn
  have hm : s0.metadata = m := by
    unfold Checkpointing.seed at hseed
    split at hseed <;> cases hseed <;> rfl
  unfold checkpointLoop at hrun
  rw [hv, he] at hrun
  simp only [bind, Except.bind, hseed] at hrun
  rw [← Except.ok.inj hrun]
  refine replayedAfter_goOn hB hb ⟨[], ?_, hm⟩ 0
  rw [hnone, hj]
  exact .refl _

theorem replayed_of_finished (hrun : checkpointLoop dev completes n sb B m dj = .ok (.finished s)) :
    ∃ es j', Finds dev B (extended dj) es j' ∧ j'.djsuper.nUsed = 0 ∧ s.metadata = m.processJournal es := by
  obtain ⟨⟨es, hf, hes⟩, h0⟩ := replayedAfter_loop hB hv hr hrun
  exact ⟨es, _, by simpa using hf, h0, hes⟩

end

section

variable (dev : Device) (sb B : ℕ) (dj : JSuperOnDisk)

/-- With any schedule of its reads, a recovery that finishes has replayed `es`. If none of them
waits for one behind it, then it finishes when the reads complete. -/
def Replays (m : Metadata) (es : List JournalEntry) : Prop :=
  (∀ completes n s, checkpointLoop dev completes n sb B m dj = .ok (.finished s) → s.metadata = m.processJournal es) ∧
  ((∀ pre je rest, es = pre ++ je :: rest → (m.processJournal pre).canProcessJournalEntry je = true) →
    ∀ completes, Fair completes → ∃ n s, checkpointLoop dev completes n sb B m dj = .ok (.finished s))

/-- A recovery after a crash in the write back of the first one. -/
def RecoversAgain : Prop := ∀ before m completes completes' n n' s s',
    checkpointLoop dev completes n sb B before dj = .ok (.finished s) →
  CrashedBetween before s.metadata m → checkpointLoop dev completes' n' sb B m dj = .ok (.finished s') →
    s'.metadata = s.metadata

variable {sb B dj} (hv : validateJSuper sb (JSuper.ofDisk dj) = .ok ()) (hr : Scannable dj)

include hv hr

/-- Recovery replays the committed entries, in their order and no others. -/
theorem recovery_replays (m : Metadata) {items : List Item} (hB : maxBlocks ≤ B) (hlaid : Laid dev items (extended dj))
    (hlive : ∀ x ∈ items, x.Live dj.lastChkptTs) (hlook : ∀ x ∈ items, x.NoLookAlike dj.lastChkptTs ∧ x.TornFits) :
    Replays dev sb B dj m (items.flatMap Item.entries) := by
  rw [← extended_getLastCheckpoint dj] at hlive hlook
  have hB' := pos_of_maxBlocks_le hB
  obtain ⟨j', hall, h0'⟩ := finds_items hB items hr.inRing rfl hlaid hlive (fun x hx => (hlook x hx).1) fun x hx =>
    (hlook x hx).2
  refine ⟨fun completes n s hrun => ?_, fun hturn completes hfair => ?_⟩
  · obtain ⟨es, j, hf, h0, hm⟩ := replayed_of_finished hB' hv hr hrun
    rw [hm, hf.eq_of_end hall h0 h0']
  · obtain ⟨n, o, hrun, hended⟩ := recoveryEnds_of_headersFit hB' hv hr
      (hall.headersFit h0' hr.inRing hB') completes hfair
    have hafter := replayedAfter_loop hB' hv hr hrun
    cases o with
    | finished s => exact ⟨n, s, hrun⟩
    | threw s _ =>
      obtain ⟨je, ⟨es, hf, hm⟩, hc⟩ := hafter
      obtain ⟨rest, hes⟩ := hf.prefix_of_end hall h0'
      have hcan := hturn es je rest (by simpa using hes.symm)
      rw [hm, hcan] at hc
      cases hc
    | _ => exact hended.elim

/-- Whatever is in the journal. -/
theorem recovery_again_after_crash (hB : 0 < B) : RecoversAgain dev sb B dj := by
  intro before m completes completes' n n' s s' hrun hcrash hagain
  obtain ⟨es, j, hf, h0, hm⟩ := replayed_of_finished hB hv hr hrun
  obtain ⟨es', j', hf', h0', hm'⟩ := replayed_of_finished hB hv hr hagain
  rw [hm] at hcrash ⊢
  rw [hm', hf'.eq_of_end hf h0' h0]
  refine ext_of_cell ((overwrites_processJournal es).recovers fun c => ?_)
  cases c with
  | inode sector f => exact (hcrash.inodes sector).imp (congrArg (field · f)) (congrArg (field · f))
  | bit block nr => exact (hcrash.bitmaps block).imp (congrFun · nr) (congrFun · nr)

end

theorem recovery_replays_shortEntry :
    Replays (journalOf (shortEntry 9).blocks) (globalJSuper 0).jsuperBlockno 32 (globalJSuper 0) blank
      [readBack oneExtentEntry 9] := by
  obtain ⟨xs, hlaid, hxs⟩ := laid_journalOf 0 (.committed (shortEntry 9)) trivial
  have h : [readBack oneExtentEntry 9] = (Item.committed (shortEntry 9) :: xs).flatMap Item.entries := by
    rw [flatMap_cons, flatMap_eq_nil_iff.2 fun y hy => hxs y hy ▸ rfl]
    rfl
  rw [h]
  exact recovery_replays _ (globalJSuper_accepted 0) (scannable_globalJSuper 0) _ (Nat.le_refl _) hlaid
    (forall_mem_cons.2 ⟨(by decide : (9 : UInt64).toNat > 0), fun y hy => hxs y hy ▸ trivial⟩)
    (forall_mem_cons.2 ⟨⟨trivial, trivial⟩, fun y hy => hxs y hy ▸ ⟨not_freshHeader_zeros 0, trivial⟩⟩)

theorem recovery_again_shortEntry : RecoversAgain (journalOf (shortEntry 9).blocks)
    (globalJSuper 0).jsuperBlockno 32 (globalJSuper 0) :=
  recovery_again_after_crash _ (globalJSuper_accepted 0) (scannable_globalJSuper 0) (by decide)

end Ufs.Proof.Recovery
