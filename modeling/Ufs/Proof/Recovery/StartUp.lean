import Ufs.Impl.JournalManager
import Ufs.Proof.Recovery.Ends
import Ufs.Proof.Recovery.Scan

/-!
# When the server starts

The server takes a journal for empty when its superblock says so (`initJSuper`), and the offline
checkpointer when its scan, which goes on past what the superblock accounts for, finds no entry. The
superblock is written from time to time only, so that it may count nothing while entries are
committed, and the blocks that it counts may be those of entries that never were. `Agree` is that
the two agree.
-/

namespace Ufs.Proof.Recovery

open Impl JournalIterator Journal
open JSuper (ofDisk)

/-! ## What is ahead -/

/-- There is an entry to replay between the cursor and the head. -/
def EntryAhead (dev : Device) (B : ℕ) (j : JSuper) : Prop :=
  ∃ j' je k, Skips dev B j j' ∧ j'.djsuper.nUsed ≠ 0 ∧ found dev B j' = .entry je k

/-- There are only blocks to skip. -/
def EndAhead (dev : Device) (B : ℕ) (j : JSuper) : Prop := ∃ j', Skips dev B j j' ∧ j'.djsuper.nUsed = 0

section

variable {dev : Device} {B : ℕ} {j j' j'' : JSuper}

theorem Skips.trans (hs : Skips dev B j j') (hs' : Skips dev B j' j'') : Skips dev B j j'' := by
  induction hs with
  | refl => exact hs'
  | skip hn hf _ ih => exact .skip hn hf (ih hs')

theorem Skips.jmagic (hs : Skips dev B j j') : j'.djsuper.jmagic = j.djsuper.jmagic := by
  induction hs with
  | refl => rfl
  | skip _ _ _ ih => exact ih

theorem EndAhead.not_entryAhead (he : EndAhead dev B j) : ¬ EntryAhead dev B j := by
  rintro ⟨j1, je, k, hs, hn, hf⟩
  obtain ⟨j2, hs2, h0⟩ := he
  have heq := (hs.of_stops hs2 (.inl h0)).eq_of_stops (.inr fun k => by rw [hf]; nofun)
  exact hn (heq ▸ h0)

theorem calls_nil_iff (h : InRing j) (hB : 0 < B) : (∀ es it', Calls dev (.ofJSuper j B) es it' → es = []) ↔
    ¬ EntryAhead dev B j := by
  have hgood : Good dev (.ofJSuper j B) := good_ofJSuper h B
  constructor
  · rintro hcalls ⟨j', je, k, hs, hn, hf⟩
    obtain ⟨it', hc, -⟩ := calls_entry hgood hB hs hn hf
    exact absurd (hcalls _ _ hc) (List.cons_ne_nil _ _)
  · intro hnot es it' hc
    obtain ⟨he, -⟩ | ⟨j', je, k, _, -, hs, hn, hf, -⟩ := (hc.finds hgood hB).cases_skips
    · exact he
    · exact absurd ⟨j', je, k, hs, hn, hf⟩ hnot

theorem ahead_of_items {items : List Item} (hB : maxBlocks ≤ B) (h : InRing j) (hlaid : Laid dev items j)
    (hlive : ∀ x ∈ items, x.Live j.getLastCheckpoint) (hlook : ∀ x ∈ items, x.NoLookAlike j.getLastCheckpoint)
      (htorn : ∀ x ∈ items, x.TornFits) :
    (EntryAhead dev B j ↔ items.flatMap Item.entries ≠ []) ∧ (EndAhead dev B j ↔ items.flatMap Item.entries = []) := by
  obtain ⟨j', hf, h0⟩ := finds_items hB items h rfl hlaid hlive hlook htorn
  obtain ⟨he, hs⟩ | ⟨j1, je, k, rest, he, hs, hn, hfound, -⟩ := hf.cases_skips
  · have hend : EndAhead dev B j := ⟨j', hs, h0⟩
    exact ⟨iff_of_false hend.not_entryAhead (not_not.2 he), iff_of_true hend he⟩
  · have hentry : EntryAhead dev B j := ⟨j1, je, k, hs, hn, hfound⟩
    have hne : items.flatMap Item.entries ≠ [] := he ▸ List.cons_ne_nil _ _
    exact ⟨iff_of_true hentry hne, iff_of_false (fun hend => hend.not_entryAhead hentry) hne⟩

end

/-! ## What the loop has seen -/

/-- A loop that started at `j` has come to blocks to skip only, or to an entry. -/
inductive Seen (dev : Device) (B : ℕ) (j : JSuper) (s : Checkpointing) : Prop
  | nothing : s.numJentriesProcessed = 0 → s.jentry = none → Skips dev B j s.ji.jsuper → Seen dev B j s
  | entry : s.numJentriesProcessed ≠ 0 ∨ s.jentry ≠ none → EntryAhead dev B j →
      s.ji.jsuper.djsuper.jmagic = j.djsuper.jmagic → Seen dev B j s

/-- What a run in the outcome has seen. -/
def SeenAfter (dev : Device) (B : ℕ) (j : JSuper) : Outcome → Prop
  | .running s => Seen dev B j s
  | .finished s => Seen dev B j s ∧ s.jentry = none ∧ s.ji.jsuper.djsuper.nUsed = 0
  | .threw _ _ => EntryAhead dev B j
  | .terminate | .outOfBounds => True

variable {completes : ℕ → Bool}

section

variable {dev : Device} {B : ℕ} {j : JSuper} {s : Checkpointing}

theorem Seen.jmagic (h : Seen dev B j s) : s.ji.jsuper.djsuper.jmagic = j.djsuper.jmagic := by
  cases h with
  | nothing _ _ hs => exact hs.jmagic
  | entry _ _ hm => exact hm

theorem Seen.entryAhead (h : Seen dev B j s) {je : JournalEntry} (hj : s.jentry = some je) : EntryAhead dev B j := by
  cases h with
  | nothing _ hnone => rw [hj] at hnone; cases hnone
  | entry _ he => exact he

theorem seenAfter_takeNextEntry (hB : 0 < B) (hg : Good dev s.ji) (hb : s.ji.devBufBlocks = B)
    (hp : s.ji.pendingIO = false) (h : Seen dev B j s) (hs : s.jentry = none ∨ s.numJentriesProcessed ≠ 0)
    (next : LoopHead) : SeenAfter dev B j (s.takeNextEntry dev next) := by
  have ha := answers_getNextEntry hg (hb ▸ hB) hp
  unfold Checkpointing.takeNextEntry
  cases hr : s.ji.getNextEntry dev with
  | entry je it =>
    rw [hr] at ha
    obtain ⟨-, -, -, j', k, hsk, hn, hf, hj⟩ := ha
    rw [hb] at hsk hf
    have hm : it.jsuper.djsuper.jmagic = j.djsuper.jmagic := by
      rw [hj]
      exact hsk.jmagic.trans h.jmagic
    refine .entry (.inr (Option.some_ne_none je)) ?_ hm
    cases h with
    | nothing _ _ hs0 => exact ⟨j', je, k, hs0.trans hsk, hn, hf⟩
    | entry _ he => exact he
  | null it =>
    rw [hr] at ha
    obtain ⟨-, hsk, -⟩ := ha
    rw [hb] at hsk
    cases h with
    | nothing hnum _ hs0 => exact .nothing hnum rfl (hs0.trans hsk)
    | entry hseen he hm => exact .entry (.inl (hseen.elim id hs.resolve_left)) he (hsk.jmagic.trans hm)
  | terminate => trivial
  | outOfBounds => trivial

theorem seenAfter_turn (hB : 0 < B) (hb : Base dev B s) (h : Seen dev B j s) : SeenAfter dev B j (s.turn dev) := by
  cases hj : s.jentry with
  | none =>
    by_cases h0 : s.ji.jsuper.djsuper.nUsed = 0
    · rw [turn_finished hj h0]
      exact ⟨h, hj, h0⟩
    by_cases hp : s.ji.pendingIO = true
    · rw [turn_pending hj h0 hp]
      exact h
    · have hp : s.ji.pendingIO = false := by simpa using hp
      rw [turn_take hj h0 hp]
      exact seenAfter_takeNextEntry hB hb.good hb.blocks hp h (.inl hj) .queue
  | some je =>
    rw [turn_entry hj (hb.idle je hj)]
    split
    · exact h.entryAhead hj
    · exact .entry (.inr (by simp [hj])) (h.entryAhead hj) h.jmagic

theorem seenAfter_innerTurn (hB : 0 < B) (hb : Base dev B s) (h : Seen dev B j s) :
    SeenAfter dev B j (s.innerTurn dev) := by
  cases hj : s.jentry with
  | none =>
    rw [innerTurn_none hj]
    cases h with
    | nothing hnum hnone hs => exact .nothing hnum hnone hs
    | entry hseen he hm => exact .entry hseen he hm
  | some je =>
    cases hc : s.metadata.canProcessJournalEntry je with
    | true =>
      have hne : (processed je s).numJentriesProcessed ≠ 0 := Nat.succ_ne_zero _
      rw [innerTurn_can hj hc]
      exact seenAfter_takeNextEntry (s := processed je s) hB hb.good hb.blocks (hb.idle je hj)
        (.entry (.inl hne) (h.entryAhead hj) h.jmagic) (.inr hne) .process
    | false =>
      rw [innerTurn_cannot hj hc]
      exact .entry (.inr (by simp [hj])) (h.entryAhead hj) h.jmagic

theorem Seen.processCompletions (h : Seen dev B j s) (completes : Bool) :
    Seen dev B j (s.processCompletions completes) := by
  cases completes with
  | false => exact h
  | true =>
    cases h with
    | nothing hnum hnone hs => exact .nothing hnum hnone hs
    | entry hseen he hm => exact .entry hseen he hm

theorem seenAfter_step (hB : 0 < B) (hb : Base dev B s) (h : Seen dev B j s) (completes : Bool) :
    SeenAfter dev B j (s.step dev completes) := by
  cases hh : s.head with
  | queue =>
    rw [step_queue hh]
    exact seenAfter_turn hB (hb.processCompletions completes).1 (h.processCompletions completes)
  | process =>
    rw [step_process hh]
    exact seenAfter_innerTurn hB hb h

theorem seenAfter_goOn (hB : 0 < B) (n t : ℕ) (hb : Base dev B s) (h : Seen dev B j s) :
    SeenAfter dev B j (goOn dev completes n t (.running s)) := by
  induction n generalizing t s with
  | zero => exact h
  | succ n ih =>
    rw [goOn_succ]
    have hstep := seenAfter_step hB hb h (completes t)
    have hbase := preserves_step hB hb (completes t)
    cases ho : s.step dev (completes t) with
    | running s' =>
      rw [ho] at hstep hbase
      exact ih (t + 1) hbase.1 hstep
    | finished s' => rwa [ho] at hstep
    | threw s' what => rwa [ho] at hstep
    | terminate => trivial
    | outOfBounds => trivial

end

/-! ## The server and recovery -/

/-- The constructor of the journal manager accepts the superblock. -/
def Starts (dj : JSuperOnDisk) : Prop := ∃ js, JournalManager.initJSuper dj = .ok js

/-- The server starts after recovery, whatever it found; and it does not start before recovery if
the scan is to return an entry. -/
def Agree (dev : Device) (sb B : ℕ) (m : Metadata) (dj : JSuperOnDisk) : Prop :=
  (∀ completes n s now, checkpointLoop dev completes n sb B m dj = .ok (.finished s) →
    Starts (jsuperAfter now dj s)) ∧
  (Starts dj → ∀ j, validateJSuper sb (JSuper.ofDisk dj) = .ok () →
    extendToUnaccountedRegion (JSuper.ofDisk dj) = .ok j →
    ∀ es it', Calls dev (.ofJSuper j B) es it' → es = [])

/-- The superblock counts no blocks if there is nothing to find, and there is nothing to find if it
counts none. -/
def CountsEntries (dev : Device) (B : ℕ) (dj : JSuperOnDisk) : Prop :=
  (EndAhead dev B (extended dj) → dj.nUsed = 0) ∧ (dj.nUsed = 0 → ¬ EntryAhead dev B (extended dj))

theorem starts_iff {dj : JSuperOnDisk} : Starts dj ↔ dj.jmagic = jsuperMagic ∧ dj.nUsed = 0 := by
  unfold Starts JournalManager.initJSuper
  by_cases hm : dj.jmagic = jsuperMagic
  · by_cases hn : dj.nUsed = 0
    · simp [hm, hn, pure, Except.pure]
    · simp [hm, hn, throw, throwThe, MonadExceptOf.throw]
  · simp [hm, throw, throwThe, MonadExceptOf.throw]

section

variable {dev : Device} {sb B : ℕ} {m : Metadata} {dj : JSuperOnDisk}

theorem agree_of_rejected (hv : validateJSuper sb (ofDisk dj) ≠ .ok ()) : Agree dev sb B m dj := by
  refine ⟨fun completes n s now hrun => ?_, fun _ _ h => absurd h hv⟩
  unfold checkpointLoop at hrun
  cases h : validateJSuper sb (ofDisk dj) with
  | ok u => exact absurd h hv
  | error e =>
    rw [h] at hrun
    cases hrun

section

variable (hB : 0 < B) (hv : validateJSuper sb (ofDisk dj) = .ok ()) (hr : Scannable dj)

include hB hv hr

theorem seenAfter_checkpointLoop {n : ℕ} {o : Outcome}
    (hrun : checkpointLoop dev completes n sb B m dj = .ok o) : SeenAfter dev B (extended dj) o := by
  obtain ⟨s, hb, -, -, ⟨hj, hnone, hnum⟩, hloop⟩ := checkpointLoop_eq dev m hB hv hr
  have hskips : Skips dev B (extended dj) s.ji.jsuper := by
    rw [hj]
    exact .refl _
  rw [hloop, Except.ok.injEq] at hrun
  rw [← hrun]
  exact seenAfter_goOn hB n 0 hb (.nothing hnum hnone hskips)

theorem starts_after (hend : EndAhead dev B (extended dj) → dj.nUsed = 0) {n now : ℕ} {s : Checkpointing}
    (hrun : checkpointLoop dev completes n sb B m dj = .ok (.finished s)) : Starts (jsuperAfter now dj s) := by
  obtain ⟨hseen, hnone, h0⟩ := seenAfter_checkpointLoop hB hv hr hrun
  have hm : dj.jmagic = jsuperMagic := (validateJSuper_eq_ok.1 hv).1
  rw [starts_iff]
  unfold jsuperAfter
  split
  · rename_i hnum
    cases hseen with
    | nothing _ _ hs => exact ⟨hm, hend ⟨_, hs, h0⟩⟩
    | entry hor => exact absurd hnone (hor.resolve_left fun h => h hnum)
  · exact ⟨hseen.jmagic.trans ((extended_keeps dj).jmagic.trans hm), rfl⟩

theorem starts_of_endAhead (hend : EndAhead dev B (extended dj))
    (hstarts : ∀ completes n s now, checkpointLoop dev completes n sb B m dj = .ok (.finished s) →
      Starts (jsuperAfter now dj s)) : Starts dj := by
  have hfit : HeadersFit dev B (extended dj) m := by
    obtain ⟨j', hs, h0⟩ := hend
    exact (hs.headersFit hr.inRing hB).2 (headersFit_end h0)
  obtain ⟨n, o, hrun, hended⟩ := recoveryEnds_of_headersFit hB hv hr hfit (fun _ => true) fun t =>
    ⟨t, Nat.le_refl _, rfl⟩
  have hseen := seenAfter_checkpointLoop hB hv hr hrun
  cases o with
  | running s => exact absurd hended id
  | finished s =>
    have hstart := hstarts _ _ _ 0 hrun
    cases hseen.1 with
    | nothing hnum _ _ => rwa [jsuperAfter, if_pos hnum] at hstart
    | entry _ he => exact absurd he hend.not_entryAhead
  | threw s what => exact absurd hseen hend.not_entryAhead
  | terminate => exact absurd hended id
  | outOfBounds => exact absurd hended id

theorem agree_iff : Agree dev sb B m dj ↔ CountsEntries dev B dj := by
  obtain ⟨hm, -, -⟩ := validateJSuper_eq_ok.1 hv
  have hext := (extend_of_accepted hr.toSmall hv).1
  constructor
  · rintro ⟨hafter, hbefore⟩
    refine ⟨fun hend => (starts_iff.1 (starts_of_endAhead hB hv hr hend hafter)).2, fun h0 => ?_⟩
    exact (calls_nil_iff hr.inRing hB).1 (hbefore (starts_iff.2 ⟨hm, h0⟩) _ hv hext)
  · rintro ⟨hend, hentry⟩
    refine ⟨fun _ _ _ _ hrun => starts_after hB hv hr hend hrun, fun hstarts j _ hj => ?_⟩
    rw [hext, Except.ok.injEq] at hj
    rw [← hj]
    exact (calls_nil_iff hr.inRing hB).2 (hentry (starts_iff.1 hstarts).2)

end

theorem agree_iff_of_items {items : List Item} (hB : maxBlocks ≤ B) (hv : validateJSuper sb (ofDisk dj) = .ok ())
    (hr : Scannable dj)
    (hlaid : Laid dev items (extended dj)) (hlive : ∀ x ∈ items, x.Live dj.lastChkptTs)
    (hlook : ∀ x ∈ items, x.NoLookAlike dj.lastChkptTs) (htorn : ∀ x ∈ items, x.TornFits) :
    Agree dev sb B m dj ↔ (dj.nUsed = 0 ↔ items.flatMap Item.entries = []) := by
  rw [← extended_getLastCheckpoint dj] at hlive hlook
  obtain ⟨hentry, hend⟩ := ahead_of_items hB hr.inRing hlaid hlive hlook htorn
  rw [agree_iff (pos_of_maxBlocks_le hB) hv hr, CountsEntries, hentry, hend, not_not]
  exact ⟨fun h => ⟨h.2, h.1⟩, fun h => ⟨h.2, h.1⟩⟩

end

theorem scannable_durable {d : JSuperOnDisk} (hd : EmptyJournal d) {ops : List Op} {h : Hist}
    (hrun : run Hist.step ops (Hist.start d) = some h) {sb : ℕ}
    (hv : validateJSuper sb (ofDisk h.durable.disk) = .ok ()) : Scannable h.durable.disk := by
  have hdur := (reachable_inv hd hrun).durable.1
  have hsmall := hd.geom.small
  have hcap := hdur.keeps.capacity
  have hle := hdur.le
  have hhead := Nat.mod_lt h.durable.enq hd.geom.pos
  have htail := Nat.mod_lt h.durable.deq hd.geom.pos
  rw [← hdur.head] at hhead
  rw [← hdur.tail] at htail
  exact scannable_of_accepted (hd.geom.of_keeps hdur.keeps) ⟨by omega, by omega, by omega, by omega⟩ hv

/-- After any run of the server and with any blocks in the journal, start-up and recovery agree exactly
when the superblock on the device, if recovery accepts it, counts what there is to find. -/
theorem startUp_agrees {d : JSuperOnDisk} (hd : EmptyJournal d) {ops : List Op} {h : Hist}
    (hrun : run Hist.step ops (Hist.start d) = some h) (dev : Device) (m : Metadata) {sb B : ℕ} (hB : maxBlocks ≤ B) :
    (Agree dev sb B m h.durable.disk ↔ (validateJSuper sb (JSuper.ofDisk h.durable.disk) = .ok () →
      CountsEntries dev B h.durable.disk)) ∧
    ∀ items : List Item, validateJSuper sb (JSuper.ofDisk h.durable.disk) = .ok () →
      Laid dev items (extended h.durable.disk) → (∀ x ∈ items, x.Live h.durable.disk.lastChkptTs) →
      (∀ x ∈ items, x.NoLookAlike h.durable.disk.lastChkptTs) → (∀ x ∈ items, x.TornFits) →
      (Agree dev sb B m h.durable.disk ↔ (h.durable.disk.nUsed = 0 ↔ items.flatMap Item.entries = [])) := by
  have hB' := pos_of_maxBlocks_le hB
  constructor
  · by_cases hv : validateJSuper sb (JSuper.ofDisk h.durable.disk) = .ok ()
    · rw [agree_iff hB' hv (scannable_durable hd hrun hv)]
      exact ⟨fun hc _ => hc, fun hc => hc hv⟩
    · exact iff_of_true (agree_of_rejected hv) fun h => absurd h hv
  · intro items hv hlaid hlive hlook htorn
    exact agree_iff_of_items hB hv (scannable_durable hd hrun hv) hlaid hlive hlook htorn

theorem endAhead_zeros {dev : Device} {B : ℕ} {j : JSuper} (hB : maxBlocks ≤ B) (h : InRing j)
    (hz : ∀ i < j.djsuper.nUsed, dev (j.idxToBlockNo (j.djsuper.tail + i)) = padded []) : EndAhead dev B j := by
  obtain ⟨xs, hlaid, hxs⟩ := exists_olds (P := fun b => b = padded []) h hz
  have hzeros : ∀ x ∈ xs, x = .old (padded []) := by
    intro x hx
    obtain ⟨b, rfl, rfl⟩ := hxs x hx
    rfl
  refine (ahead_of_items hB h hlaid (fun x hx => ?_) (fun x hx => ?_) fun x hx => ?_).2.2
    (List.flatMap_eq_nil_iff.2 fun x hx => ?_)
  all_goals rw [hzeros x hx]
  · trivial
  · exact not_freshHeader_zeros _
  · trivial
  · rfl

/-- The journal of `mkfs`, to which nothing was written. -/
theorem startUp_agrees_zeros : Agree (journalOf []) (globalJSuper 0).jsuperBlockno 32 blank
    (Hist.start (globalJSuper 0)).durable.disk := by
  refine (@startUp_agrees _ globalJSuper_empty [] _ rfl _ _ _ _ (Nat.le_refl _)).1.mpr fun _ => ?_
  have hend : EndAhead (journalOf []) 32 (extended (globalJSuper 0)) :=
    endAhead_zeros (Nat.le_refl _) (scannable_globalJSuper 0).inRing fun _ _ => ite_self _
  exact ⟨fun _ => rfl, fun _ => hend.not_entryAhead⟩

/-- An entry is checkpointed while the next one is not yet written, and the superblock is. -/
def checkpointed : List Op :=
  [.acquire 2, .acquire 2, .release 2, .setLastCheckpoint 7, .trySetWriteInProgress, .jsuperDurable]

/-- The superblock, which counts the blocks of the second entry. -/
def countingJSuper : JSuperOnDisk := { globalJSuper 7 with nUsed := 2, head := 4, tail := 2 }

theorem countingJSuper_accepted : validateJSuper (globalJSuper 0).jsuperBlockno (ofDisk countingJSuper) = .ok () :=
  validateJSuper_eq_ok.2 ⟨rfl, rfl, show 2 + kMaxUnaccountedBlocks < (globalJSuper 0).capacity by decide⟩

theorem scannable_countingJSuper : Scannable countingJSuper :=
  scannable_of_accepted ⟨globalJSuper_empty.geom.region, globalJSuper_empty.geom.pos, globalJSuper_empty.geom.small⟩
    ⟨globalJSuper_empty.geom.small, by decide, by decide, by decide⟩ countingJSuper_accepted

theorem endAhead_countingJSuper : EndAhead (journalOf (shortEntry 5).blocks) 32 (extended countingJSuper) := by
  refine endAhead_zeros (Nat.le_refl _) scannable_countingJSuper.inRing fun i hi => ?_
  have hused : (extended countingJSuper).djsuper.nUsed = 51202 := by decide
  have hcap : 51204 ≤ (extended countingJSuper).djsuper.capacity := by decide
  have hlen : (shortEntry 5).blocks.length = 2 := (shortEntry 5).length_blocks
  rw [JSuper.idxToBlockNo, show (extended countingJSuper).djsuper.tail = 2 from rfl, Nat.mod_eq_of_lt (by omega)]
  exact journalOf_of_le (by omega)

/-- The server does not start after recovery from a superblock that counts blocks of an entry that was
not written; and it starts without recovery of the entry that was committed after the superblock was
last written. -/
theorem startUp_disagrees : (∃ h, run Hist.step checkpointed (Hist.start (globalJSuper 0)) = some h ∧
      ¬ Agree (journalOf (shortEntry 5).blocks) (globalJSuper 0).jsuperBlockno 32 blank h.durable.disk) ∧
    ∃ h, run Hist.step [.acquire 2] (Hist.start (globalJSuper 0)) = some h ∧
      ¬ Agree (journalOf (shortEntry 9).blocks) (globalJSuper 0).jsuperBlockno 32 blank h.durable.disk := by
  have hB : 0 < 32 := by decide
  constructor
  · refine ⟨_, rfl, fun hagree => ?_⟩
    have hcounts := (agree_iff hB countingJSuper_accepted scannable_countingJSuper).mp hagree
    exact absurd (hcounts.1 endAhead_countingJSuper) (by decide)
  · obtain ⟨xs, hlaid, -⟩ := laid_journalOf 0 (.committed (shortEntry 9)) trivial
    obtain ⟨rest, ha⟩ := ahead_of_laid (B := 32) hlaid (Item.length_blocks_le _)
    have hfound := found_committed ha (show 0 < (9 : UInt64).toNat by decide)
    refine ⟨_, rfl, fun hagree => ?_⟩
    have hcounts := (agree_iff hB (globalJSuper_accepted 0) (scannable_globalJSuper 0)).mp hagree
    exact hcounts.2 rfl ⟨_, _, _, .refl _, (extend_of_accepted (scannable_globalJSuper 0).toSmall
      (globalJSuper_accepted 0)).2, hfound⟩

end Ufs.Proof.Recovery
