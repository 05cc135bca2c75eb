import Ufs.Impl.OfflineCheckpointer
import Ufs.Proof.Recovery.Walk

/-!
# The loop of the offline checkpointer

The loop of `checkpoint` goes on while a block that is taken for a header (`FreshHeader`) counts at
least one block and no more than a read gives, and its body is decoded inside the buffer (`Fits`).
`HeadersFit` says so of every place that the scan comes to. Whether the headers fit from where the
loop is (`Fit`) does not change from step to step, and decides which ends it may have
(`preserves_step`).
-/

namespace Ufs.Proof.Recovery

open Impl JournalIterator
open Checkpointing (turn innerTurn step)

/-! ## The headers on the way -/

/-- If the block at the tail is taken for a header, it counts at least one block and no more than a
read of `B` blocks gives, and the body is decoded inside the buffer that they are in. -/
def Fits (dev : Device) (B : ℕ) (j : JSuper) : Prop :=
  FreshHeader j.getLastCheckpoint (blockAt dev j).1 →
    1 ≤ headerBlocks (blockAt dev j).1 ∧ headerBlocks (blockAt dev j).1 ≤ window B j ∧
    (headerOf (blockAt dev j).1).deserializeBody
      (bytes (straight dev j (headerBlocks (blockAt dev j).1)) ++ behindAt dev j)
      (headerBlocks (blockAt dev j).1 * bsize) ≠ .error .outOfBounds

/-- The scan comes from `j` to `j'`, and the metadata with the changes of the entries on the way
is `m'`. -/
inductive Reaches (dev : Device) (B : ℕ) : JSuper → Metadata → JSuper → Metadata → Prop
  | refl (j : JSuper) (m : Metadata) : Reaches dev B j m j m
  | skip {j j' : JSuper} {m m' : Metadata} {k : ℕ} : j.djsuper.nUsed ≠ 0 → found dev B j = .skip k →
      Reaches dev B (j.releaseFirstNSlots k) m j' m' → Reaches dev B j m j' m'
  | entry {j j' : JSuper} {m m' : Metadata} {je : JournalEntry} {k : ℕ} : j.djsuper.nUsed ≠ 0 →
      found dev B j = .entry je k → m.canProcessJournalEntry je →
      Reaches dev B (j.releaseFirstNSlots k) (m.processJournalEntry je) j' m' → Reaches dev B j m j' m'

/-- Every block that the loop comes to `Fits`. -/
def HeadersFit (dev : Device) (B : ℕ) (j : JSuper) (m : Metadata) : Prop :=
  ∀ j' m', Reaches dev B j m j' m' → j'.djsuper.nUsed ≠ 0 → Fits dev B j'

/-- The cursor goes on. -/
def AtCursor.Moves : AtCursor → Prop
  | .skip _ | .entry _ _ => True
  | .refill | .terminate | .outOfBounds => False

variable {je : JournalEntry}

section

variable {dev : Device} {B : ℕ} {j : JSuper} {m : Metadata}

theorem fits_iff (h : InRing j) (hB : 0 < B) (hn : j.djsuper.nUsed ≠ 0) :
    Fits dev B j ↔ AtCursor.Moves (found dev B j) := by
  obtain ⟨bs, hbs⟩ := straight_cons dev j (window_pos h hB hn)
  have hlen : (blockAt dev j :: bs).length = window B j := by rw [← hbs, length_straight]
  unfold Fits found ahead
  rw [hbs]
  by_cases hf : FreshHeader j.getLastCheckpoint (blockAt dev j).1
  swap
  · rw [atCursor_of_stale hf]
    exact iff_of_true (fun h => absurd h hf) trivial
  rw [atCursor_of_fresh hf, hlen, ← hbs]
  generalize hk : headerBlocks (blockAt dev j).1 = k
  by_cases hw : window B j < k
  · rw [if_pos hw]
    exact iff_of_false (fun h => by have := (h hf).2.1; omega) id
  rw [if_neg hw, straight_take dev j (Nat.le_of_not_lt hw)]
  rcases Nat.eq_zero_or_pos k with rfl | hpos
  · exact iff_of_false (fun h => by have := (h hf).1; omega) id
  obtain ⟨cs, hcs⟩ := straight_cons dev j hpos
  have hlen' : (blockAt dev j :: cs).length = k := by rw [← hcs, length_straight]
  obtain ⟨c, hc⟩ : ∃ c, (blockAt dev j :: cs).getLast? = some c :=
    ⟨_, List.getLast?_eq_getLast_of_ne_nil (List.cons_ne_nil _ _)⟩
  have hread : readEntry _ (bytes (blockAt dev j :: cs) ++ behindAt dev j) = _ := readEntry_eq hf hc
  rw [hlen', ← hcs] at hread
  rw [hread]
  cases hd : (headerOf (blockAt dev j).1).deserializeBody (bytes (straight dev j k) ++ behindAt dev j) (k * bsize) with
  | error e =>
    cases e with
    | runtimeError what => exact iff_of_true (fun _ => ⟨hpos, Nat.le_of_not_lt hw, nofun⟩) trivial
    | outOfBounds => exact iff_of_false (fun h => (h hf).2.2 rfl) id
  | ok je =>
    refine iff_of_true (fun _ => ⟨hpos, Nat.le_of_not_lt hw, nofun⟩) ?_
    unfold decoded
    dsimp only
    split <;> trivial

theorem headersFit_end (hn : j.djsuper.nUsed = 0) : HeadersFit dev B j m := by
  intro j' m' hr hn'
  cases hr with
  | refl => exact absurd hn hn'
  | skip h => exact absurd hn h
  | entry h => exact absurd hn h

theorem headersFit_skip {k : ℕ} (h : InRing j) (hB : 0 < B) (hn : j.djsuper.nUsed ≠ 0)
    (hf : found dev B j = .skip k) : HeadersFit dev B j m ↔ HeadersFit dev B (j.releaseFirstNSlots k) m := by
  constructor
  · exact fun hfit j' m' hr => hfit j' m' (.skip hn hf hr)
  · intro hfit j' m' hr hn'
    cases hr with
    | refl => exact (fits_iff h hB hn).2 (by rw [hf]; trivial)
    | skip _ hf' hr =>
      rw [hf] at hf'
      cases hf'
      exact hfit j' m' hr hn'
    | entry _ hf' =>
      rw [hf] at hf'
      cases hf'

theorem headersFit_entry {k : ℕ} (h : InRing j) (hB : 0 < B) (hn : j.djsuper.nUsed ≠ 0)
    (hf : found dev B j = .entry je k) : HeadersFit dev B j m ↔
      (m.canProcessJournalEntry je → HeadersFit dev B (j.releaseFirstNSlots k) (m.processJournalEntry je)) := by
  constructor
  · exact fun hfit hc j' m' hr => hfit j' m' (.entry hn hf hc hr)
  · intro hfit j' m' hr hn'
    cases hr with
    | refl => exact (fits_iff h hB hn).2 (by rw [hf]; trivial)
    | skip _ hf' =>
      rw [hf] at hf'
      cases hf'
    | entry _ hf' hc hr =>
      rw [hf] at hf'
      cases hf'
      exact hfit hc j' m' hr hn'

theorem not_headersFit (h : InRing j) (hB : 0 < B) (hn : j.djsuper.nUsed ≠ 0)
    (hf : ¬ AtCursor.Moves (found dev B j)) : ¬ HeadersFit dev B j m := fun hfit =>
  hf ((fits_iff h hB hn).1 (hfit j m (.refl j m) hn))

theorem Skips.headersFit {j' : JSuper} (hs : Skips dev B j j') (h : InRing j) (hB : 0 < B) :
    HeadersFit dev B j m ↔ HeadersFit dev B j' m := by
  induction hs with
  | refl => exact Iff.rfl
  | skip hn hf _ ih => exact (headersFit_skip h hB hn hf).trans (ih (h.skip hf).1)

end

/-! ## The steps of the loop -/

section

variable {dev : Device} {s : Checkpointing}

theorem empty_iff {it : JournalIterator} : it.empty = true ↔ it.jsuper.djsuper.nUsed = 0 := by
  simp [JournalIterator.empty, JSuper.empty]

theorem turn_finished (hj : s.jentry = none) (h0 : s.ji.jsuper.djsuper.nUsed = 0) : s.turn dev = .finished s := by
  unfold turn
  rw [hj, empty_iff.2 h0]
  rfl

theorem turn_pending (hj : s.jentry = none) (hn : s.ji.jsuper.djsuper.nUsed ≠ 0) (hp : s.ji.pendingIO = true) :
    s.turn dev = .running s := by
  unfold turn
  rw [hj, if_neg (by simpa [empty_iff] using hn), if_pos hp]

theorem turn_take (hj : s.jentry = none) (hn : s.ji.jsuper.djsuper.nUsed ≠ 0) (hp : s.ji.pendingIO = false) :
    s.turn dev = s.takeNextEntry dev .queue := by
  unfold turn
  rw [hj, if_neg (by simpa [empty_iff] using hn), if_neg (by simp [hp])]

theorem turn_entry (hj : s.jentry = some je) (hp : s.ji.pendingIO = false) : s.turn dev =
    if 5 < s.timesJentryEnqueued ∧ s.metadata.canProcessJournalEntry je =
      false then .threw s "QItem cannot make progress"
    else .running { s with head := .process } := by
  unfold turn
  rw [if_neg (by simp [hj]), if_neg (by simp [hp])]
  simp [hj]

theorem innerTurn_none (hj : s.jentry = none) : s.innerTurn dev = .running { s with head := .queue } := by
  unfold innerTurn
  simp [hj]

/-- The state after an entry was replayed. -/
def processed (je : JournalEntry) (s : Checkpointing) : Checkpointing :=
  { s with
    numJentriesProcessed := s.numJentriesProcessed + 1
    metadata := s.metadata.processJournalEntry je }

theorem innerTurn_can (hj : s.jentry = some je) (hc : s.metadata.canProcessJournalEntry je = true) :
    s.innerTurn dev = (processed je s).takeNextEntry dev .process := by
  unfold innerTurn
  simp [hj, hc, processed]

theorem innerTurn_cannot (hj : s.jentry = some je) (hc : s.metadata.canProcessJournalEntry je = false) :
    s.innerTurn dev = .running { s with head := .queue, timesJentryEnqueued := s.timesJentryEnqueued + 1 } := by
  unfold innerTurn
  simp [hj, hc]

theorem step_queue (hh : s.head = .queue) (completes : Bool) :
    s.step dev completes = (s.processCompletions completes).turn dev := by
  unfold step
  rw [hh]

theorem step_process (hh : s.head = .process) (completes : Bool) : s.step dev completes = s.innerTurn dev := by
  unfold step
  rw [hh]

theorem processCompletions_of_idle (h : s.ji.pendingIO = false) (completes : Bool) :
    s.processCompletions completes = s := by
  obtain ⟨head, ⟨jsuper, blocks, devBuf, pendingIO, refills⟩, jentry, times, num, m⟩ := s
  have hp : pendingIO = false := h
  subst hp
  cases completes <;> rfl

end

/-- The headers from where the loop is on, if the entry that it holds can be processed. -/
def Fit (dev : Device) (s : Checkpointing) : Prop :=
  match s.jentry with
  | none => HeadersFit dev s.ji.devBufBlocks s.ji.jsuper s.metadata
  | some je => s.metadata.canProcessJournalEntry je →
    HeadersFit dev s.ji.devBufBlocks s.ji.jsuper (s.metadata.processJournalEntry je)

/-- The loop holds an entry only while no read is pending. -/
structure Base (dev : Device) (B : ℕ) (s : Checkpointing) : Prop where
  good : Good dev s.ji
  blocks : s.ji.devBufBlocks = B
  idle : ∀ je, s.jentry = some je → s.ji.pendingIO = false

section

variable {dev : Device} {B : ℕ} {s : Checkpointing} (h : Base dev B s)

include h

theorem Base.fit_none (hj : s.jentry = none) : Fit dev s ↔ HeadersFit dev B s.ji.jsuper s.metadata := by
  unfold Fit
  rw [hj, h.blocks]

theorem Base.fit_can (hj : s.jentry = some je) (hc : s.metadata.canProcessJournalEntry je = true) :
    Fit dev s ↔ HeadersFit dev B s.ji.jsuper (s.metadata.processJournalEntry je) := by
  unfold Fit
  rw [hj, h.blocks]
  exact forall_prop_of_true hc

end

/-- What a step that goes on keeps, and what is the case if it does not. -/
def Preserves (dev : Device) (B : ℕ) (fit : Prop) : Outcome → Prop
  | .running s => Base dev B s ∧ (fit ↔ Fit dev s)
  | .finished _ | .threw _ _ => fit
  | .terminate | .outOfBounds => ¬ fit

section

variable {dev : Device} {B : ℕ} {s : Checkpointing}

theorem preserves_takeNextEntry (hB : 0 < B) (hg : Good dev s.ji) (hb : s.ji.devBufBlocks = B)
    (hp : s.ji.pendingIO = false) (next : LoopHead) :
    Preserves dev B (HeadersFit dev B s.ji.jsuper s.metadata) (s.takeNextEntry dev next) := by
  have ha := answers_getNextEntry hg (hb ▸ hB) hp
  unfold Checkpointing.takeNextEntry
  rw [← hb] at hB ⊢
  cases hr : s.ji.getNextEntry dev with
  | entry je it =>
    rw [hr] at ha
    obtain ⟨hm, hp', -, j, k, hs, hn, hf, hj⟩ := ha
    refine ⟨⟨hm.good, hm.devBufBlocks, fun _ _ => hp'.trans hp⟩, ?_⟩
    show _ ↔ (_ → HeadersFit dev it.devBufBlocks it.jsuper _)
    rw [hm.devBufBlocks, hj]
    exact (hs.headersFit hg.inRing hB).trans (headersFit_entry (hs.inRing hg.inRing).1 hB hn hf)
  | null it =>
    rw [hr] at ha
    obtain ⟨hm, hs, -⟩ := ha
    refine ⟨⟨hm.good, hm.devBufBlocks, nofun⟩, ?_⟩
    show _ ↔ HeadersFit dev it.devBufBlocks it.jsuper _
    rw [hm.devBufBlocks]
    exact hs.headersFit hg.inRing hB
  | terminate =>
    rw [hr] at ha
    obtain ⟨j, hs, hn, hf⟩ := ha
    rw [hs.headersFit hg.inRing hB]
    exact not_headersFit (hs.inRing hg.inRing).1 hB hn (by rw [hf]; exact id)
  | outOfBounds =>
    rw [hr] at ha
    obtain ⟨j, hs, hn, hf⟩ := ha
    rw [hs.headersFit hg.inRing hB]
    exact not_headersFit (hs.inRing hg.inRing).1 hB hn (by rw [hf]; exact id)

theorem preserves_turn (hB : 0 < B) (h : Base dev B s) : Preserves dev B (Fit dev s) (s.turn dev) := by
  cases hj : s.jentry with
  | none =>
    have hfit := h.fit_none hj
    by_cases h0 : s.ji.jsuper.djsuper.nUsed = 0
    · rw [turn_finished hj h0]
      exact hfit.2 (headersFit_end h0)
    by_cases hp : s.ji.pendingIO = true
    · rw [turn_pending hj h0 hp]
      exact ⟨h, Iff.rfl⟩
    · rw [turn_take hj h0 (by simpa using hp), propext hfit]
      exact preserves_takeNextEntry hB h.good h.blocks (by simpa using hp) .queue
  | some je =>
    rw [turn_entry hj (h.idle je hj)]
    split
    · rename_i hc
      unfold Fit
      rw [hj]
      exact fun hcan => absurd hcan (by simp [hc.2])
    · exact ⟨⟨h.good, h.blocks, h.idle⟩, Iff.rfl⟩

theorem preserves_innerTurn (hB : 0 < B) (h : Base dev B s) : Preserves dev B (Fit dev s) (s.innerTurn dev) := by
  cases hj : s.jentry with
  | none =>
    rw [innerTurn_none hj]
    exact ⟨⟨h.good, h.blocks, h.idle⟩, Iff.rfl⟩
  | some je =>
    cases hc : s.metadata.canProcessJournalEntry je with
    | true =>
      rw [innerTurn_can hj hc, propext (h.fit_can hj hc)]
      exact preserves_takeNextEntry (s := processed je s) hB h.good h.blocks (h.idle je hj) .process
    | false =>
      rw [innerTurn_cannot hj hc]
      exact ⟨⟨h.good, h.blocks, h.idle⟩, Iff.rfl⟩

theorem Base.processCompletions (h : Base dev B s) (completes : Bool) :
    Base dev B (s.processCompletions completes) ∧ (Fit dev s ↔ Fit dev (s.processCompletions completes)) := by
  cases completes with
  | false => exact ⟨h, Iff.rfl⟩
  | true => exact ⟨⟨⟨h.good.inRing, h.good.buffered⟩, h.blocks, fun _ _ => rfl⟩, Iff.rfl⟩

theorem preserves_step (hB : 0 < B) (h : Base dev B s) (completes : Bool) :
    Preserves dev B (Fit dev s) (s.step dev completes) := by
  cases hh : s.head with
  | queue =>
    obtain ⟨hb, hfit⟩ := h.processCompletions completes
    rw [step_queue hh, propext hfit]
    exact preserves_turn hB hb
  | process =>
    rw [step_process hh]
    exact preserves_innerTurn hB h

end

end Ufs.Proof.Recovery
