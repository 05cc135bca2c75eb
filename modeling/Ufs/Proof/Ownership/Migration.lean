import Ufs.Impl.Migration
import Ufs.Proof.Ownership.Ends
import Ufs.Proof.Ownership.Fds

/-!
# Who writes an inode that moves

Every inode with a committed journal entry has to be in an input of the next checkpoint, in one
only, until a checkpoint has written it (`Agreed`). This holds as long as (`Careful`) no inode
leaves its worker between the submission of an entry and its completion, or between the hand-over of
an input and the failure of the checkpoint; and none that is to be written is between two workers,
or moves to one that has handed its input over, while the workers hand them over.
`checkpoint_disagrees` is what happens otherwise.
-/

namespace Ufs.Proof.Ownership

open Impl ReassignmentOp
open Function (update update_apply)
open Finset (empty_subset mem_union_right notMem_empty union_subset)
open Migration (live valid)
open List Option

variable {ino w : ℕ} {l : Finset ℕ} {s' : Migration}

/-! ## The condition and what is to hold -/

/-- The inode has a committed entry that no successful checkpoint covers. -/
def Owed (s : Migration) (ino : ℕ) : Prop :=
  ∃ e ∈ s.entries, e.state = .success ∧ ino ∈ e.inodes ∧ ino ∉ e.covered

/-- The inode is in the live input of the worker that has it. -/
def Lives (o : Owners) (ino : ℕ) : Prop :=
  ∃ w, ino ∈ (o.worker w).inodeMap ∧ ino ∈ (o.worker w).inodesToCheckpoint

/-- The inode is in an input that a worker has handed over and whose outcome it has not heard. -/
def Handed (s : Migration) (ino : ℕ) : Prop := ∃ w src, s.handed w = some src ∧ ino ∈ src.1

/-- A context in flight, with an inode of the live input of its exporter. -/
def Carries (o : Owners) (ino id : ℕ) : Prop :=
  ∃ c, o.ctx id = some c ∧ c.deleted = false ∧ c.exportedInode.ino = ino ∧ c.exportedInode.inExporterJournal = true ∧
    (c.state = .kPrimaryRequestNewOwnerImport ∨ c.state = .kNewOwnerImport)

/-- The workers agree on who writes an inode: it is in one place; the live inputs have inodes of their worker only;
and a slot that was released is of an entry whose inodes were written. -/
structure Agreed (s : Migration) : Prop where
  place : ∀ ino, Owed s ino →
    Lives s.owners ino ∧ ¬ Handed s ino ∧ (∀ id, ¬ Carries s.owners ino id) ∨
    ¬ Lives s.owners ino ∧ Handed s ino ∧ (∀ id, ¬ Carries s.owners ino id) ∨
    ¬ Lives s.owners ino ∧ ¬ Handed s ino ∧ ∃ id, Carries s.owners ino id
  own : ∀ w, s.live w ⊆ (s.owners.worker w).inodeMap
  released : ∀ e ∈ s.entries, e.state = .success → e.slotEnd ≤ s.nDequeued → e.inodes ⊆ e.covered

/-- The steps under which no inode loses its place in a checkpoint: none with changes moves to a
worker whose input is handed over, an entry is submitted between checkpoints and succeeds where its
inodes are, and a checkpoint begins when nothing is in flight. -/
def Careful : Migration.Label → Migration → Prop
  -- an inode that is to be written does not come to a worker that has handed its input over
  | .reassign (.process src dst), s => ∀ id rest c, s.owners.ring src dst = .kReassignment id :: rest →
      s.owners.ctx id = some c → c.state = .kNewOwnerImport → c.exportedInode.inExporterJournal = true →
        s.handed dst = none ∨ s.outcome ≠ none
  | .reassign _, _ => True
  | .submitJournalEntry .., s => (∀ w, s.handed w = none) ∧ s.nDequeued ≤ s.nEnqueued
  | .processJournalEntry k success, s => ∀ e, s.entries[k]? = some e → success = true →
      e.inodes ⊆ (s.owners.worker e.wid).inodeMap
  | .prepareForCheckpointing _, s => (∀ e ∈ s.entries, e.state ≠ .inFlight) ∧ ∀ ino id, ¬ Carries s.owners ino id
  | .copiesWritten _, _ => True
  | .checkpointingComplete w, s => s.outcome = some false → ∀ src, s.handed w = some src →
      src.1 ⊆ (s.owners.worker w).inodeMap

/-! ## The invariant -/

/-- The inode is with a worker that is to write it, or on its way to one. -/
def Carried (o : Owners) (ino : ℕ) : Prop := Lives o ino ∨ ∃ id, Carries o ino id

/-- What the protocol and the live inputs are in every state. -/
structure Moving (numWorkers : ℕ) (inodes : Finset ℕ) (o : Owners) : Prop where
  inv : Inv inodes (view o)
  own : ∀ w, (o.worker w).inodesToCheckpoint ⊆ (o.worker w).inodeMap
  held : ∀ w, ∀ ino ∈ (o.worker w).inodeMap, w < numWorkers
  sent : ∀ id c, o.ctx id = some c → c.exportedInode.importerWid < numWorkers

/-- The invariant of careful runs: an inode with changes to be written is with one worker or in one
input. -/
structure Agreeing (numWorkers : ℕ) (inodes : Finset ℕ) (s : Migration) : Prop where
  moving : Moving numWorkers inodes s.owners
  owed : ∀ ino, Owed s ino → Carried s.owners ino ∨ Handed s ino
  once : ∀ ino, Carried s.owners ino → ¬ Handed s ino
  disjoint : ∀ w w' src src' ino, s.handed w = some src → s.handed w' = some src' → ino ∈ src.1 → ino ∈ src'.1 →
    w = w'
  workers : ∀ w, s.handed w ≠ none → w < numWorkers
  /-- In a checkpoint no entry is in flight. -/
  still : ∀ w, s.handed w ≠ none → ∀ e ∈ s.entries, e.state ≠ .inFlight
  running : s.outcome ≠ none → ∃ w, s.handed w ≠ none
  /-- Until it is decided, a worker that has handed its input over has nothing in the new one. -/
  empty : s.outcome = none → ∀ w, s.handed w ≠ none → s.live w = ∅
  all : s.outcome = none → (∀ w < numWorkers, s.handed w ≠ none) → ∀ ino id, ¬ Carries s.owners ino id
  copied : s.outcome = none → ∀ ino, Handed s ino → ∀ e ∈ s.entries, e.state = .success → ino ∈ e.inodes →
    ino ∈ e.copied
  written : s.outcome = some true → ∀ e ∈ s.entries, e.state = .success → e.inodes ⊆ e.covered
  released : ∀ e ∈ s.entries, e.state = .success → e.slotEnd ≤ s.nDequeued → e.inodes ⊆ e.covered
  slots : ∀ e ∈ s.entries, e.state = .inFlight → s.nDequeued < e.slotEnd

theorem lives_iff {o : Owners} (hown : ∀ w, (o.worker w).inodesToCheckpoint ⊆ (o.worker w).inodeMap) :
    Lives o ino ↔ ∃ w, ino ∈ (o.worker w).inodesToCheckpoint :=
  exists_congr fun w => and_iff_right_of_imp fun hl => hown w hl

theorem Moving.not_held {numWorkers : ℕ} {inodes : Finset ℕ} {o : Owners} (h : Moving numWorkers inodes o)
    {id : ℕ} (hc : Carries o ino id) (w : ℕ) : ino ∉ (o.worker w).inodeMap := by
  obtain ⟨c, hctx, hd, hi, -, hs⟩ := hc
  have ho : Open (view o) ino id c := ⟨hctx, hd, hi, fun he => by simp [he] at hs⟩
  exact h.inv.not_held ho hs w

theorem Agreeing.agreed {numWorkers : ℕ} {inodes : Finset ℕ} {s : Migration} (h : Agreeing numWorkers inodes s) :
    Agreed s := by
  refine ⟨fun ino ho => ?_, h.moving.own, h.released⟩
  by_cases hh : Handed s ino
  · have hn : ¬ Carried s.owners ino := fun hc => h.once ino hc hh
    exact .inr (.inl ⟨fun hl => hn (.inl hl), hh, fun id hc => hn (.inr ⟨id, hc⟩)⟩)
  · have hnl {id : ℕ} (hc : Carries s.owners ino id) : ¬ Lives s.owners ino := by
      rintro ⟨w, hw, -⟩
      exact h.moving.not_held hc w hw
    rcases (h.owed ino ho).resolve_right hh with hl | ⟨id, hc⟩
    · exact .inl ⟨hl, hh, fun id hc => hnl hc hl⟩
    · exact .inr (.inr ⟨hnl hc, hh, id, hc⟩)

/-! ## An inode moves -/

/-! ## Contexts that go on -/

/-- A context goes on to its next state, and the others are left as they are. -/
structure Forwards (o o' : Owners) (id : ℕ) (c : Ctx) : Prop where
  ctx : o.ctx id = some c
  live : c.deleted = false
  ctxs : o'.ctx = update o.ctx id (some (forward c))

namespace Forwards

variable {o o' : Owners} {id i id' : ℕ} {c : Ctx} (hf : Forwards o o' id c)

include hf

theorem carries_of_ne (hne : id' ≠ id) : Carries o' i id' ↔ Carries o i id' := by
  unfold Carries
  rw [hf.ctxs, Function.update_of_ne hne]

theorem carries : Carries o i id ↔ c.exportedInode.ino = i ∧ c.exportedInode.inExporterJournal = true ∧
    (c.state = .kPrimaryRequestNewOwnerImport ∨ c.state = .kNewOwnerImport) := by
  simp [Carries, hf.ctx, hf.live]

theorem carries_after : Carries o' i id ↔ c.exportedInode.ino = i ∧ c.exportedInode.inExporterJournal = true ∧
    c.state = .kPrimaryRequestNewOwnerImport := by
  unfold Carries
  rw [hf.ctxs, Function.update_self]
  cases hst : c.state <;> simp [forward, hst, hf.live]

theorem carries_before (hc : Carries o' i id') : Carries o i id' := by
  by_cases hid : id' = id
  · subst hid
    obtain ⟨hi, hj, hst⟩ := hf.carries_after.1 hc
    exact hf.carries.2 ⟨hi, hj, .inl hst⟩
  · exact (hf.carries_of_ne hid).1 hc

theorem sent {numWorkers : ℕ} (h : ∀ id c, o.ctx id = some c → c.exportedInode.importerWid < numWorkers)
    (id' : ℕ) (c' : Ctx) (hc' : o'.ctx id' = some c') : c'.exportedInode.importerWid < numWorkers := by
  rw [hf.ctxs, update_apply] at hc'
  split_ifs at hc'
  · cases hc'
    have := h id c hf.ctx
    unfold forward
    split <;> exact this
  · exact h id' c' hc'

end Forwards

theorem mem_insertIf {j : Bool} {i ino : ℕ} {l : Finset ℕ} :
    i ∈ Owners.insertIf j ino l ↔ i ∈ l ∨ i = ino ∧ j = true := by
  unfold Owners.insertIf
  split_ifs with hj
  · simp [hj, or_comm]
  · simp [hj]

section

variable {numWorkers : ℕ} {inodes : Finset ℕ} {o o' : Owners} (h : Moving numWorkers inodes o)

include h

theorem Moving.exported {dst : ℕ} {old new : Option CallbackFn} (hdst : dst < numWorkers)
    (hs : o.ownerExportThroughPrimary w ino dst old new = some o') :
      Moving numWorkers inodes o' ∧ (∀ i, Carried o' i ↔ Carried o i) ∧
      (∀ v, (o.worker v).inodesToCheckpoint = ∅ → (o'.worker v).inodesToCheckpoint = ∅) ∧
      ∀ i id, Carries o' i id → Carries o i id ∨ ∃ v < numWorkers, i ∈ (o.worker v).inodesToCheckpoint := by
  obtain ⟨hin, hv⟩ := export_view hs
  obtain ⟨hw, -, -, -⟩ := export_fields hs
  have hin' : ino ∈ (o.worker w).inodeMap := hin
  have hinv' : Inv inodes (view o') := h.inv.step (hv ▸ .start hin rfl rfl rfl rfl)
  have hctx : o'.ctx = update o.ctx o.nextCtx (some ⟨.kPrimaryRequestNewOwnerImport, old, new,
      Owners.exportedInode (o.worker w) w ino dst, false⟩) := congrArg View.ctx hv
  have hnew : o.ctx o.nextCtx = none := h.inv.queues.fresh o.nextCtx le_rfl
  have hheld (v : ℕ) : (o'.worker v).inodeMap = if v = w then (o.worker w).inodeMap.erase ino else
    (o.worker v).inodeMap := by
    rw [hw, update_apply]
    split_ifs <;> rfl
  have hlive (v : ℕ) : (o'.worker v).inodesToCheckpoint =
      if v = w then (o.worker w).inodesToCheckpoint.erase ino else (o.worker v).inodesToCheckpoint := by
    rw [hw, update_apply]
    split_ifs <;> rfl
  have hcarries (i id : ℕ) : Carries o' i id ↔ Carries o i id ∨ id = o.nextCtx ∧ i = ino ∧
    ino ∈ (o.worker w).inodesToCheckpoint := by
    unfold Carries
    rw [hctx, update_apply]
    split_ifs with hid
    · subst hid
      simp [hnew, Owners.exportedInode, @eq_comm _ ino i]
    · simp [hid]
  have hown (v : ℕ) : (o'.worker v).inodesToCheckpoint ⊆ (o'.worker v).inodeMap := by
    rw [hheld, hlive]
    split_ifs
    · exact Finset.erase_subset_erase ino (h.own w)
    · exact h.own v
  have hlives (i : ℕ) : Lives o' i ↔ Lives o i ∧ i ≠ ino := by
    rw [lives_iff hown, lives_iff h.own]
    constructor
    · rintro ⟨v, hl⟩
      rw [hlive] at hl
      split_ifs at hl with hvw
      · exact ⟨⟨w, Finset.mem_of_mem_erase hl⟩, Finset.ne_of_mem_erase hl⟩
      · refine ⟨⟨v, hl⟩, ?_⟩
        rintro rfl
        exact hvw (h.inv.held_unique (h.own v hl) hin)
    · rintro ⟨⟨v, hl⟩, hne⟩
      refine ⟨v, ?_⟩
      rw [hlive]
      split_ifs with hvw
      · exact Finset.mem_erase.2 ⟨hne, hvw ▸ hl⟩
      · exact hl
  refine ⟨⟨hinv', hown, fun v i hi => ?_, fun id c hc => ?_⟩, fun i => ?_, fun v hv => ?_, fun i id hc => ?_⟩
  · rw [hheld] at hi
    split_ifs at hi with hvw
    · exact hvw ▸ h.held w i (Finset.mem_of_mem_erase hi)
    · exact h.held v i hi
  · rw [hctx, update_apply] at hc
    split_ifs at hc
    · cases hc
      exact hdst
    · exact h.sent id c hc
  · by_cases hi : i = ino
    · subst hi
      have hlw : Lives o i ↔ i ∈ (o.worker w).inodesToCheckpoint := by
        refine ⟨?_, fun hl => ⟨w, hin, hl⟩⟩
        rintro ⟨v, hm, hl⟩
        cases h.inv.held_unique hm hin
        exact hl
      have hno (id : ℕ) : ¬ Carries o i id := fun hc => h.not_held hc w hin'
      simp [Carried, hlives, hcarries, hlw, hno]
    · simp [Carried, hlives, hcarries, hi]
  · rw [hlive]
    split_ifs with hvw
    · rw [← hvw, hv, Finset.erase_empty]
    · exact hv
  · rcases (hcarries i id).1 hc with hc | ⟨-, rfl, hl⟩
    · exact .inl hc
    · exact .inr ⟨w, h.held w i hin', hl⟩

section

variable {id b : ℕ} {c : Ctx} (hf : Forwards o o' id c) (hinv' : Inv inodes (view o'))

include hf hinv'

/-- The new owner takes the inode in, and has it in its live input if the old one had. -/
theorem Moving.imported (hb : c.exportedInode.importerWid = b) (hst : c.state = .kNewOwnerImport)
    (hw : o'.worker = workersAfter o b c) : Moving numWorkers inodes o' ∧ (∀ i, Carried o' i ↔ Carried o i) ∧
      ∀ v, (o.worker v).inodesToCheckpoint = ∅ → (o'.worker v).inodesToCheckpoint ≠ ∅ →
        v = b ∧ c.exportedInode.inExporterJournal = true := by
  have hheld (v : ℕ) : (o'.worker v).inodeMap =
      if v = b then insert c.exportedInode.ino (o.worker b).inodeMap else (o.worker v).inodeMap := by
    rw [hw, workersAfter, if_pos hst, update_apply]
    split_ifs <;> rfl
  have hlive (v : ℕ) : (o'.worker v).inodesToCheckpoint =
      if v = b then Owners.insertIf c.exportedInode.inExporterJournal c.exportedInode.ino
        (o.worker b).inodesToCheckpoint
      else (o.worker v).inodesToCheckpoint := by
    rw [hw, workersAfter, if_pos hst, update_apply]
    split_ifs <;> rfl
  have hown (v : ℕ) : (o'.worker v).inodesToCheckpoint ⊆ (o'.worker v).inodeMap := by
    rw [hheld, hlive]
    split_ifs
    · intro i hi
      rcases mem_insertIf.1 hi with hi | hi
      · exact Finset.mem_insert_of_mem (h.own b hi)
      · exact hi.1 ▸ Finset.mem_insert_self _ _
    · exact h.own v
  have hlives (i : ℕ) : Lives o' i ↔ Lives o i ∨ i = c.exportedInode.ino ∧
      c.exportedInode.inExporterJournal = true := by
    rw [lives_iff hown, lives_iff h.own]
    constructor
    · rintro ⟨v, hl⟩
      rw [hlive] at hl
      split_ifs at hl with hvb
      · exact (mem_insertIf.1 hl).imp_left fun hl => ⟨b, hl⟩
      · exact .inl ⟨v, hl⟩
    · rintro (⟨v, hl⟩ | hij)
      · refine ⟨v, ?_⟩
        rw [hlive]
        split_ifs with hvb
        · exact mem_insertIf.2 (.inl (hvb ▸ hl))
        · exact hl
      · refine ⟨b, ?_⟩
        rw [hlive, if_pos rfl]
        exact mem_insertIf.2 (.inr hij)
  refine ⟨⟨hinv', hown, fun v i hi => ?_, hf.sent h.sent⟩, fun i => ?_, fun v hv hv' => ?_⟩
  · rw [hheld] at hi
    split_ifs at hi with hvb
    · rw [hvb, ← hb]
      exact h.sent id c hf.ctx
    · exact h.held v i hi
  · -- the context is no longer one that carries the inode, and the new owner has it in its input
    rw [Carried, Carried, hlives]
    constructor
    · rintro ((hl | ⟨rfl, hj⟩) | ⟨id', hc'⟩)
      · exact .inl hl
      · exact .inr ⟨id, hf.carries.2 ⟨rfl, hj, .inr hst⟩⟩
      · exact .inr ⟨id', hf.carries_before hc'⟩
    · rintro (hl | ⟨id', hc'⟩)
      · exact .inl (.inl hl)
      · by_cases hid : id' = id
        · subst hid
          obtain ⟨hi, hj, -⟩ := hf.carries.1 hc'
          exact .inl (.inr ⟨hi.symm, hj⟩)
        · exact .inr ⟨id', (hf.carries_of_ne hid).2 hc'⟩
  · rw [hlive] at hv'
    split_ifs at hv' with hvb
    · obtain ⟨i, hi⟩ := Finset.nonempty_iff_ne_empty.2 hv'
      rcases mem_insertIf.1 hi with hi | hi
      · rw [← hvb, hv] at hi
        exact absurd hi (notMem_empty i)
      · exact ⟨hvb, hi.2⟩
    · exact absurd hv hv'

/-- The other states change no worker's inodes. -/
theorem Moving.forwarded (hst : c.state ≠ .kNewOwnerImport) (hworker : o'.worker = o.worker) :
    Moving numWorkers inodes o' ∧ ∀ i, Carried o' i ↔ Carried o i := by
  have hlives (i : ℕ) : Lives o' i ↔ Lives o i := by rw [Lives, hworker, Lives]
  refine ⟨⟨hinv', fun v => ?_, fun v i hi => ?_, hf.sent h.sent⟩, fun i => ?_⟩
  · rw [hworker]
    exact h.own v
  · rw [hworker] at hi
    exact h.held v i hi
  · rw [Carried, Carried, hlives]
    refine or_congr_right (exists_congr fun id' => ⟨hf.carries_before, fun hc' => ?_⟩)
    by_cases hid : id' = id
    · subst hid
      obtain ⟨hi, hj, hst'⟩ := hf.carries.1 hc'
      exact hf.carries_after.2 ⟨hi, hj, hst'.resolve_right hst⟩
    · exact (hf.carries_of_ne hid).2 hc'

end

theorem Moving.processed {a b : ℕ} (hs : o.process (fun _ _ o => o) a b = some o') :
    Moving numWorkers inodes o' ∧ (∀ i, Carried o' i ↔ Carried o i) ∧
      (∀ v, (o.worker v).inodesToCheckpoint = ∅ → (o'.worker v).inodesToCheckpoint ≠ ∅ → v = b ∧
        ∃ id rest c, o.ring a b = .kReassignment id :: rest ∧ o.ctx id = some c ∧ c.state = .kNewOwnerImport ∧
          c.exportedInode.inExporterJournal = true) ∧ ∀ i id, Carries o' i id → Carries o i id := by
  obtain ⟨id, rest, c, hr, hc, hd, hv, hw, -, -⟩ := process_taken hs
  have hq : (view o).queue a b = id :: rest.filterMap ctxOf := by simp [view, hr, ctxOf]
  have hinv' : Inv inodes (view o') := h.inv.step (hv ▸ .take hq hc hd)
  have hctx : o'.ctx = update o.ctx id (some (forward c)) := by
    have hf := congrArg View.ctx hv
    rw [advance_ctx] at hf
    exact hf
  have hf : Forwards o o' id c := ⟨hc, hd, hctx⟩
  by_cases hst : c.state = .kNewOwnerImport
  · have hb : c.exportedInode.importerWid = b := by
      have hroute := h.inv.queues.route_of_mem (hq ▸ mem_cons_self) hc
      rw [route, hst] at hroute
      exact (Prod.mk.inj hroute).2
    obtain ⟨hmoving, hcarried, hnew⟩ := h.imported hf hinv' hb hst hw
    refine ⟨hmoving, hcarried, fun v hv hv' => ?_, fun _ _ => hf.carries_before⟩
    obtain ⟨rfl, hj⟩ := hnew v hv hv'
    exact ⟨rfl, id, rest, c, hr, hc, hst, hj⟩
  · have hworker : o'.worker = o.worker := by rw [hw, workersAfter, if_neg hst]
    obtain ⟨hmoving, hcarried⟩ := h.forwarded hf hinv' hst hworker
    refine ⟨hmoving, hcarried, fun v hv hv' => ?_, fun _ _ => hf.carries_before⟩
    rw [hworker] at hv'
    exact absurd hv hv'

end

/-! ## The steps -/

theorem copyInodes_keeps (l : Finset ℕ) (e : JournaledEntry) : (e.copyInodes l).state = e.state ∧
    (e.copyInodes l).inodes = e.inodes ∧ (e.copyInodes l).slotEnd = e.slotEnd ∧
      (e.copyInodes l).covered = e.covered := by
  unfold JournaledEntry.copyInodes
  split_ifs <;> exact ⟨rfl, rfl, rfl, rfl⟩

variable {e : JournaledEntry}

theorem mem_copyInodes (hst : e.state = .success) (hin : ino ∈ e.inodes) :
    ino ∈ (e.copyInodes l).copied ↔ ino ∈ e.copied ∨ ino ∈ l := by
  simp [JournaledEntry.copyInodes, hst, hin]

theorem live_setLive (s : Migration) (w : ℕ) (l : Finset ℕ) (v : ℕ) :
    (s.setLive w l).live v = if v = w then l else s.live v := by
  rw [live, Migration.setLive, setWorker_worker]
  split_ifs <;> rfl

theorem inodeMap_setLive (s : Migration) (w : ℕ) (l : Finset ℕ) (v : ℕ) :
    ((s.setLive w l).owners.worker v).inodeMap = (s.owners.worker v).inodeMap := by
  rw [Migration.setLive, setWorker_worker]
  split_ifs with h
  · rw [h]
  · rfl

theorem view_setLive (s : Migration) (w : ℕ) (l : Finset ℕ) : view (s.setLive w l).owners = view s.owners := by
  rw [Migration.setLive, view_setWorker]
  ext1 <;> try rfl
  exact Function.update_eq_self w (view s.owners).held

section

variable {numWorkers : ℕ} {inodes : Finset ℕ}

theorem Moving.setLive {s : Migration} (h : Moving numWorkers inodes s.owners)
    (hl : l ⊆ (s.owners.worker w).inodeMap) : Moving numWorkers inodes (s.setLive w l).owners := by
  refine ⟨?_, fun v => ?_, fun v i hi => ?_, h.sent⟩
  · rw [view_setLive]
    exact h.inv
  · have := live_setLive s w l v
    rw [live] at this
    rw [this, inodeMap_setLive]
    split_ifs with hvw
    · exact hvw ▸ hl
    · exact h.own v
  · rw [inodeMap_setLive] at hi
    exact h.held v i hi

theorem lives_setLive {s : Migration} (h : Moving numWorkers inodes s.owners)
    (hl : l ⊆ (s.owners.worker w).inodeMap) (ino : ℕ) : Lives (s.setLive w l).owners ino ↔
      ino ∈ l ∨ ino ∉ (s.owners.worker w).inodeMap ∧ Lives s.owners ino := by
  have hlive (v : ℕ) : ((s.setLive w l).owners.worker v).inodesToCheckpoint = if v = w then l else s.live v :=
    live_setLive s w l v
  rw [lives_iff (h.setLive hl).own, lives_iff h.own]
  constructor
  · rintro ⟨v, hv⟩
    rw [hlive] at hv
    split_ifs at hv with hvw
    · exact .inl hv
    · exact .inr ⟨fun hw => hvw (h.inv.held_unique (h.own v hv) hw), v, hv⟩
  · rintro (hi | ⟨hn, v, hv⟩)
    · exact ⟨w, by rw [hlive, if_pos rfl]; exact hi⟩
    · have hvw : v ≠ w := by
        rintro rfl
        exact hn (h.own v hv)
      exact ⟨v, by rw [hlive, if_neg hvw]; exact hv⟩

/-- What a worker does that prepares: it hands its live input over, and has a new one. -/
structure Prepared (s : Migration) (w : ℕ) (s' : Migration) : Prop where
  own : s.live w ⊆ (s.owners.worker w).inodeMap
  handed : ∃ u, ∀ v, s'.handed v = if v = w then some (s.live w, u) else s.handed v
  entry : ∀ d ∈ s'.entries, ∃ e ∈ s.entries, d = e.copyInodes (s.live w)
  lives : ∀ ino, Lives s'.owners ino ↔ ino ∉ (s.owners.worker w).inodeMap ∧ Lives s.owners ino
  carries : ∀ ino id, Carries s'.owners ino id ↔ Carries s.owners ino id
  live : ∀ v, s'.live v = if v = w then ∅ else s.live v
  outcome : s'.outcome = s.outcome
  nDequeued : s'.nDequeued = s.nDequeued

theorem prepared_of_prepareForCheckpointing {s : Migration} (h : Moving numWorkers inodes s.owners)
    (hs : s.prepareForCheckpointing w = some s') : Moving numWorkers inodes s'.owners ∧ Prepared s w s' := by
  unfold Migration.prepareForCheckpointing at hs
  split_ifs at hs with hown
  cases hs
  generalize hs1 : ({ s with
        handed := update s.handed w (some (s.live w, u64Sub s.nEnqueued s.nDequeued))
        entries := s.entries.map (JournaledEntry.copyInodes (s.live w)) } : Migration) = s1
  have ho1 : s1.owners = s.owners := by rw [← hs1]
  have hm1 : Moving numWorkers inodes s1.owners := ho1 ▸ h
  refine ⟨hm1.setLive (w := w) (empty_subset _), hown, ⟨u64Sub s.nEnqueued s.nDequeued, fun v => ?_⟩, fun d hd => ?_,
    fun ino => ?_, fun ino id => ?_, fun v => ?_, ?_, ?_⟩
  · rw [← hs1]
    exact update_apply ..
  · rw [← hs1] at hd
    obtain ⟨e, he, rfl⟩ := List.mem_map.1 hd
    exact ⟨e, he, rfl⟩
  · rw [lives_setLive hm1 (empty_subset _), ho1]
    exact or_iff_right (notMem_empty ino)
  · rw [← hs1]
    exact Iff.rfl
  · rw [live_setLive, live, live, ho1]
  · rw [← hs1]
    rfl
  · rw [← hs1]
    rfl

variable {s : Migration} (h : Agreeing numWorkers inodes s)

include h

theorem Agreeing.moved {o' : Owners} (hm : Moving numWorkers inodes o') (hcar : ∀ i, Carried o' i ↔ Carried s.owners i)
    (hempty : s.outcome = none → ∀ w, s.handed w ≠ none → s.live w = ∅ → (o'.worker w).inodesToCheckpoint = ∅)
    (hall : s.outcome = none → (∀ w < numWorkers, s.handed w ≠ none) → ∀ i id, ¬ Carries o' i id) :
    Agreeing numWorkers inodes { s with owners := o' } where
  moving := hm
  owed ino ho := (h.owed ino ho).imp_left (hcar ino).2
  once ino hc := h.once ino ((hcar ino).1 hc)
  disjoint := h.disjoint
  workers := h.workers
  still := h.still
  running := h.running
  empty ho w hw := hempty ho w hw (h.empty ho w hw)
  all := hall
  copied := h.copied
  written := h.written
  released := h.released
  slots := h.slots

theorem Agreeing.reassign {l : Owners.Label} {o' : Owners} (hcf : Careful (.reassign l) s)
    (hvalid : valid numWorkers l) (hs : Owners.step (fun _ _ o => o) l s.owners = some o') :
      Agreeing numWorkers inodes { s with owners := o' } := by
  cases l with
  | start w ino dst old new =>
    simp only [Owners.step] at hs
    split_ifs at hs
    obtain ⟨hm, hcar, hlive, hcarries⟩ := h.moving.exported hvalid hs
    refine h.moved hm hcar (fun _ v _ hv => hlive v hv) fun ho hall i id hc => ?_
    rcases hcarries i id hc with hc | ⟨v, hv, hi⟩
    · exact h.all ho hall i id hc
    · have hno : s.live v = ∅ := h.empty ho v (hall v hv)
      rw [live] at hno
      rw [hno] at hi
      exact absurd hi (notMem_empty i)
  | process a b =>
    obtain ⟨hm, hcar, hlive, hcarries⟩ := h.moving.processed hs
    refine h.moved hm hcar (fun ho v hv hl => ?_) fun ho hall i id hc => h.all ho hall i id (hcarries i id hc)
    by_contra hne
    obtain ⟨rfl, id, rest, c, hr, hc, hst, hj⟩ := hlive v hl hne
    rcases hcf id rest c hr hc hst hj with hn | hn
    · exact hv hn
    · exact hn ho

theorem Agreeing.submitJournalEntry {nblocks : ℕ} (hcf : Careful (.submitJournalEntry w l nblocks) s)
    (hpos : 0 < nblocks) : Agreeing numWorkers inodes (s.submitJournalEntry w l nblocks) := by
  obtain ⟨hnone, hle⟩ := hcf
  have hmem {e : JournaledEntry} (he : e ∈ (s.submitJournalEntry w l nblocks).entries) :
      e ∈ s.entries ∨ e.state = .inFlight ∧ e.slotEnd = s.nEnqueued + nblocks := by
    rcases mem_append.1 he with he | he
    · exact .inl he
    · cases mem_singleton.1 he
      exact .inr ⟨rfl, rfl⟩
  have hold {e : JournaledEntry} (he : e ∈ (s.submitJournalEntry w l nblocks).entries) (hst : e.state = .success) :
    e ∈ s.entries := by
    rcases hmem he with he | ⟨hf, -⟩
    · exact he
    · rw [hst] at hf
      cases hf
  have hno (ino : ℕ) : ¬ Handed (s.submitJournalEntry w l nblocks) ino := by
    rintro ⟨v, src, hv, -⟩
    exact absurd (hv.symm.trans (hnone v)) (by simp)
  refine ⟨h.moving, fun ino ho => ?_, fun ino hc => hno ino, h.disjoint, h.workers, fun v hv => absurd (hnone v) hv,
    h.running, h.empty, h.all, fun _ ino hh => absurd hh (hno ino), fun ho => ?_, fun e he hst => ?_,
    fun e he hst => ?_⟩
  · obtain ⟨e, he, hst, hin, hcov⟩ := ho
    exact h.owed ino ⟨e, hold he hst, hst, hin, hcov⟩
  · obtain ⟨v, hv⟩ := h.running (by rw [show s.outcome = some true from ho]; simp)
    exact absurd (hnone v) hv
  · exact h.released e (hold he hst) hst
  · rcases hmem he with he | ⟨-, hend⟩
    · exact h.slots e he hst
    · have : s.nDequeued < s.nEnqueued + nblocks := by omega
      exact hend ▸ this

theorem Agreeing.handed_eq_none (he : e ∈ s.entries) (hst : e.state = .inFlight) (w : ℕ) : s.handed w = none := by
  by_contra hw
  exact h.still w hw e he hst

theorem Agreeing.journaled {k : ℕ} (hk : s.entries[k]? = some e) (hst : e.state = .inFlight)
    (hin : e.inodes ⊆ (s.owners.worker e.wid).inodeMap) : Agreeing numWorkers inodes
      (Migration.setLive { s with entries := s.entries.set k { e with state := .success } } e.wid
        (s.live e.wid ∪ e.inodes)) := by
  have he : e ∈ s.entries := mem_of_getElem? hk
  have hnone := h.handed_eq_none he hst
  have hmem {d : JournaledEntry} (hd : d ∈ s.entries.set k { e with state := .success }) :
      d ∈ s.entries ∨ d = { e with state := .success } := mem_or_eq_of_mem_set hd
  have hl : s.live e.wid ∪ e.inodes ⊆ (s.owners.worker e.wid).inodeMap :=
    union_subset (h.moving.own e.wid) hin
  have hno (ino : ℕ) : ¬ Handed (Migration.setLive { s with entries := s.entries.set k { e with state := .success } }
      e.wid (s.live e.wid ∪ e.inodes)) ino := by
    rintro ⟨v, src, hv, -⟩
    exact absurd (hv.symm.trans (hnone v)) (by simp)
  have hlives := lives_setLive (s := { s with entries := s.entries.set k { e with state := .success } }) h.moving hl
  refine ⟨Moving.setLive h.moving hl, fun ino ho => .inl ?_, fun ino _ => hno ino, h.disjoint, h.workers,
    fun v hv => absurd (hnone v) hv, h.running, fun _ v hv => absurd (hnone v) hv, h.all,
    fun _ ino hh => absurd hh (hno ino), fun ho => ?_, fun d hd hds hle => ?_, fun d hd hds => ?_⟩
  · -- an inode of the entry is now in the input; the others are where they were
    by_cases hine : ino ∈ e.inodes
    · exact .inl ((hlives ino).2 (.inl (mem_union_right _ hine)))
    · obtain ⟨d, hd, hds, hdin, hcov⟩ := ho
      have hd' : d ∈ s.entries := by
        rcases hmem hd with hd | rfl
        · exact hd
        · exact absurd hdin hine
      rcases h.owed ino ⟨d, hd', hds, hdin, hcov⟩ with (hlv | hc) | hh
      · refine .inl ((hlives ino).2 ?_)
        by_cases hw : ino ∈ (s.owners.worker e.wid).inodeMap
        · obtain ⟨v, hv, hvl⟩ := hlv
          cases h.moving.inv.held_unique hv hw
          exact .inl (Finset.mem_union_left _ hvl)
        · exact .inr ⟨hw, hlv⟩
      · exact .inr hc
      · exact absurd hh (hno ino)
  · obtain ⟨v, hv⟩ := h.running (by rw [show s.outcome = some true from ho]; simp)
    exact absurd (hnone v) hv
  · rcases hmem hd with hd | rfl
    · exact h.released d hd hds hle
    · have hlt := h.slots e he hst
      have hle' : e.slotEnd ≤ s.nDequeued := hle
      omega
  · rcases hmem hd with hd | rfl
    · exact h.slots d hd hds
    · cases hds

theorem Agreeing.failed (k : ℕ) (e : JournaledEntry) :
    Agreeing numWorkers inodes { s with entries := s.entries.set k { e with state := .failure } } := by
  have hmem {d : JournaledEntry} (hd : d ∈ s.entries.set k { e with state := .failure })
    (hds : d.state ≠ .failure) : d ∈ s.entries := by
    rcases mem_or_eq_of_mem_set hd with hd | rfl
    · exact hd
    · exact absurd rfl hds
  have hsucc {d : JournaledEntry} (hd : d ∈ s.entries.set k { e with state := .failure })
      (hds : d.state = .success) : d ∈ s.entries := hmem hd (by simp [hds])
  refine ⟨h.moving, fun ino ⟨d, hd, hds, hr⟩ => h.owed ino ⟨d, hsucc hd hds, hds, hr⟩, h.once, h.disjoint, h.workers,
    fun v hv d hd hds => ?_, h.running, h.empty, h.all, fun ho ino hh d hd hds =>
      h.copied ho ino hh d (hsucc hd hds) hds,
    fun ho d hd hds => h.written ho d (hsucc hd hds) hds, fun d hd hds => h.released d (hsucc hd hds) hds,
    fun d hd hds => h.slots d (hmem hd (by simp [hds])) hds⟩
  exact h.still v hv d (hmem hd (by simp [hds])) hds

theorem Agreeing.processJournalEntry {k : ℕ} {success : Bool}
    (hcf : Careful (.processJournalEntry k success) s) (hs : s.processJournalEntry k success = some s') :
      Agreeing numWorkers inodes s' := by
  obtain ⟨e, hk, hs⟩ := bind_eq_some_iff.1 hs
  split_ifs at hs with hst hb
  · cases hs
    exact h.journaled hk hst.1 (hcf e hk hb)
  · cases hs
    exact h.failed k e

section

variable (hp : Prepared s w s')

include hp

/-- An inode of the input is handed over with it, and the others are where they were. -/
theorem Agreeing.owed_prepared (hnone : s.handed w = none) (ho : Owed s' ino) :
    Carried s'.owners ino ∨ Handed s' ino := by
  obtain ⟨u, hhand⟩ := hp.handed
  obtain ⟨d, hd, hds, hdi, hcov⟩ := ho
  obtain ⟨e, he, rfl⟩ := hp.entry d hd
  obtain ⟨hst, hin, -, hco⟩ := copyInodes_keeps (s.live w) e
  rw [hst] at hds
  rw [hin] at hdi
  rw [hco] at hcov
  by_cases hil : ino ∈ s.live w
  · exact .inr ⟨w, (s.live w, u), by rw [hhand, if_pos rfl], hil⟩
  rcases h.owed ino ⟨e, he, hds, hdi, hcov⟩ with (⟨v, hv, hvl⟩ | ⟨id, hc⟩) | ⟨v, src, hv, hi⟩
  · refine .inl (.inl ((hp.lives ino).2 ⟨fun hiw => ?_, v, hv, hvl⟩))
    cases h.moving.inv.held_unique hv hiw
    exact hil hvl
  · exact .inl (.inr ⟨id, (hp.carries ino id).2 hc⟩)
  · refine .inr ⟨v, src, ?_, hi⟩
    rw [hhand, if_neg]
    · exact hv
    · rintro rfl
      rw [hnone] at hv
      cases hv

theorem Agreeing.once_prepared (hcar : ∀ ino id, ¬ Carries s.owners ino id) (hc : Carried s'.owners ino) :
    ¬ Handed s' ino := by
  obtain ⟨u, hhand⟩ := hp.handed
  rcases hc with hlv | ⟨id, hc⟩
  · obtain ⟨hniw, hlv⟩ := (hp.lives ino).1 hlv
    rintro ⟨v, src, hv, hi⟩
    rw [hhand] at hv
    split_ifs at hv with hvw
    · cases hv
      exact hniw (hp.own hi)
    · exact h.once ino (.inl hlv) ⟨v, src, hv, hi⟩
  · exact absurd ((hp.carries ino id).1 hc) (hcar ino id)

theorem Agreeing.disjoint_prepared {v v' : ℕ} {src src' : Finset ℕ × ℕ} (hv : s'.handed v = some src)
    (hv' : s'.handed v' = some src') (hi : ino ∈ src.1) (hi' : ino ∈ src'.1) : v = v' := by
  obtain ⟨u, hhand⟩ := hp.handed
  -- what is in the input was not handed over before
  have hfresh (hil : ino ∈ s.live w) {v : ℕ} {src : Finset ℕ × ℕ} (hv : s.handed v = some src) : ino ∉ src.1 :=
    fun hi => h.once ino (.inl ⟨w, hp.own hil, hil⟩) ⟨v, src, hv, hi⟩
  rw [hhand] at hv hv'
  split_ifs at hv hv' with hvw hvw' hvw'
  · rw [hvw, hvw']
  · cases hv
    exact absurd hi' (hfresh hi hv')
  · cases hv'
    exact absurd hi (hfresh hi' hv)
  · exact h.disjoint v v' src src' ino hv hv' hi hi'

theorem Agreeing.copied_prepared (hout : s.outcome = none) (hh : Handed s' ino) {d : JournaledEntry}
    (hd : d ∈ s'.entries) (hds : d.state = .success) (hdi : ino ∈ d.inodes) : ino ∈ d.copied := by
  obtain ⟨u, hhand⟩ := hp.handed
  obtain ⟨e, he, rfl⟩ := hp.entry d hd
  obtain ⟨hst, hin, -, -⟩ := copyInodes_keeps (s.live w) e
  rw [hst] at hds
  rw [hin] at hdi
  rw [mem_copyInodes hds hdi]
  obtain ⟨v, src, hv, hi⟩ := hh
  rw [hhand] at hv
  split_ifs at hv
  · cases hv
    exact .inr hi
  · exact .inl (h.copied hout ino ⟨v, src, hv, hi⟩ e he hds hdi)

end

theorem Agreeing.prepareForCheckpointing (hcf : Careful (.prepareForCheckpointing w) s)
    (hw : w < numWorkers) (hout : s.outcome = none) (hnone : s.handed w = none)
    (hs : s.prepareForCheckpointing w = some s') : Agreeing numWorkers inodes s' := by
  obtain ⟨hquiet, hcar⟩ := hcf
  obtain ⟨hmoving, hp⟩ := prepared_of_prepareForCheckpointing h.moving hs
  obtain ⟨u, hhand⟩ := hp.handed
  have hout' : s'.outcome = none := hp.outcome.trans hout
  refine ⟨hmoving, fun ino => h.owed_prepared hp hnone, fun ino => h.once_prepared hp hcar,
    fun v v' src src' ino => h.disjoint_prepared hp, fun v hv => ?_, fun v hv d hd => ?_, fun ho => absurd hout' ho,
    fun _ v hv => ?_, fun _ _ ino id hc => hcar ino id ((hp.carries ino id).1 hc),
    fun _ ino hh d => h.copied_prepared hp hout hh, fun ho => ?_, fun d hd hds hle => ?_, fun d hd hds => ?_⟩
  · rw [hhand] at hv
    split_ifs at hv with hvw
    · exact hvw ▸ hw
    · exact h.workers v hv
  · obtain ⟨e, he, rfl⟩ := hp.entry d hd
    rw [(copyInodes_keeps _ e).1]
    exact hquiet e he
  · rw [hp.live]
    split_ifs with hvw
    · rfl
    · rw [hhand, if_neg hvw] at hv
      exact h.empty hout v hv
  · rw [hout'] at ho
    cases ho
  · obtain ⟨e, he, rfl⟩ := hp.entry d hd
    obtain ⟨hst, hin, hend, hco⟩ := copyInodes_keeps (s.live w) e
    rw [hst] at hds
    rw [hend, hp.nDequeued] at hle
    rw [hin, hco]
    exact h.released e he hds hle
  · obtain ⟨e, he, rfl⟩ := hp.entry d hd
    rw [(copyInodes_keeps _ e).1] at hds
    exact absurd hds (hquiet e he)

theorem Agreeing.handed_of_owed (hout : s.outcome = none) (hall : ∀ w < numWorkers, s.handed w ≠ none)
    (ho : Owed s ino) : Handed s ino := by
  rcases h.owed ino ho with (⟨w, hw, hl⟩ | ⟨id, hc⟩) | hh
  · have hno : s.live w = ∅ := h.empty hout w (hall w (h.moving.held w ino hw))
    rw [live] at hno
    rw [hno] at hl
    exact absurd hl (notMem_empty ino)
  · exact absurd hc (h.all hout hall ino id)
  · exact hh

theorem Agreeing.copiesWritten (hpos : 0 < numWorkers) (success : Bool) (hout : s.outcome = none)
    (hall : ∀ w < numWorkers, s.handed w ≠ none) : Agreeing numWorkers inodes (s.copiesWritten success) := by
  have hentry {d : JournaledEntry} (hd : d ∈ (s.copiesWritten success).entries) :
    ∃ e ∈ s.entries, d = e.copiesWritten success := by
    obtain ⟨e, he, rfl⟩ := List.mem_map.1 hd
    exact ⟨e, he, rfl⟩
  have hcov (e : JournaledEntry) : e.covered ⊆ (e.copiesWritten success).covered := by
    unfold JournaledEntry.copiesWritten
    split_ifs
    · exact Finset.subset_union_left
    · exact subset_rfl
  have hsome : (s.copiesWritten success).outcome ≠ none := by simp [Migration.copiesWritten]
  refine ⟨h.moving, fun ino ho => ?_, h.once, h.disjoint, h.workers, fun v hv d hd => ?_,
    fun _ => ⟨0, hall 0 hpos⟩, fun ho => absurd ho hsome, fun ho => absurd ho hsome, fun ho => absurd ho hsome,
    fun ho d hd hds ino hi => ?_, fun d hd hds hle => ?_, fun d hd hds => ?_⟩
  · obtain ⟨d, hd, hds, hdi, hnc⟩ := ho
    obtain ⟨e, he, rfl⟩ := hentry hd
    exact h.owed ino ⟨e, he, hds, hdi, fun hc => hnc (hcov e hc)⟩
  · obtain ⟨e, he, rfl⟩ := hentry hd
    exact h.still v hv e he
  · obtain ⟨e, he, rfl⟩ := hentry hd
    by_cases hc : ino ∈ e.covered
    · exact hcov e hc
    · have hh := h.handed_of_owed hout hall ⟨e, he, hds, hi, hc⟩
      cases (Option.some.inj ho : success = true)
      exact mem_union_right _ (h.copied hout ino hh e he hds hi)
  · obtain ⟨e, he, rfl⟩ := hentry hd
    exact (h.released e he hds hle).trans (hcov e)
  · obtain ⟨e, he, rfl⟩ := hentry hd
    exact h.slots e he hds

theorem Agreeing.takeBack (hpos : 0 < numWorkers) {s₁ : Migration} (hm : Moving numWorkers inodes s₁.owners)
    (hhand : s₁.handed = s.handed) (hsome : s.outcome ≠ none) (hout : s₁.outcome = s.outcome)
      (hentries : s₁.entries = s.entries)
    (howed : ∀ ino, Owed s ino → Carried s₁.owners ino ∨ ∃ v src, v ≠ w ∧ s.handed v = some src ∧ ino ∈ src.1)
    (honce : ∀ ino, Carried s₁.owners ino → ∀ v src, v ≠ w → s.handed v = some src → ino ∉ src.1)
    (hrel : ∀ e ∈ s.entries, e.state = .success → e.slotEnd ≤ s₁.nDequeued → e.inodes ⊆ e.covered) :
    Agreeing numWorkers inodes (s₁.takeBack numWorkers w) := by
  have hhand' (v : ℕ) : (s₁.takeBack numWorkers w).handed v = if v = w then none else s.handed v := by
    rw [← hhand]
    exact update_apply ..
  have hback {v : ℕ} {x : Finset ℕ × ℕ} (hv : (s₁.takeBack numWorkers w).handed v = some x) :
    v ≠ w ∧ s.handed v = some x := by
    rw [hhand'] at hv
    split_ifs at hv with hvw
    exact ⟨hvw, hv⟩
  have hne {v : ℕ} (hv : (s₁.takeBack numWorkers w).handed v ≠ none) : s.handed v ≠ none := by
    obtain ⟨x, hx⟩ := ne_none_iff_exists'.1 hv
    rw [(hback hx).2]
    simp
  have hlast : (s₁.takeBack numWorkers w).outcome = none ↔ ∀ v < numWorkers,
    (s₁.takeBack numWorkers w).handed v = none := by
    change (if _ then _ else _) = none ↔ _
    split_ifs with hall
    · exact ⟨fun _ => hall, fun _ => rfl⟩
    · exact ⟨fun hn => absurd (hout ▸ hn) hsome, fun hn => absurd hn hall⟩
  -- with the last input the checkpoint is over
  have hover (ho : (s₁.takeBack numWorkers w).outcome = none) (v : ℕ) : (s₁.takeBack numWorkers w).handed v = none := by
    by_contra hv
    exact hv (hlast.1 ho v (h.workers v (hne hv)))
  have htrue (ho : (s₁.takeBack numWorkers w).outcome = some true) : s.outcome = some true := by
    rw [← hout]
    change (if _ then _ else _) = some true at ho
    split_ifs at ho
    exact ho
  have hstill (e : JournaledEntry) (he : e ∈ s.entries) : e.state ≠ .inFlight := by
    obtain ⟨v, hv⟩ := h.running hsome
    exact h.still v hv e he
  have hent : (s₁.takeBack numWorkers w).entries = s.entries := hentries
  refine ⟨hm, fun ino ho => ?_, fun ino hc => ?_, fun v v' src src' ino hv hv' => ?_, fun v hv => h.workers v (hne hv),
    fun v hv e he => ?_, fun ho => ?_, fun ho v hv => absurd (hover ho v) hv, fun ho hall => ?_, fun ho ino hh => ?_,
    fun ho e he => ?_, fun e he => ?_, fun e he hst => ?_⟩
  · obtain ⟨e, he, hr⟩ := ho
    rw [hent] at he
    refine (howed ino ⟨e, he, hr⟩).imp id ?_
    rintro ⟨v, src, hvw, hv, hi⟩
    exact ⟨v, src, by rw [hhand', if_neg hvw, hv], hi⟩
  · rintro ⟨v, src, hv, hi⟩
    obtain ⟨hvw, hv⟩ := hback hv
    exact honce ino hc v src hvw hv hi
  · exact h.disjoint v v' src src' ino (hback hv).2 (hback hv').2
  · rw [hent] at he
    exact hstill e he
  · by_contra hno
    exact ho (hlast.2 fun v _ => by
      by_contra hv
      exact hno ⟨v, hv⟩)
  · exact absurd (hover ho 0) (hall 0 hpos)
  · obtain ⟨v, src, hv, -⟩ := hh
    rw [hover ho v] at hv
    cases hv
  · rw [hent] at he
    exact h.written (htrue ho) e he
  · rw [hent] at he
    exact hrel e he
  · rw [hent] at he
    exact absurd hst (hstill e he)

theorem Agreeing.checkpointingComplete (hpos : 0 < numWorkers)
    (hcf : Careful (.checkpointingComplete w) s) (hs : s.checkpointingComplete numWorkers w = some s') :
      Agreeing numWorkers inodes s' := by
  obtain ⟨src, hsrc, hs⟩ := bind_eq_some_iff.1 hs
  obtain ⟨success, hout, rfl⟩ := map_eq_some_iff.1 hs
  have hsome : s.outcome ≠ none := by simp [hout]
  split_ifs with hb
  · -- everything was written
    subst hb
    refine h.takeBack hpos h.moving rfl hsome rfl rfl (fun ino ho => ?_) (fun ino hc v x hvw hv hi => ?_)
      fun e he hst _ => h.written hout e he hst
    · obtain ⟨e, he, hst, hin, hnc⟩ := ho
      exact absurd (h.written hout e he hst hin) hnc
    · exact h.once ino hc ⟨v, x, hv, hi⟩
  · have hf : success = false := by simpa using hb
    subst hf
    have hin : src.1 ⊆ (s.owners.worker w).inodeMap := hcf hout src hsrc
    have hl : s.live w ∪ src.1 ⊆ (s.owners.worker w).inodeMap := union_subset (h.moving.own w) hin
    have hlives := lives_setLive h.moving hl
    refine h.takeBack hpos (h.moving.setLive hl) rfl hsome rfl rfl (fun ino ho => ?_)
      (fun ino hc v x hvw hv hi => ?_) h.released
    · rcases h.owed ino ho with (⟨v, hv, hvl⟩ | hc) | ⟨v, x, hv, hi⟩
      · refine .inl (.inl ((hlives ino).2 ?_))
        by_cases hw : ino ∈ (s.owners.worker w).inodeMap
        · cases h.moving.inv.held_unique hv hw
          exact .inl (Finset.mem_union_left _ hvl)
        · exact .inr ⟨hw, v, hv, hvl⟩
      · exact .inl (.inr hc)
      · by_cases hvw : v = w
        · subst hvw
          cases hsrc.symm.trans hv
          exact .inl (.inl ((hlives ino).2 (.inl (mem_union_right _ hi))))
        · exact .inr ⟨v, x, hvw, hv, hi⟩
    · have hold (hc : Carried s.owners ino) : False := h.once ino hc ⟨v, x, hv, hi⟩
      rcases hc with hlv | hc
      · rcases (hlives ino).1 hlv with hlv | ⟨-, hlv⟩
        · rcases Finset.mem_union.1 hlv with hlv | his
          · exact hold (.inl ⟨w, h.moving.own w hlv, hlv⟩)
          · exact hvw (h.disjoint v w x src ino hv hsrc hi his)
        · exact hold (.inl hlv)
      · exact hold (.inr hc)

end

theorem Agreeing.step {numWorkers : ℕ} (hpos : 0 < numWorkers) {inodes : Finset ℕ} {s : Migration}
    {l : Migration.Label} (h : Agreeing numWorkers inodes s) (hcf : Careful l s)
    (hs : Migration.step numWorkers l s = some s') : Agreeing numWorkers inodes s' := by
  cases l with
  | reassign l =>
    simp only [Migration.step] at hs
    split_ifs at hs with hvalid
    obtain ⟨o', ho', rfl⟩ := map_eq_some_iff.1 hs
    exact h.reassign hcf hvalid ho'
  | submitJournalEntry w l nblocks =>
    simp only [Migration.step] at hs
    split_ifs at hs with hc
    cases hs
    exact h.submitJournalEntry hcf hc.2.2
  | processJournalEntry k success => exact h.processJournalEntry hcf hs
  | prepareForCheckpointing w =>
    simp only [Migration.step] at hs
    split_ifs at hs with hc
    exact h.prepareForCheckpointing hcf hc.2.1 hc.2.2.1 hc.2.2.2 hs
  | copiesWritten success =>
    simp only [Migration.step] at hs
    split_ifs at hs with hc
    cases hs
    exact h.copiesWritten hpos success hc.1 hc.2
  | checkpointingComplete w =>
    simp only [Migration.step] at hs
    split_ifs at hs
    exact h.checkpointingComplete hpos hcf hs

theorem agreeing_start {numWorkers : ℕ} (hpos : 0 < numWorkers) (inodes : Finset ℕ) :
    Agreeing numWorkers inodes (Migration.start inodes) := by
  have hempty (w : ℕ) : ((Migration.start inodes).owners.worker w).inodesToCheckpoint = ∅ := by
    simp only [Migration.start, Owners.start]
    split_ifs <;> rfl
  have hno (ino : ℕ) : ¬ Carried (Migration.start inodes).owners ino := by
    rintro (⟨w, -, hl⟩ | ⟨id, c, hc, -⟩)
    · rw [hempty] at hl
      exact absurd hl (notMem_empty ino)
    · cases hc
  have hnone (w : ℕ) : (Migration.start inodes).handed w = none := rfl
  have hent (e : JournaledEntry) : e ∉ (Migration.start inodes).entries := not_mem_nil
  have hout : (Migration.start inodes).outcome = none := rfl
  refine ⟨⟨(inv_start inodes _ _).1, fun w => ?_, fun w ino hw => ?_, fun id c hc => ?_⟩, fun ino ho => ?_,
    fun ino hc => absurd hc (hno ino), fun w _ src _ _ hv => ?_, fun w hv => absurd (hnone w) hv,
    fun w hv => absurd (hnone w) hv, fun ho => absurd hout ho, fun _ w hv => absurd (hnone w) hv,
    fun _ _ ino id hc => hno ino (.inr ⟨id, hc⟩), fun _ ino hh => ?_, fun ho => ?_,
    fun e he => absurd he (hent e), fun e he => absurd he (hent e)⟩
  · rw [hempty]
    exact empty_subset _
  · simp only [Migration.start, Owners.start] at hw
    split_ifs at hw with h0
    · exact h0 ▸ hpos
    · exact absurd hw (notMem_empty ino)
  · cases hc
  · obtain ⟨e, he, -⟩ := ho
    exact absurd he (hent e)
  · rw [hnone] at hv
    cases hv
  · obtain ⟨w, src, hv, -⟩ := hh
    rw [hnone] at hv
    cases hv
  · rw [hout] at ho
    cases ho

/-- In every run in which nothing moves at the wrong time, the workers agree on who writes an inode. -/
theorem checkpoint_agrees (numWorkers : ℕ) (hpos : 0 < numWorkers) (inodes : Finset ℕ) (ls : List Migration.Label)
    (s : Migration) (hcf : Along (Migration.step numWorkers) Careful ls (Migration.start inodes))
    (hrun : run (Migration.step numWorkers) ls (Migration.start inodes) = some s) : Agreed s := by
  have hinv : Agreeing numWorkers inodes s :=
    run_inv (fun _ _ _ h hc hs => h.step hpos hc hs) hrun hcf (agreeing_start hpos inodes)
  exact hinv.agreed

/-- Inode 1 is journaled, a checkpoint of it fails, and the primary hands it to worker 1. -/
def failThenMove : List Migration.Label :=
  [.submitJournalEntry 0 {1} 3, .processJournalEntry 0 true, .prepareForCheckpointing 1, .prepareForCheckpointing 0,
    .copiesWritten false, .checkpointingComplete 0, .checkpointingComplete 1, .reassign (.start 0 1 1 none none),
    .reassign (.process 0 0), .reassign (.process 0 1)]

theorem careful_failThenMove : Along (Migration.step 2) Careful failThenMove (Migration.start {1}) := by
  have hfree {o : Owners} (ho : o.ctx = fun _ => none) (ino id : ℕ) : ¬ Carries o ino id := by
    rintro ⟨c, hc, -⟩
    rw [ho] at hc
    cases hc
  refine ⟨⟨fun _ => rfl, le_rfl⟩, fun e he _ => ?_, ⟨?_, hfree rfl⟩, ⟨?_, hfree rfl⟩, trivial, fun _ src hsrc => ?_,
    fun _ src hsrc => ?_, trivial, ?_, ?_, trivial⟩
  · cases he
    decide
  · decide
  · decide
  · cases hsrc
    decide
  · cases hsrc
    decide
  · exact fun _ _ _ _ _ _ _ => .inl rfl
  · exact fun _ _ _ _ _ _ _ => .inl rfl

theorem checkpoint_agrees_moved : ∃ s, run (Migration.step 2) failThenMove (Migration.start {1}) = some s ∧
    Owed s 1 ∧ s.live 1 = {1} ∧ Agreed s := by
  have hrun : ∃ s, run (Migration.step 2) failThenMove (Migration.start {1}) = some s ∧ Owed s 1 ∧ s.live 1 = {1} :=
    ⟨_, rfl, ⟨_, List.mem_singleton_self _, rfl, Finset.mem_singleton_self 1, notMem_empty 1⟩, by decide⟩
  obtain ⟨s, hrun, howed, hlive⟩ := hrun
  exact ⟨s, hrun, howed, hlive, checkpoint_agrees 2 (by decide) {1} _ s careful_failThenMove hrun⟩

/-- An inode moves from the primary to worker 1 before a checkpoint fails, which leaves its name in the input of the
primary. It moves before the journal entry with it is completed, with the same result. And it is between the two while
all three workers hand their inputs over, and the checkpoint releases its entry without having written it. -/
theorem checkpoint_disagrees : (∃ s, run (Migration.step 3) [.submitJournalEntry 0 {1} 3, .processJournalEntry 0 true,
        .prepareForCheckpointing 2, .prepareForCheckpointing 0, .prepareForCheckpointing 1,
        .reassign (.start 0 1 1 none none), .reassign (.process 0 0), .reassign (.process 0 1), .copiesWritten false,
        .checkpointingComplete 0] (Migration.start {1}) = some s ∧ ¬ Agreed s) ∧
    (∃ s, run (Migration.step 3) [.submitJournalEntry 0 {1} 3, .reassign (.start 0 1 1 none none),
        .reassign (.process 0 0), .processJournalEntry 0 true] (Migration.start {1}) = some s ∧ ¬ Agreed s) ∧
    ∃ s, run (Migration.step 3) [.submitJournalEntry 0 {1} 3, .processJournalEntry 0 true,
        .reassign (.start 0 1 1 none none), .reassign (.process 0 0), .prepareForCheckpointing 2,
        .prepareForCheckpointing 0, .prepareForCheckpointing 1, .copiesWritten true, .checkpointingComplete 0]
      (Migration.start {1}) = some s ∧ ¬ Agreed s := by
  refine ⟨⟨_, rfl, fun h => ?_⟩, ⟨_, rfl, fun h => ?_⟩, ⟨_, rfl, fun h => ?_⟩⟩
  · exact absurd (h.own 0) (by decide)
  · exact absurd (h.own 0) (by decide)
  · exact absurd (h.released _ (List.mem_singleton_self _) rfl (by decide)) (by decide)

end Ufs.Proof.Ownership
