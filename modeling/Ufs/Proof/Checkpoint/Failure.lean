import Ufs.Proof.Checkpoint.Writes

/-!
# After a checkpoint that failed

When a checkpoint fails, `onCheckpointFailure` puts the input that was handed to it back into the
one that was collected meanwhile: the comment there says that the two are merged.
`failure_keeps_iff`: what was in either of the two is in the input of the next checkpoint exactly
when the inode bitmaps that were handed to the failed checkpoint are all in the new input already.
The loops are over the inodes and the data bitmaps only (`failure_drops_inode_bitmap`).
-/

namespace Ufs.Proof.Checkpoint

open Impl
open List

variable {δ : Type*}

/-- All that `src` was to write is in `ci`, with the same images. -/
structure Includes (ci src : CheckpointInput δ) : Prop where
  inodes : ∀ i ∈ src.inodesToCheckpoint, i ∈ ci.inodesToCheckpoint
  bitmaps : ∀ b ∈ src.bitmapsToCheckpoint, b ∈ ci.bitmapsToCheckpoint
  inodeBitmaps : ∀ b ∈ src.inodeBitmapsToCheckpoint, b ∈ ci.inodeBitmapsToCheckpoint

theorem Includes.trans {a b c : CheckpointInput δ} (h : Includes a b) (h' : Includes b c) : Includes a c :=
  ⟨fun i hi => h.inodes i (h'.inodes i hi), fun i hi => h.bitmaps i (h'.bitmaps i hi), fun i hi =>
    h.inodeBitmaps i (h'.inodeBitmaps i hi)⟩

/-- The writes hold the images of everything in `src`. -/
structure WritesAll (images : Images δ) (src : CheckpointInput δ) (accepted : List (WriteReq δ)) : Prop where
  inodes : ∀ i ∈ src.inodesToCheckpoint, ⟨some (images.jinodeData i), ino2SectorNo i, 1⟩ ∈ accepted
  bitmaps : ∀ b ∈ src.bitmapsToCheckpoint, ⟨some (images.stableDataBitmap b), b * 8, 8⟩ ∈ accepted
  inodeBitmaps : ∀ b ∈ src.inodeBitmapsToCheckpoint, ⟨some (images.stableInodeBitmap b), b * 8, 8⟩ ∈ accepted

/-! ## Maps -/

theorem mem_merge {m src : ToCheckpoint δ} {k : ℕ} : k ∈ m.merge src ↔ k ∈ m ∨ k ∈ src := by
  have key : ∀ (es : List ((_ : ℕ) × Option δ)) (m : ToCheckpoint δ),
    k ∈ es.foldl (fun m e => m.insert e.1 none) m ↔ k ∈ m ∨ k ∈ es.keys := by
    intro es
    induction es with
    | nil => exact fun m => by simp
    | cons e es ih =>
      intro m
      rw [foldl_cons, ih, AList.mem_insert, keys_cons, mem_cons]
      tauto
  exact key src.entries m

theorem mem_fill {m : ToCheckpoint δ} {image : ℕ → δ} {k : ℕ} (h : k ∈ m) :
    (⟨k, some (image k)⟩ : (_ : ℕ) × Option δ) ∈ (m.fill image).entries := by
  obtain ⟨e, he, rfl⟩ := mem_map.1 (show k ∈ m.entries.keys from h)
  exact mem_map.2 ⟨e, he, rfl⟩

theorem writesAll_populate (w : CheckpointWorker δ) :
    WritesAll w.images w.checkpointInput (writes (w.populateCheckpointInput w.checkpointInput)) := by
  refine ⟨fun i hi => ?_, fun b hb => ?_, fun b hb => ?_⟩
  · apply mem_append_left
    apply mem_append_left
    exact mem_map.2 ⟨_, mem_fill hi, rfl⟩
  · apply mem_append_left
    apply mem_append_right
    exact mem_map.2 ⟨_, mem_fill hb, rfl⟩
  · apply mem_append_right
    exact mem_map.2 ⟨_, mem_fill hb, rfl⟩

theorem WritesAll.of_includes {images : Images δ} {ci src : CheckpointInput δ} {ws : List (WriteReq δ)}
    (h : WritesAll images ci ws) (hi : Includes ci src) : WritesAll images src ws :=
  ⟨fun i hs => h.inodes i (hi.inodes i hs), fun b hs => h.bitmaps b (hi.bitmaps b hs), fun b hs =>
    h.inodeBitmaps b (hi.inodeBitmaps b hs)⟩

variable {src : CheckpointInput δ}

theorem WritesAll.mono {images : Images δ} {ws ws' : List (WriteReq δ)}
    (h : WritesAll images src ws) (hs : ws ⊆ ws') : WritesAll images src ws' :=
  ⟨fun i hi => hs (h.inodes i hi), fun b hb => hs (h.bitmaps b hb), fun b hb => hs (h.inodeBitmaps b hb)⟩

/-! ## The failure -/

/-- The next checkpoint that succeeds, and in which no write is refused, writes everything in `src`:
`w` is the worker after the failure, and `v` is the same worker when that checkpoint prepares it,
entries that completed in between having added to its input. -/
def WrittenNext (w : CheckpointWorker δ) (src : CheckpointInput δ) : Prop :=
  ∀ (workers : List (CheckpointWorker δ)) (v : CheckpointWorker δ) (rcs : List ℤ) (fails : ℕ → Bool)
    (res : List (Notification δ) × CheckpointWrites δ),
    v ∈ workers → Includes v.checkpointInput w.checkpointInput →
    checkpointAllJournals workers rcs fails = some res → (∀ n ∈ res.1, ∃ ci, n = .onCheckpointSuccess ci) →
    (∀ rc ∈ rcs, rc = 0 ∨ rc = enomem) → WritesAll v.images src res.2.accepted

theorem writtenNext_of_includes {w : CheckpointWorker δ} (h : Includes w.checkpointInput src) : WrittenNext w src := by
  intro workers v rcs fails res hv hincl hres hsucc hrcs
  have hacc : res.2.accepted = promised workers := accepted_of_success hres hsucc hrcs
  have hsub : writes (v.populateCheckpointInput v.checkpointInput) ⊆ res.2.accepted := by
    rw [hacc]
    exact fun r hr => mem_flatMap.2 ⟨v, hv, hr⟩
  exact ((writesAll_populate v).of_includes (hincl.trans h)).mono hsub

/-- After the failure of a checkpoint on `src`, the input of the worker has everything in `src`, and all
that was registered with `w` while the checkpoint was running. -/
def NothingLost (src : CheckpointInput δ) (w w' : CheckpointWorker δ) : Prop :=
  (Includes w'.checkpointInput src ∧ Includes w'.checkpointInput w.checkpointInput) ∧
  WrittenNext w' src ∧ WrittenNext w' w.checkpointInput

/-- Nothing is lost if and only if the inode bitmaps of the failed checkpoint were registered again
while it was running. -/
theorem failure_keeps_iff (src : CheckpointInput δ) (w : CheckpointWorker δ) :
    (∃ w', w.onCheckpointFailure (some src) = some w' ∧ NothingLost src w w') ↔
      ∀ b ∈ src.inodeBitmapsToCheckpoint, b ∈ w.checkpointInput.inodeBitmapsToCheckpoint := by
  constructor
  · rintro ⟨w', hw', ⟨hsrc, -⟩, -⟩
    cases hw'
    -- the map of inode bitmaps is the one before the failure
    exact hsrc.inodeBitmaps
  · intro h
    refine ⟨_, rfl, ?_⟩
    have hsrc : Includes ((w.onCheckpointFailure (some src)).get rfl).checkpointInput src :=
      ⟨fun i hi => mem_merge.mpr (.inr hi), fun b hb => mem_merge.mpr (.inr hb), h⟩
    have hlive : Includes ((w.onCheckpointFailure (some src)).get rfl).checkpointInput w.checkpointInput :=
      ⟨fun i hi => mem_merge.mpr (.inl hi), fun b hb => mem_merge.mpr (.inl hb), fun _ hb => hb⟩
    exact ⟨⟨hsrc, hlive⟩, writtenNext_of_includes hsrc, writtenNext_of_includes hlive⟩

/-- One inode and its inode bitmap, changed and not yet copied. -/
def oneAllocation : CheckpointInput ℕ :=
  { CheckpointInput.new with
    inodesToCheckpoint := .singleton 7 none
    inodeBitmapsToCheckpoint := .singleton 2 none }

/-- The checkpoint of an inode and its bitmap block fails, and no entry completes meanwhile: the inode
is put back, the bitmap block is not. -/
theorem failure_drops_inode_bitmap : ¬ ∃ w',
    ({ oneInode with checkpointInput := .new } : CheckpointWorker ℕ).onCheckpointFailure (some oneAllocation) =
      some w' ∧ NothingLost oneAllocation { oneInode with checkpointInput := .new } w' := by
  rintro ⟨w', hw', ⟨hsrc, -⟩, -⟩
  cases hw'
  exact absurd (hsrc.inodeBitmaps 2 (by decide)) (by decide)

end Ufs.Proof.Checkpoint
