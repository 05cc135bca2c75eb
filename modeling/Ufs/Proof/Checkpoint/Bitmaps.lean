import Ufs.Impl.FileMng
import Ufs.Proof.Checkpoint.Writes

/-!
# The bitmaps that a checkpoint writes

`updateBlockBitmaps` and `processInodeBitmapChanges` insert the bitmap blocks that durable entries
change into a copy of the map of the blocks to checkpoint. No step changes the maps themselves
(`step_keeps_maps`), so a checkpoint has written the bitmaps back only if none were changed
(`bitmaps_written_back_iff`).
-/

namespace Ufs.Proof.Checkpoint

open Impl
open Server (step)
open Option

variable {w : FileMng} {wid : ℕ} {s s' : Server}

/-! ## The maps of bitmap blocks -/

/-- The two bitmap maps of a worker's checkpoint input. -/
def maps (w : FileMng) : ToCheckpoint Image × ToCheckpoint Image :=
  (w.checkpointInput.bitmapsToCheckpoint, w.checkpointInput.inodeBitmapsToCheckpoint)

section

variable {p p' : ToCheckpoint Image × FileMng}

theorem setBlock_keeps_maps {b : ℕ} (h : FileMng.setBlock p b = some p') : maps p'.2 = maps p.2 := by
  obtain ⟨bits, -, rfl⟩ := map_eq_some_iff.1 h
  rfl

theorem clearBlock_keeps_maps {b : ℕ} (h : FileMng.clearBlock p b = some p') : maps p'.2 = maps p.2 := by
  obtain ⟨bits, -, rfl⟩ := map_eq_some_iff.1 h
  rfl

theorem changeInode_keeps_maps {it : (_ : ℕ) × Bool} (h : FileMng.changeInode p it = some p') :
    maps p'.2 = maps p.2 := by
  obtain ⟨bits, -, rfl⟩ := map_eq_some_iff.1 h
  show maps (if it.2 then _ else _) = maps p.2
  split <;> rfl

end

variable {w' : FileMng}

theorem updateBlockBitmaps_keeps_maps {set clear : List ℕ} (h : w.updateBlockBitmaps set clear = some w') :
    maps w' = maps w := by
  obtain ⟨p, hset, h⟩ := bind_eq_some_iff.1 h
  obtain ⟨p', hclear, h⟩ := bind_eq_some_iff.1 h
  cases h
  have h1 : maps p.2 = maps w := foldlM_keeps (fun _ _ _ => setBlock_keeps_maps) hset
  exact (foldlM_keeps (fun _ _ _ => clearBlock_keeps_maps) hclear).trans h1

theorem processInodeBitmapChanges_keeps_maps {changes : AList fun _ : ℕ => Bool}
    (h : w.processInodeBitmapChanges wid changes = some w') : maps w' = maps w := by
  unfold FileMng.processInodeBitmapChanges at h
  split at h
  · cases h
  · obtain ⟨p, hp, h⟩ := bind_eq_some_iff.1 h
    cases h
    exact foldlM_keeps (fun _ _ _ => changeInode_keeps_maps) hp

variable {changes : BitmapChangeOps}

theorem processBitmapChanges_keeps_maps (h : w.processBitmapChanges wid changes = some w') : maps w' = maps w := by
  obtain ⟨w1, h1, h2⟩ := bind_eq_some_iff.1 h
  exact (updateBlockBitmaps_keeps_maps h2).trans (processInodeBitmapChanges_keeps_maps h1)

theorem applyEntry_keeps_maps (w : FileMng) (ileVec : List InodeLogEntry) :
    maps (Server.applyEntry w ileVec).2 = maps w := by
  have key : ∀ (p : BitmapChanges × FileMng), maps (ileVec.foldl InodeLogEntry.onSuccessfulJournalWrite p).2 =
    maps p.2 := by
    induction ileVec with
    | nil => exact fun _ => rfl
    | cons e es ih => exact fun p => ih _
  exact key _

theorem copyBufToStableDataBitmap_keeps_maps (w : FileMng) (bno : ℕ) (buf : Bitmap) :
    maps (w.copyBufToStableDataBitmap bno buf) = maps w := by
  unfold FileMng.copyBufToStableDataBitmap
  split <;> rfl

/-! ## Runs of the server -/

/-- Those of every worker. -/
def allMaps (s : Server) : ℕ → ToCheckpoint Image × ToCheckpoint Image := fun v => maps (s.workers v)

theorem allMaps_setWorker (h : maps w = maps (s.workers wid)) : allMaps (s.setWorker wid w) = allMaps s := by
  funext v
  simp only [allMaps, Server.setWorker, Function.update_apply]
  split
  · rename_i hv
    rw [h, hv]
  · rfl

theorem processRemote_keeps_maps (h : s.processRemoteBitmapChanges wid changes = some s') : allMaps s' = allMaps s := by
  unfold Server.processRemoteBitmapChanges at h
  split at h
  · obtain ⟨w, hw, rfl⟩ := map_eq_some_iff.1 h
    exact allMaps_setWorker (processBitmapChanges_keeps_maps hw)
  · cases h
    rfl

theorem updateBitmaps_keeps_maps {je : BitmapChanges} (h : s.updateBitmapsOnJournalWriteComplete wid je =
    some s') : allMaps s' = allMaps s := by
  obtain ⟨w, hw, rfl⟩ := map_eq_some_iff.1 h
  refine Eq.trans (b := allMaps (s.setWorker wid w)) rfl (allMaps_setWorker ?_)
  split at hw
  · exact processBitmapChanges_keeps_maps hw
  · cases hw
    rfl

variable {ileVec : List InodeLogEntry}

theorem journalWriteComplete_keeps_maps (h : s.journalWriteComplete wid ileVec = some s') : allMaps s' = allMaps s :=
  (updateBitmaps_keeps_maps h).trans (allMaps_setWorker (applyEntry_keeps_maps _ _))

theorem step_keeps_maps {e : Server.Event} (h : step e s = some s') : allMaps s' = allMaps s := by
  cases e with
  | journalWriteComplete wid ileVec =>
    simp only [step] at h
    split at h
    · exact journalWriteComplete_keeps_maps h
    · cases h
  | bitmapChanges wid =>
    simp only [step] at h
    split at h
    · split at h
      · exact (processRemote_keeps_maps h).trans rfl
      · cases h
    · cases h
  | bitmapRead wid bno =>
    simp only [step] at h
    split at h
    · cases h
      exact allMaps_setWorker (copyBufToStableDataBitmap_keeps_maps ..)
    · cases h
  | bmapsReady wid =>
    simp only [step] at h
    split at h
    · split at h
      · exact (processRemote_keeps_maps h).trans rfl
      · cases h
    · cases h

variable {inodes : ℕ → CfsDinode} {device : ℕ → Bitmap} {es : List Server.Event}

theorem run_maps_empty {n : ℕ} (h : run step es (.start n device inodes) = some s) (v : ℕ) :
    (s.workers v).checkpointInput.bitmapsToCheckpoint = ∅ ∧
    (s.workers v).checkpointInput.inodeBitmapsToCheckpoint = ∅ := by
  have hinv : allMaps s = allMaps (.start n device inodes) :=
    run_inv' (I := fun t => allMaps t = allMaps (.start n device inodes))
      (fun e t t' ht hstep => (step_keeps_maps hstep).trans ht) h rfl
  exact Prod.mk.inj (congrFun hinv v)

/-! ## The checkpoint -/

/-- The bitmap changes that one journal entry records. -/
def entryChanges (ileVec : List InodeLogEntry) : BitmapChanges :=
  ileVec.foldl (fun je e => e.recordChanges je (e.applyChangesTo .zero ∅).2) .empty

/-- The entry changes neither a data bitmap nor an inode bitmap. -/
def ChangesNoBitmap (ileVec : List InodeLogEntry) : Prop :=
  (entryChanges ileVec).blocksForBitmapSet ++ (entryChanges ileVec).blocksForBitmapClear = [] ∧
  (entryChanges ileVec).inodeAllocDealloc.entries = []

/-- The bitmap blocks that `je` changes are among those that their owners have to checkpoint, and the
device has them as they are. -/
structure WrittenBack (s : Server) (device : ℕ → Bitmap) (je : BitmapChanges) : Prop where
  data : ∀ pba ∈ je.blocksForBitmapSet ++ je.blocksForBitmapClear,
    getBmapBlockForPba pba ∈ (s.workers (ownerOfBlock pba)).checkpointInput.bitmapsToCheckpoint ∧
    (s.workers (ownerOfBlock pba)).stableDataBitmaps (getBmapBlockForPba pba) = some (device (getBmapBlockForPba pba))
  inodes : ∀ ino ∈ je.inodeAllocDealloc,
    getImapForInode ino ∈ (s.workers 0).checkpointInput.inodeBitmapsToCheckpoint ∧
    (s.workers 0).stableInodeBitmaps (getImapForInode ino) = some (device (getImapForInode ino))

theorem hasMemory_checkpointWorkers (s : Server) : ∀ w ∈ s.checkpointWorkers, HasMemory w := by
  intro w hw
  obtain ⟨v, -, rfl⟩ := List.mem_map.1 hw
  exact ⟨fun _ => rfl, fun _ => rfl⟩

/-- After every checkpoint that succeeds, the bitmap blocks that the entries of `es` changed are written
back. -/
def BitmapsWrittenBack (s : Server) (es : List Server.Event) : Prop :=
  ∀ (rcs : List ℤ) (fails : ℕ → Bool) (res : List (Notification Image) × CheckpointWrites Image),
    checkpointAllJournals s.checkpointWorkers rcs fails = some res →
    (∀ n ∈ res.1, ∃ ci, n = .onCheckpointSuccess ci) → (∀ rc ∈ rcs, rc = 0 ∨ rc = enomem) →
    ∀ wid ileVec, .journalWriteComplete wid ileVec ∈ es →
      WrittenBack s (res.2.accepted.foldl Server.written s.device) (entryChanges ileVec)

theorem changesNoBitmap_of_writtenBack {n : ℕ} (h : run step es (.start n device inodes) = some s)
    (hw : BitmapsWrittenBack s es)
    (he : .journalWriteComplete wid ileVec ∈ es) : ChangesNoBitmap ileVec := by
  obtain ⟨rcs, fails, res, hres, hsucc, hrcs⟩ := exists_success (hasMemory_checkpointWorkers s)
  obtain ⟨hdata, hinodes⟩ := hw rcs fails res hres hsucc hrcs wid ileVec he
  constructor
  · apply List.eq_nil_iff_forall_not_mem.2
    intro pba hpba
    have hmem := (hdata pba hpba).1
    rw [(run_maps_empty h (ownerOfBlock pba)).1] at hmem
    exact AList.notMem_empty _ hmem
  · apply List.eq_nil_iff_forall_not_mem.2
    intro x hx
    have hmem := (hinodes x.1 (List.mem_map_of_mem hx)).1
    rw [(run_maps_empty h 0).2] at hmem
    exact AList.notMem_empty _ hmem

/-- A checkpoint that succeeds writes back all bitmap blocks that the entries before it changed if and
only if they changed none. -/
theorem bitmaps_written_back_iff {n : ℕ} {device : ℕ → Bitmap} {inodes : ℕ → CfsDinode} {es : List Server.Event}
    {s : Server} (h : run Server.step es (.start n device inodes) = some s) : BitmapsWrittenBack s es ↔
      ∀ wid ileVec, .journalWriteComplete wid ileVec ∈ es → ChangesNoBitmap ileVec := by
  refine ⟨fun hw wid ileVec he => changesNoBitmap_of_writtenBack h hw he, ?_⟩
  intro hno rcs fails res _ _ _ wid ileVec he
  obtain ⟨hdata, hinodes⟩ := hno wid ileVec he
  constructor
  · intro pba hpba
    rw [hdata] at hpba
    cases hpba
  · intro ino hino
    have hkeys : ino ∈ (entryChanges ileVec).inodeAllocDealloc.entries.keys := hino
    rw [hinodes] at hkeys
    cases hkeys

/-- The entry of `inode` with the fields of `optfield` present. -/
def logEntry (inode : UInt64) (optfield : UInt32) (extAdd : ExtMap) : InodeLogEntry where
  inode := inode
  syncID := 1
  optfieldBitarr := optfield
  mode := 0
  uid := 0
  gid := 0
  blockCount := 1
  bitmapOp := 1
  dentryCount := 0
  nlink := 1
  size := 4096
  atime := ⟨0, 0⟩
  mtime := ⟨0, 0⟩
  ctime := ⟨0, 0⟩
  extentSeqNo := some 1
  extAdd := extAdd
  extDel := ∅
  dependsOn := ∅
  minode := some 0

theorem bitmaps_written_back_resize : ∃ s, run Server.step [.journalWriteComplete 0
    [logEntry 7 InodeLogEntry.sizeIDX ∅]]
      (.start 1 (fun _ _ => false) fun _ => .zero) = some s ∧
    BitmapsWrittenBack s [.journalWriteComplete 0 [logEntry 7 InodeLogEntry.sizeIDX ∅]] := by
  obtain ⟨s, hs⟩ : ∃ s, run Server.step [.journalWriteComplete 0 [logEntry 7 InodeLogEntry.sizeIDX ∅]]
    (.start 1 (fun _ _ => false) fun _ => .zero) = some s := ⟨_, rfl⟩
  refine ⟨s, hs, (bitmaps_written_back_iff hs).mpr ?_⟩
  intro wid ileVec he
  obtain ⟨rfl, rfl⟩ := Server.Event.journalWriteComplete.inj (List.mem_singleton.mp he)
  exact ⟨rfl, rfl⟩

/-- A worker creates a file with one data block: the bits of its inode and of its block are set in the
stable bitmaps, and no checkpoint writes them. -/
theorem bitmap_not_written_back : ∃ s, run Server.step [.bitmapRead 0 getBmapStartBlock,
        .journalWriteComplete 0 [logEntry 7 InodeLogEntry.bitmapOpIDX
          (AList.singleton (UInt64.ofNat getDataStartBlock) ⟨0, 0, 1, true⟩)]]
      (.start 1 (fun _ _ => false) fun _ => .zero) = some s ∧ ¬ BitmapsWrittenBack s [.bitmapRead 0 getBmapStartBlock,
        .journalWriteComplete 0 [logEntry 7 InodeLogEntry.bitmapOpIDX
          (AList.singleton (UInt64.ofNat getDataStartBlock) ⟨0, 0, 1, true⟩)]] := by
  obtain ⟨s, hs⟩ : ∃ s, run Server.step
      [.bitmapRead 0 getBmapStartBlock,
        .journalWriteComplete 0 [logEntry 7 InodeLogEntry.bitmapOpIDX
          (AList.singleton (UInt64.ofNat getDataStartBlock) ⟨0, 0, 1, true⟩)]]
      (.start 1 (fun _ _ => false) fun _ => .zero) = some s := ⟨_, rfl⟩
  refine ⟨s, hs, fun hw => ?_⟩
  have hno := changesNoBitmap_of_writtenBack hs hw (List.mem_cons_of_mem _ (List.mem_singleton_self _))
  exact absurd hno.2 (by decide)

end Ufs.Proof.Checkpoint
