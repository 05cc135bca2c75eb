import Ufs.Framework.Overwrite
import Ufs.Impl.OfflineCheckpointer

/-!
# Recovery can be run again

`recovery_idempotent`: after a crash in `writeAllMetadata`, when each inode sector
and each bitmap block is as before or as recovered, a run over the same entries
gives the recovered state.

An inode log entry holds the values of the fields it changes, and not how to change
them: `applyChangesTo` overwrites (`overwrites_applyChangesTo`), also where an extent
past the last one is written over `mtime`, and so does `processJournalEntry`.
-/

namespace Ufs.Proof.Recovery

open Impl Metadata
open Function (update update_of_ne update_self)
open InodeLogEntry (modeIDX uidIDX gidIDX atimeIDX ctimeIDX mtimeIDX sizeIDX nlinkIDX bitmapOpIDX)

/-! ## Inodes -/

/-- The fields of an inode that a replay may write. -/
inductive Field where
  | nlink
  | iDentryCount
  | type
  | iNo
  | iUid
  | iGid
  | iBlockCount
  | size
  | syncID
  | atime
  | ctime
  | mtime
  | extArray (i : Fin nextentArr)
deriving DecidableEq

def Field.Value : Field → Type
  | .nlink => UInt8
  | .iDentryCount => UInt16
  | .type | .iNo | .iUid | .iGid | .iBlockCount => UInt32
  | .size | .syncID => UInt64
  | .atime | .ctime | .mtime => Timeval
  | .extArray _ => CfsExtent

/-- The value of a field. -/
def field (d : CfsDinode) : (f : Field) → f.Value
  | .nlink => d.nlink
  | .iDentryCount => d.iDentryCount
  | .type => d.type
  | .iNo => d.iNo
  | .iUid => d.iUid
  | .iGid => d.iGid
  | .iBlockCount => d.iBlockCount
  | .size => d.size
  | .syncID => d.syncID
  | .atime => d.atime
  | .ctime => d.ctime
  | .mtime => d.mtime
  | .extArray i => d.extArray i

theorem ext_of_field {d d' : CfsDinode} (h : ∀ f, field d f = field d' f) : d = d' := by
  obtain ⟨⟩ := d
  obtain ⟨⟩ := d'
  congr
  · exact h .nlink
  · exact h .iDentryCount
  · exact h .type
  · exact h .iNo
  · exact h .iUid
  · exact h .iGid
  · exact h .iBlockCount
  · exact h .size
  · exact h .syncID
  · exact h .atime
  · exact h .ctime
  · exact h .mtime
  · exact funext fun i => h (.extArray i)

theorem overwrites_mtime (v : Timeval) : Overwrites field fun d => { d with mtime := v } :=
  .single .mtime v (fun _ => rfl) fun d f hf => by cases f <;> first | rfl | exact absurd rfl hf

theorem overwrites_setExtent (idx : Option (Fin nextentArr)) (x : CfsExtent) :
    Overwrites field fun d => d.setExtent idx x := by
  cases idx with
  | none => exact overwrites_mtime _
  | some i =>
    refine .single (.extArray i) x (fun d => update_self ..) fun d f hf => ?_
    cases f with
    | extArray j => exact update_of_ne (fun h => hf (congrArg Field.extArray h)) ..
    | _ => rfl

theorem overwrites_applyFields (e : InodeLogEntry) : Overwrites field e.applyFields := by
  have hsyncID : Overwrites field fun d => { d with syncID := e.syncID } :=
    .single .syncID e.syncID (fun _ => rfl) fun d f hf => by cases f <;> first | rfl | exact absurd rfl hf
  have htype : Overwrites field fun d => { d with type := e.mode } :=
    .single .type e.mode (fun _ => rfl) fun d f hf => by cases f <;> first | rfl | exact absurd rfl hf
  have huid : Overwrites field fun d => { d with iUid := e.uid } :=
    .single .iUid e.uid (fun _ => rfl) fun d f hf => by cases f <;> first | rfl | exact absurd rfl hf
  have hgid : Overwrites field fun d => { d with iGid := e.gid } :=
    .single .iGid e.gid (fun _ => rfl) fun d f hf => by cases f <;> first | rfl | exact absurd rfl hf
  have hatime : Overwrites field fun d => { d with atime := e.atime } :=
    .single .atime e.atime (fun _ => rfl) fun d f hf => by cases f <;> first | rfl | exact absurd rfl hf
  have hctime : Overwrites field fun d => { d with ctime := e.ctime } :=
    .single .ctime e.ctime (fun _ => rfl) fun d f hf => by cases f <;> first | rfl | exact absurd rfl hf
  have hsize : Overwrites field fun d => { d with size := e.size } :=
    .single .size e.size (fun _ => rfl) fun d f hf => by cases f <;> first | rfl | exact absurd rfl hf
  have hblockCount : Overwrites field fun d => { d with iBlockCount := e.blockCount } :=
    .single .iBlockCount e.blockCount (fun _ => rfl) fun d f hf => by cases f <;> first | rfl | exact absurd rfl hf
  have hdentryCount : Overwrites field fun d => { d with iDentryCount := e.dentryCount } :=
    .single .iDentryCount e.dentryCount (fun _ => rfl) fun d f hf => by cases f <;> first | rfl | exact absurd rfl hf
  have hnlink : Overwrites field fun d => { d with nlink := e.nlink } :=
    .single .nlink e.nlink (fun _ => rfl) fun d f hf => by cases f <;> first | rfl | exact absurd rfl hf
  exact hsyncID.comp (htype.ite (e.has modeIDX)) |>.comp (huid.ite (e.has uidIDX))
    |>.comp (hgid.ite (e.has gidIDX)) |>.comp (hatime.ite (e.has atimeIDX))
    |>.comp (hctime.ite (e.has ctimeIDX)) |>.comp ((overwrites_mtime e.mtime).ite (e.has mtimeIDX))
    |>.comp (hsize.ite (e.has sizeIDX)) |>.comp (hblockCount.ite (e.has InodeLogEntry.blockCountIDX))
    |>.comp (hdentryCount.ite (e.has InodeLogEntry.dentryCountIDX)) |>.comp (hnlink.ite (e.has nlinkIDX))

theorem overwrites_applyChangesTo (e : InodeLogEntry) (blocks : InodeLogEntry.BlocksAddOrDel) :
    Overwrites field fun d => (e.applyChangesTo d blocks).1 :=
  (overwrites_applyFields e).comp (.foldl (fun _ => overwrites_setExtent ..) e.extAdd.entries) |>.comp
    (.foldl (fun _ => overwrites_setExtent ..) (e.extDel.entries.filter e.deletes))

/-! ## The metadata -/

/-- What is written of the metadata at once: a field of an inode, or a bit of a bitmap block. -/
inductive Cell where
  | inode (sector : ℕ) (f : Field)
  | bit (block nr : ℕ)
deriving DecidableEq

def Cell.Value : Cell → Type
  | .inode _ f => f.Value
  | .bit _ _ => Bool

/-- The value of a cell. -/
def cell (m : Metadata) : (c : Cell) → c.Value
  | .inode sector f => field (m.inodes sector) f
  | .bit block nr => m.bitmaps block nr

theorem ext_of_cell {m m' : Metadata} (h : ∀ c, cell m c = cell m' c) : m = m' := by
  obtain ⟨inodes, bitmaps⟩ := m
  obtain ⟨inodes', bitmaps'⟩ := m'
  congr
  · exact funext fun sector => ext_of_field fun f => h (.inode sector f)
  · exact funext fun block => funext fun nr => h (.bit block nr)

theorem overwrites_changeBit (block nr : ℕ) (set : Bool) : Overwrites cell fun m => m.changeBit block nr set := by
  refine .single (.bit block nr) set (fun m => ?_) fun m c hc => ?_
  · show update m.bitmaps block _ block nr = set
    rw [update_self]
    cases set <;> exact update_self ..
  · cases c with
    | inode sector f => rfl
    | bit block' nr' =>
      show update m.bitmaps block _ block' nr' = m.bitmaps block' nr'
      by_cases hb : block' = block
      · subst hb
        have hn : nr' ≠ nr := fun h => hc (h ▸ rfl)
        rw [update_self]
        cases set <;> exact update_of_ne hn ..
      · rw [update_of_ne hb]

theorem overwrites_updateInode {g : CfsDinode → CfsDinode} (hg : Overwrites field g) (sector : ℕ) :
    Overwrites cell fun m => { m with inodes := update m.inodes sector (g (m.inodes sector)) } := by
  obtain ⟨w, hw⟩ := hg
  refine ⟨fun | .inode sector' f => if sector' = sector then w f else none | .bit _ _ => none, fun m c => ?_⟩
  cases c with
  | bit block nr => rfl
  | inode sector' f =>
    show field (update m.inodes sector _ sector') f = (if sector' = sector then w f else none).getD
      (field (m.inodes sector') f)
    by_cases hs : sector' = sector
    · subst hs
      rw [update_self, if_pos rfl]
      exact hw ..
    · rw [update_of_ne hs, if_neg hs]
      rfl

theorem overwrites_processInodeLogEntry (ile : InodeLogEntry) : Overwrites cell fun m => m.processInodeLogEntry ile :=
  (overwrites_updateInode (overwrites_applyChangesTo ile ∅) (ino2SectorNo ile.inode.toNat)).comp
    (.foldl (fun _ => overwrites_changeBit ..) (ile.applyChangesTo .zero ∅).2.entries) |>.comp
    ((overwrites_changeBit (getImapForInode ile.inode.toNat) (ile.inode.toNat % bpb) (ile.bitmapOp != 0)).ite
      (ile.has bitmapOpIDX))

theorem overwrites_processJournal (jes : List JournalEntry) : Overwrites cell fun m => m.processJournal jes :=
  .foldl (f := processJournalEntry) (fun je => .foldl overwrites_processInodeLogEntry je.ileVec) jes

/-! ## Recovery after a crash -/

/-- The device after a crash in `writeAllMetadata`: each inode sector and each bitmap block holds what it held
before, or what it was to hold. -/
structure CrashedBetween (before after m : Metadata) : Prop where
  inodes : ∀ sector, m.inodes sector = before.inodes sector ∨ m.inodes sector = after.inodes sector
  bitmaps : ∀ block, m.bitmaps block = before.bitmaps block ∨ m.bitmaps block = after.bitmaps block

/-- For all entries and all metadata: a run over the entries after a crash gives what the run that crashed
was to give. -/
theorem recovery_idempotent (jes : List JournalEntry) {before m : Metadata}
    (h : CrashedBetween before (before.processJournal jes) m) :
    m.processJournal jes = before.processJournal jes := by
  refine ext_of_cell ((overwrites_processJournal jes).recovers fun c => ?_)
  cases c with
  | inode sector f => exact (h.inodes sector).imp (congrArg (field · f)) (congrArg (field · f))
  | bit block nr => exact (h.bitmaps block).imp (congrFun · nr) (congrFun · nr)

/-- The entry of a file that was created and given one block. -/
def creation : JournalEntry :=
  { JournalEntry.new with
    ileVec := [⟨7, 1, InodeLogEntry.bitmapOpIDX ||| InodeLogEntry.sizeIDX, 0, 0, 0, 0, 1, 0, 0, 4096, ⟨0, 0⟩, ⟨0, 0⟩,
      ⟨0, 0⟩, none, .singleton (UInt64.ofNat getDataStartBlock) ⟨1, 0, 1, true⟩, ∅, ∅, none⟩] }

/-- Metadata that was never written. -/
def blank : Metadata := ⟨fun _ => .zero, fun _ _ => false⟩

/-- The crash comes when the bitmap blocks are written and the inode is not. -/
theorem recovery_idempotent_creation : (blank.processJournal [creation]).bitmaps getBmapStartBlock 0 = true ∧
    (⟨blank.inodes, (blank.processJournal [creation]).bitmaps⟩ : Metadata).processJournal [creation] =
      blank.processJournal [creation] :=
  ⟨by decide +kernel, recovery_idempotent [creation] ⟨fun _ => .inl rfl, fun _ => .inr rfl⟩⟩

end Ufs.Proof.Recovery
