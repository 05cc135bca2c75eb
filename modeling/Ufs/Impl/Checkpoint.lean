import Ufs.Impl.Layout

/-!
# Checkpoints (`FsProc_Journal.cc`)

`rcs` are the codes that `spdk_nvme_ns_cmd_write` returns, call by call, and `fails k` is whether
the `k`-th write that it accepted fails. The loop over the writes repeats a call that returns
`-ENOMEM`; it is `none` when `rcs` ends before.
-/

namespace Ufs.Impl

/-- From inodes or block numbers to the images to write, `none` being a null pointer, in the order of an iteration. -/
abbrev ToCheckpoint (δ : Type*) := AList fun _ : ℕ => Option δ

def ToCheckpoint.fill {δ : Type*} (m : ToCheckpoint δ) (image : ℕ → δ) : ToCheckpoint δ where
  entries := m.entries.map fun e => ⟨e.1, some (image e.1)⟩
  nodupKeys := by
    have h := m.nodupKeys
    rw [List.NodupKeys, List.keys, List.map_map]
    exact h

/-- Sets the image of every key of `src` to a null pointer, adding the keys that are missing. -/
def ToCheckpoint.merge {δ : Type*} (m src : ToCheckpoint δ) : ToCheckpoint δ :=
  src.entries.foldl (fun m e => m.insert e.1 none) m

/-- `CheckpointInput`: what is to be written, each with the copy of its image if it was taken. -/
structure CheckpointInput (δ : Type*) where
  nUsed : ℕ
  inodesToCheckpoint : ToCheckpoint δ
  bitmapsToCheckpoint : ToCheckpoint δ
  inodeBitmapsToCheckpoint : ToCheckpoint δ
  inodeDevMem : Bool
  bitmapDevMem : Bool

/-- An input with nothing to write. -/
def CheckpointInput.new {δ : Type*} : CheckpointInput δ := ⟨0, ∅, ∅, ∅, false, false⟩

/-- The images that a worker has in memory. -/
structure Images (δ : Type*) where
  jinodeData : ℕ → δ
  stableDataBitmap : ℕ → δ
  stableInodeBitmap : ℕ → δ

/-- `size` is that of the ring, and the flags say whether the device has memory for the copies. -/
structure CheckpointWorker (δ : Type*) where
  checkpointInput : CheckpointInput δ
  checkpointInProgress : Bool
  images : Images δ
  size : ℕ
  zmallocInodes : Bool
  zmallocBitmaps : Bool

namespace CheckpointWorker

variable {δ : Type*}

def populateCheckpointInput (w : CheckpointWorker δ) (ci : CheckpointInput δ) : CheckpointInput δ :=
  { ci with
    inodesToCheckpoint := ci.inodesToCheckpoint.fill w.images.jinodeData
    bitmapsToCheckpoint := ci.bitmapsToCheckpoint.fill w.images.stableDataBitmap
    inodeBitmapsToCheckpoint := ci.inodeBitmapsToCheckpoint.fill w.images.stableInodeBitmap
    nUsed := w.size }

def prepareFailed (w : CheckpointWorker δ) (ci : CheckpointInput δ) :
    Option (CheckpointInput δ) × CheckpointWorker δ :=
  (none, { w with checkpointInput := { ci with inodeDevMem := false, bitmapDevMem := false } })

/-- The input for the checkpoint, `none` when there is no device memory for it. -/
def prepareForCheckpointing (w : CheckpointWorker δ) : Option (CheckpointInput δ) × CheckpointWorker δ :=
  let ci := w.checkpointInput
  let numInodes := ci.inodesToCheckpoint.entries.length
  let numBitmaps := ci.bitmapsToCheckpoint.entries.length + ci.inodeBitmapsToCheckpoint.entries.length
  let ci := if numInodes ≠ 0 then { ci with inodeDevMem := w.zmallocInodes } else ci
  if numInodes ≠ 0 ∧ w.zmallocInodes = false then w.prepareFailed ci
  else
    let ci := if numBitmaps ≠ 0 then { ci with bitmapDevMem := w.zmallocBitmaps } else ci
    if numBitmaps ≠ 0 ∧ w.zmallocBitmaps = false then w.prepareFailed ci
    else
      (some (w.populateCheckpointInput ci), { w with checkpointInput := .new, checkpointInProgress := true })

/-- Puts `src` back into the input for the next checkpoint. A null `src` is dereferenced. -/
def onCheckpointFailure (w : CheckpointWorker δ) : Option (CheckpointInput δ) → Option (CheckpointWorker δ)
  | none => none
  | some src =>
    let ci := w.checkpointInput
    some { w with
      checkpointInput := { ci with
        inodesToCheckpoint := ci.inodesToCheckpoint.merge src.inodesToCheckpoint
        bitmapsToCheckpoint := ci.bitmapsToCheckpoint.merge src.bitmapsToCheckpoint }
      checkpointInProgress := false }

end CheckpointWorker

/-- `calcSectorForInode`, in `uint32_t`. -/
def ino2SectorNo (ino : ℕ) : ℕ := (ino % 2 ^ 32 + bsize / 512 * getInodeStartBlock) % 2 ^ 32

/-- A write that a checkpoint issues: what is written, and the sectors. -/
structure WriteReq (δ : Type*) where
  payload : Option δ
  lba : ℕ
  lbaCount : ℕ
deriving Repr, DecidableEq

namespace CheckpointInput

variable {δ : Type*}

def inodeWrites (ci : CheckpointInput δ) : List (WriteReq δ) :=
  ci.inodesToCheckpoint.entries.map fun e => ⟨e.2, ino2SectorNo e.1, 1⟩

def bitmapWrites (m : ToCheckpoint δ) : List (WriteReq δ) :=
  m.entries.map fun e => ⟨e.2, e.1 * 8, 8⟩

end CheckpointInput

/-- The counters of the writes, and the writes that the device accepted. -/
structure CheckpointWrites (δ : Type*) where
  nIssued : ℕ
  nCompleted : ℕ
  nFailed : ℕ
  accepted : List (WriteReq δ)
deriving Repr, DecidableEq

/-- `-ENOMEM`. -/
def enomem : ℤ := -12

namespace CheckpointWrites

variable {δ : Type*}

/-- No write issued. -/
def none : CheckpointWrites δ := ⟨0, 0, 0, []⟩

def issue (s : CheckpointWrites δ) (r : WriteReq δ) : CheckpointWrites δ :=
  { s with nIssued := s.nIssued + 1, accepted := s.accepted ++ [r] }

def checkpointWriteComplete (s : CheckpointWrites δ) (error : Bool) : CheckpointWrites δ :=
  { s with nCompleted := s.nCompleted + 1, nFailed := if error then s.nFailed + 1 else s.nFailed }

def complete (fails : ℕ → Bool) : ℕ → CheckpointWrites δ → CheckpointWrites δ
  | 0, s => s
  | n + 1, s => complete fails n (s.checkpointWriteComplete (fails s.nCompleted))

def waitForCheckpointWriteCompletions (fails : ℕ → Bool) (s : CheckpointWrites δ) : CheckpointWrites δ :=
  complete fails (s.nIssued - s.nCompleted) s

/-- A write that is refused for another reason than `-ENOMEM` is skipped. -/
def submitWrites (fails : ℕ → Bool) : List (WriteReq δ) → List ℤ → CheckpointWrites δ →
    Option (List ℤ × CheckpointWrites δ)
  | [], rcs, s => some (rcs, s)
  | _ :: _, [], _ => Option.none
  | r :: rs, rc :: rcs, s =>
    if rc = 0 then submitWrites fails rs rcs (s.issue r)
    else if rc ≠ enomem then submitWrites fails rs rcs s
    else submitWrites fails (r :: rs) rcs (s.waitForCheckpointWriteCompletions fails)
termination_by structural _ rcs => rcs

def submitInput (fails : ℕ → Bool) (ci : CheckpointInput δ) (rcs : List ℤ) (s : CheckpointWrites δ) :
    Option (List ℤ × CheckpointWrites δ) := do
  let (rcs, s) ← submitWrites fails ci.inodeWrites rcs s
  let (rcs, s) ← submitWrites fails (CheckpointInput.bitmapWrites ci.bitmapsToCheckpoint) rcs s
  submitWrites fails (CheckpointInput.bitmapWrites ci.inodeBitmapsToCheckpoint) rcs s

def submitInputs (fails : ℕ → Bool) : List (CheckpointInput δ) → List ℤ → CheckpointWrites δ →
    Option (List ℤ × CheckpointWrites δ)
  | [], rcs, s => some (rcs, s)
  | ci :: cis, rcs, s => do
    let (rcs, s) ← submitInput fails ci rcs s
    submitInputs fails cis rcs s

end CheckpointWrites

/-- What a worker runs when it is notified, and on which input (`none`: a null pointer). -/
inductive Notification (δ : Type*) where
  | onCheckpointSuccess (src : Option (CheckpointInput δ))
  | onCheckpointFailure (src : Option (CheckpointInput δ))

def notifyAllProcsOnCheckpointComplete {δ : Type*} (cis : List (Option (CheckpointInput δ))) (success : Bool) :
    List (Notification δ) :=
  cis.map fun ci => if success then .onCheckpointSuccess ci else .onCheckpointFailure ci

/-- The workers prepare, the writes are issued and waited for, and every worker is told the outcome.
-/
def checkpointAllJournals {δ : Type*} (workers : List (CheckpointWorker δ)) (rcs : List ℤ) (fails : ℕ → Bool) :
    Option (List (Notification δ) × CheckpointWrites δ) :=
  let cis := workers.map fun w => w.prepareForCheckpointing.1
  let numSuccessful := cis.countP Option.isSome
  if numSuccessful ≠ workers.length then some (notifyAllProcsOnCheckpointComplete cis false, .none)
  else do
    let (_, s) ← CheckpointWrites.submitInputs fails (cis.filterMap id) rcs .none
    let s := s.waitForCheckpointWriteCompletions fails
    if 0 < s.nFailed then some (notifyAllProcsOnCheckpointComplete cis false, s)
    else some (notifyAllProcsOnCheckpointComplete cis true, s)

end Ufs.Impl
