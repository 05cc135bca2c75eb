import Ufs.Impl.JournalRuns

/-!
# Workers that share a journal, and their checkpoints

`Sys N` is the journal of `N` workers: in the global journal all workers share one `JSuper`, and a
local journal is the case `N = 1`. A worker takes an entry from its slot through `serializeBody` and
its two writes to `SUCCESS`, when the changes are in its in-memory images. In a checkpoint every
worker copies its images and records the size of the ring, the images are written, and every worker
then releases as many blocks as it recorded and sets the stamp. `JSuper` is locked for each of its
functions alone, so that these are separate steps, and so are the three of a superblock write. A
crash may come after any step: what recovery then finds is `device` and `hist.durable`.
-/

namespace Ufs.Impl

open Function (update)

/-- How far an entry is: the states of its `JournalEntry` in which the device or an image changes.
-/
inductive EntryState where
  | acquired
  | serialized
  | bodyWritten
  | commitWritten
  | succeeded
deriving Repr, DecidableEq

/-- A journal entry with the slot it was granted. -/
structure SysEntry (N : ℕ) where
  worker : Fin N
  slot : Grant
  startBlock : ℕ
  ustimeSerialized : ℕ
  state : EntryState
  /-- It changes bits of a bitmap. -/
  bitmaps : Bool
  /-- The images that its worker copied hold its changes. -/
  imaged : Bool
  /-- Such an image is on the device. -/
  reflected : Bool
deriving Repr, DecidableEq

/-- The last block of the slot. -/
def SysEntry.commitBlock {N : ℕ} (e : SysEntry N) : ℕ := e.startBlock + e.slot.len - 1

/-- Where a worker is in a checkpoint. -/
inductive Phase where
  | idle
  | prepared (nUsed : ℕ)
  | released
deriving Repr, DecidableEq

/-- The blocks that a worker that has prepared will release. -/
def Phase.due : Phase → ℕ
  | .prepared k => k
  | _ => 0

/-- The shared `JSuper` with its history, the entries in the order of their slots, and the workers.
-/
structure Sys (N : ℕ) where
  hist : Hist
  clock : ℕ
  entries : List (SysEntry N)
  phase : Fin N → Phase
  /-- The images of the checkpoint are on the device. -/
  written : Bool
  /-- The blocks enqueued, the released ones among them, when the last worker prepared. -/
  mark : ℕ
  nImaged : ℕ
  /-- The entry whose commit record is in a block. -/
  device : ℕ → Option ℕ

/-- A step of a worker, or of the device. -/
inductive Act (N : ℕ) where
  | acquireNextNSlots (w : Fin N) (n : ℕ)
  | serializeBody (i now : ℕ) (bitmaps : Bool)
  | bodyWritten (i : ℕ)
  | commitWritten (i : ℕ)
  | success (i : ℕ)
  | prepareForCheckpointing (w : Fin N)
  | imagesWritten
  | releaseFirstNSlots (w : Fin N)
  | setLastCheckpoint (w : Fin N) (now : ℕ)
  | trySetWriteInProgress
  | jsuperDurable
  | onWriteComplete
deriving Repr, DecidableEq

namespace Sys

variable {N : ℕ}

/-- No entry, no checkpoint, and the journal as `h` has it. -/
def start (h : Hist) : Sys N := ⟨h, h.js.getLastCheckpoint, [], fun _ => .idle, false, h.enq, h.js.size, fun _ => none⟩

/-- The step `f` of entry `i`, taken in state `st` only. -/
def onEntry (s : Sys N) (i : ℕ) (st : EntryState) (f : SysEntry N → Sys N) : Option (Sys N) :=
  s.entries[i]?.bind fun e => if e.state = st then some (f e) else none

def setEntry (s : Sys N) (i : ℕ) (e : SysEntry N) : Sys N := { s with entries := s.entries.set i e }

/-- A worker copies its images and records the size of the ring. The bitmap blocks it copies are
filled in copies of their descriptors, so that no image has the bits that an entry changed. -/
def prepare (s : Sys N) (w : Fin N) : Sys N :=
  { s with
    phase := update s.phase w (.prepared s.hist.js.size)
    entries := s.entries.map fun e =>
      { e with imaged := e.imaged || decide (e.worker = w ∧ e.state = .succeeded ∧ e.bitmaps = false) }
    mark := s.hist.enq
    nImaged := s.hist.js.size }

/-- The images that were copied reach the device. -/
def writeImages (s : Sys N) : Sys N :=
  { s with written := true, entries := s.entries.map fun e => { e with reflected := e.reflected || e.imaged } }

/-- `releaseFirstNSlots` with the number of blocks recorded at the prepare. -/
def releaseSlots (s : Sys N) (w : Fin N) (k : ℕ) : Sys N :=
  { s with hist := s.hist.release k, phase := update s.phase w .released }

/-- The checkpoint is over when every worker has set its stamp. -/
def setStamp (s : Sys N) (w : Fin N) (now : ℕ) : Sys N :=
  { s with
    hist := { s.hist with js := s.hist.js.setLastCheckpoint now }
    clock := now
    phase := update s.phase w .idle
    written := decide (∃ v, update s.phase w .idle v ≠ .idle) }

def setHist (s : Sys N) (h : Hist) : Sys N := { s with hist := h }

/-- The entry of worker `w` that was granted `n` blocks at index `idx`. -/
def newEntry (s : Sys N) (w : Fin N) (n idx : ℕ) : SysEntry N :=
  ⟨w, ⟨⟨s.hist.enq, n⟩, idx, false⟩, s.hist.js.idxToBlockNo idx, 0, .acquired, false, false, false⟩

/-- One step, and none when its turn has not come. -/
def step : Act N → Sys N → Option (Sys N)
  | .acquireNextNSlots w n, s =>
    if 2 ≤ n ∧ n ≤ maxBlocks then
      match (s.hist.js.acquireNextNSlots n).1.startIdx with
      | none => some (s.setHist (s.hist.acquire n))
      | some idx => some { s.setHist (s.hist.acquire n) with entries := s.entries ++ [s.newEntry w n idx] }
    else none
  | .serializeBody i now bitmaps, s =>
    if s.clock < now then
      s.onEntry i .acquired fun e =>
        { s.setEntry i { e with ustimeSerialized := now, state := .serialized, bitmaps } with clock := now }
    else none
  | .bodyWritten i, s =>
    s.onEntry i .serialized fun e =>
      { s.setEntry i { e with state := .bodyWritten } with
        device := fun b => if e.startBlock ≤ b ∧ b < e.commitBlock then none else s.device b }
  | .commitWritten i, s =>
    s.onEntry i .bodyWritten fun e =>
      { s.setEntry i { e with state := .commitWritten } with
        device := update s.device e.commitBlock (some i) }
  | .success i, s => s.onEntry i .commitWritten fun e => s.setEntry i { e with state := .succeeded }
  | .prepareForCheckpointing w, s =>
    if s.phase w = .idle ∧ s.written = false then some (s.prepare w) else none
  | .imagesWritten, s =>
    if (∀ w, s.phase w ≠ .idle) ∧ s.written = false then some s.writeImages else none
  | .releaseFirstNSlots w, s =>
    match s.phase w with
    | .prepared k => if s.written then some (s.releaseSlots w k) else none
    | _ => none
  | .setLastCheckpoint w now, s =>
    if s.phase w = .released ∧ s.clock < now then some (s.setStamp w now) else none
  | .trySetWriteInProgress, s => (s.hist.step .trySetWriteInProgress).map s.setHist
  | .jsuperDurable, s => (s.hist.step .jsuperDurable).map s.setHist
  | .onWriteComplete, s => (s.hist.step .onWriteComplete).map s.setHist

end Sys

end Ufs.Impl
