import Ufs.Impl.JSuper
import Ufs.Impl.Reassignment

/-!
# Checkpoints while inodes move (`FsProc_Journal.cc`, `FsProc_FileMng.cc`)

In a checkpoint every worker hands its input over and starts a new one; when the copies are written
it releases as many blocks as the journal had, and otherwise it puts the names back. Of the inputs
the names are kept, and of the journal the blocks ever acquired and ever released.
-/

namespace Ufs.Impl

/-- An entry is in the journal, or has succeeded or failed. -/
inductive JournalEntryProgress where
  | inFlight
  | success
  | failure
deriving Repr, DecidableEq

/-- Up to which block its slot goes, which of its inodes were copied for the running checkpoint
after it was committed, and which are covered by a successful one. -/
structure JournaledEntry where
  wid : ℕ
  inodes : Finset ℕ
  slotEnd : ℕ
  state : JournalEntryProgress
  copied : Finset ℕ
  covered : Finset ℕ

namespace JournaledEntry

def copyInodes (l : Finset ℕ) (e : JournaledEntry) : JournaledEntry :=
  if e.state = .success then { e with copied := e.copied ∪ (e.inodes ∩ l) } else e

/-- The copies of the entry's inodes are on the device, if the writes succeeded. -/
def copiesWritten (success : Bool) (e : JournaledEntry) : JournaledEntry :=
  { e with copied := ∅, covered := if success then e.covered ∪ e.copied else e.covered }

end JournaledEntry

/-- With the inputs handed to the running checkpoint and their `n_used`, and whether its copies were written. -/
structure Migration where
  owners : Owners
  nEnqueued : ℕ
  nDequeued : ℕ
  entries : List JournaledEntry
  handed : ℕ → Option (Finset ℕ × ℕ)
  outcome : Option Bool

namespace Migration

/-- The inodes that the worker's next checkpoint will write. -/
def live (s : Migration) (w : ℕ) : Finset ℕ := (s.owners.worker w).inodesToCheckpoint

def setLive (s : Migration) (w : ℕ) (l : Finset ℕ) : Migration :=
  { s with owners := s.owners.setWorker w { s.owners.worker w with inodesToCheckpoint := l } }

/-- An entry of worker `w` gets its blocks. -/
def submitJournalEntry (s : Migration) (w : ℕ) (inodes : Finset ℕ) (nblocks : ℕ) : Migration :=
  { s with
    nEnqueued := s.nEnqueued + nblocks
    entries := s.entries ++ [⟨w, inodes, s.nEnqueued + nblocks, .inFlight, ∅, ∅⟩] }

/-- On the worker that submitted it: `on_successful_journal_write` uses the live input of that worker. -/
def processJournalEntry (s : Migration) (k : ℕ) (success : Bool) : Option Migration :=
  s.entries[k]?.bind fun e =>
    if e.state = .inFlight ∧ s.owners.Idle e.wid then
      if success then
        some (setLive { s with entries := s.entries.set k { e with state := .success } } e.wid
          (s.live e.wid ∪ e.inodes))
      else some { s with entries := s.entries.set k { e with state := .failure } }
    else none

/-- `none` where `populateCheckpointInput` does not find an inode and uses a null pointer. -/
def prepareForCheckpointing (s : Migration) (w : ℕ) : Option Migration :=
  if s.live w ⊆ (s.owners.worker w).inodeMap then
    some (setLive
      { s with
        handed := Function.update s.handed w (some (s.live w, u64Sub s.nEnqueued s.nDequeued))
        entries := s.entries.map (JournaledEntry.copyInodes (s.live w)) } w ∅)
  else none

/-- The writes of the checkpoint have ended. -/
def copiesWritten (s : Migration) (success : Bool) : Migration :=
  { s with
    outcome := some success
    entries := s.entries.map (JournaledEntry.copiesWritten success) }

def takeBack (s : Migration) (numWorkers w : ℕ) : Migration :=
  let handed := Function.update s.handed w none
  { s with
    handed := handed
    outcome := if ∀ v < numWorkers, handed v = none then none else s.outcome }

/-- `CHECKPOINTING_COMPLETE` on a worker: `onCheckpointSuccess` or `onCheckpointFailure`. -/
def checkpointingComplete (s : Migration) (numWorkers w : ℕ) : Option Migration :=
  (s.handed w).bind fun src => s.outcome.map fun success =>
    if success then takeBack { s with nDequeued := s.nDequeued + src.2 } numWorkers w
    else (s.setLive w (s.live w ∪ src.1)).takeBack numWorkers w

/-! ## Steps -/

/-- A step of a reassignment, of a journal entry, or of a checkpoint. -/
inductive Label where
  | reassign (l : Owners.Label)
  | submitJournalEntry (w : ℕ) (inodes : Finset ℕ) (nblocks : ℕ)
  | processJournalEntry (k : ℕ) (success : Bool)
  | prepareForCheckpointing (w : ℕ)
  | copiesWritten (success : Bool)
  | checkpointingComplete (w : ℕ)

def valid (numWorkers : ℕ) : Owners.Label → Prop
  | .start _ _ newOwnerWid _ _ => newOwnerWid < numWorkers
  | .process _ _ => True

instance (numWorkers : ℕ) (l : Owners.Label) : Decidable (valid numWorkers l) :=
  match l with
  | .start _ _ newOwnerWid _ _ => Nat.decLt newOwnerWid numWorkers
  | .process _ _ => .isTrue trivial

/-- A worker submits entries of its inodes, and hands one input to a checkpoint. -/
def step (numWorkers : ℕ) : Label → Migration → Option Migration
  | .reassign l, s =>
    if valid numWorkers l then
      (Owners.step (fun _ _ o => o) l s.owners).map fun o => { s with owners := o }
    else none
  | .submitJournalEntry w inodes nblocks, s =>
    if s.owners.Idle w ∧ inodes ⊆ (s.owners.worker w).inodeMap ∧ 0 < nblocks then
      some (s.submitJournalEntry w inodes nblocks)
    else none
  | .processJournalEntry k success, s => s.processJournalEntry k success
  | .prepareForCheckpointing w, s =>
    if s.owners.Idle w ∧ w < numWorkers ∧ s.outcome = none ∧ s.handed w = none then s.prepareForCheckpointing w
    else none
  | .copiesWritten success, s =>
    if s.outcome = none ∧ ∀ w < numWorkers, s.handed w ≠ none then some (s.copiesWritten success) else none
  | .checkpointingComplete w, s => if s.owners.Idle w then s.checkpointingComplete numWorkers w else none

/-- Every inode is with the primary, and the journal is empty. -/
def start (inodes : Finset ℕ) : Migration :=
  { owners := Owners.start inodes (fun _ => ∅) fun _ => none
    nEnqueued := 0
    nDequeued := 0
    entries := []
    handed := fun _ => none
    outcome := none }

end Migration

end Ufs.Impl
