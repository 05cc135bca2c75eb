import Mathlib
import Ufs.Framework.Run

/-!
# Who takes a checkpoint, and when (`FsProc.cc`, `FsProc_Worker.cc`)

A worker in `checkpointAllJournals` waits for each of the others in a loop that handles no messages;
its frame holds the arrays that they write to. The threads interleave: `resume` is the next step of
one that is not in its event loop, and `ok` whether the device memory, or the writes, succeed.
Inputs are numbered in the order of allocation; `handed` records those handed to a checkpoint.
-/

namespace Ufs.Impl

/-- The messages about checkpoints. -/
inductive FsProcMessage (N : ℕ) where
  | proposeCheckpoint (proposeWidIdx : Fin N)
  | assignCheckpointToWorker
  /-- The context is in the frame of the worker that takes the checkpoint. -/
  | prepareForCheckpointing (ctx : Fin N)
  | checkpointingComplete (ci : Option ℕ) (success : Bool)
deriving Repr, DecidableEq

/-- Where a worker is in `checkpointAllJournals`. -/
inductive CheckpointLoc where
  | sendPrepare (i : ℕ)
  | prepareSelf
  | wait (i : ℕ)
  | write
  | notify (i : ℕ) (success : Bool)
deriving Repr, DecidableEq

/-- The locals of `checkpointAllJournals`. -/
structure CheckpointFrame (N : ℕ) where
  /-- Called for an `ASSIGN_CHECKPOINT_TO_WORKER` message, not for a client. -/
  assigned : Bool
  loc : CheckpointLoc
  perWorkerCi : Fin N → Option ℕ
  perWorkerCompletions : Fin N → Bool

/-- What the thread of a worker does. -/
inductive ThreadState (N : ℕ) where
  | eventLoop
  /-- `proposeJournalCheckpointing` has found the flag not set. -/
  | propose
  | checkpointAllJournals (f : CheckpointFrame N)

/-- A worker: its ring, its thread, and the number of its current checkpoint input. -/
structure FsProcWorker (N : ℕ) where
  ring : List (FsProcMessage N)
  thread : ThreadState N
  checkpointInput : ℕ

/-- The flag of the primary, the workers, and the inputs handed over so far. -/
structure FsProc (N : ℕ) where
  inGlobalCheckpointing : Bool
  workers : Fin N → FsProcWorker N
  handed : List (Fin N × ℕ)

/-- In `float`. The counts are below `2^24` and so exact; their quotient is rounded to the nearest
`float`, which is above that of `0.9` when the quotient is above `30198989 / 2^25`. -/
def usedRatioExceeds (numUsed capacity : ℕ) : Bool := decide (30198989 * capacity < numUsed * 2 ^ 25)

namespace FsProc

variable {N : ℕ}

/-- No checkpoint is proposed. -/
def start : FsProc N := ⟨false, fun _ => ⟨[], .eventLoop, 0⟩, []⟩

def setWorker (s : FsProc N) (w : Fin N) (v : FsProcWorker N) : FsProc N :=
  { s with workers := Function.update s.workers w v }

def setThread (s : FsProc N) (w : Fin N) (t : ThreadState N) : FsProc N :=
  s.setWorker w { s.workers w with thread := t }

def setRing (s : FsProc N) (w : Fin N) (ring : List (FsProcMessage N)) : FsProc N :=
  s.setWorker w { s.workers w with ring := ring }

def sendMessage (s : FsProc N) (w : Fin N) (m : FsProcMessage N) : FsProc N :=
  s.setRing w ((s.workers w).ring ++ [m])

/-- Worker `w` hands its input over and begins a new one, if it can. -/
def prepareForCheckpointing (s : FsProc N) (w : Fin N) (ok : Bool) : Option ℕ × FsProc N :=
  if ok then
    (some (s.workers w).checkpointInput,
      { s.setWorker w { s.workers w with checkpointInput := (s.workers w).checkpointInput + 1 } with
        handed := s.handed ++ [(w, (s.workers w).checkpointInput)] })
  else (none, s)

def performCheckpointing (s : FsProc N) (w : Fin N) (assigned : Bool) : FsProc N :=
  s.setThread w (.checkpointAllJournals ⟨assigned, .sendPrepare 0, fun _ => none, fun _ => false⟩)

def CheckpointFrame.complete (f : CheckpointFrame N) (w : Fin N) (ci : Option ℕ) : CheckpointFrame N :=
  { f with
    perWorkerCi := Function.update f.perWorkerCi w ci
    perWorkerCompletions := Function.update f.perWorkerCompletions w true }

/-- It dereferences a null input, and an answer to a frame that is gone has no meaning. -/
def processFsProcMessage (s : FsProc N) (w : Fin N) (ok : Bool) :
    FsProcMessage N → Option (FsProc N)
  | .proposeCheckpoint wididx =>
    if s.inGlobalCheckpointing then some s
    else some ({ s with inGlobalCheckpointing := true }.sendMessage wididx .assignCheckpointToWorker)
  | .assignCheckpointToWorker => some (s.performCheckpointing w true)
  | .prepareForCheckpointing ctx =>
    let (ci, s) := s.prepareForCheckpointing w ok
    match (s.workers ctx).thread with
    | .checkpointAllJournals f => some (s.setThread ctx (.checkpointAllJournals (CheckpointFrame.complete f w ci)))
    | _ => none
  | .checkpointingComplete (some _) _ => some s
  | .checkpointingComplete none _ => none

/-- Worker `w` goes on in `checkpointAllJournals`. -/
def advance (s : FsProc N) (w : Fin N) (ok : Bool) (f : CheckpointFrame N) : Option (FsProc N) :=
  match f.loc with
  | .sendPrepare i =>
    if h : i < N then
      if ⟨i, h⟩ = w then some (s.setThread w (.checkpointAllJournals { f with loc := .sendPrepare (i + 1) }))
      else
        some ((s.sendMessage ⟨i, h⟩ (.prepareForCheckpointing w)).setThread w
          (.checkpointAllJournals { f with loc := .sendPrepare (i + 1) }))
    else some (s.setThread w (.checkpointAllJournals { f with loc := .prepareSelf }))
  | .prepareSelf =>
    let (ci, s) := s.prepareForCheckpointing w ok
    some (s.setThread w (.checkpointAllJournals { CheckpointFrame.complete f w ci with loc := .wait 0 }))
  | .wait i =>
    if h : i < N then
      if f.perWorkerCompletions ⟨i, h⟩ then
        some (s.setThread w (.checkpointAllJournals { f with loc := .wait (i + 1) }))
      else none
    else if ∀ v, (f.perWorkerCi v).isSome then
      some (s.setThread w (.checkpointAllJournals { f with loc := .write }))
    else some (s.setThread w (.checkpointAllJournals { f with loc := .notify 0 false }))
  | .write => some (s.setThread w (.checkpointAllJournals { f with loc := .notify 0 ok }))
  | .notify i success =>
    if h : i < N then
      if ⟨i, h⟩ = w then some (s.setThread w (.checkpointAllJournals { f with loc := .notify (i + 1) success }))
      else
        some ((s.sendMessage ⟨i, h⟩ (.checkpointingComplete (f.perWorkerCi ⟨i, h⟩) success)).setThread w
          (.checkpointAllJournals { f with loc := .notify (i + 1) success }))
    else if (f.perWorkerCi w).isSome then some (s.setThread w .eventLoop)
    else none

/-- What a worker does next. -/
inductive Move (N : ℕ) where
  | submitJournalEntry (w : Fin N) (numUsed capacity : ℕ)
  | appChkpt (w : Fin N)
  | processMessage (w : Fin N) (ok : Bool)
  | resume (w : Fin N) (ok : Bool)
deriving Repr, DecidableEq

/-- One move; there is none of a thread that is elsewhere. -/
def step [NeZero N] (m : Move N) (s : FsProc N) : Option (FsProc N) :=
  match m with
  | .submitJournalEntry w numUsed capacity =>
    match (s.workers w).thread with
    | .eventLoop =>
      if usedRatioExceeds numUsed capacity = true ∧ s.inGlobalCheckpointing = false then
        some (s.setThread w .propose)
      else some s
    | _ => none
  | .appChkpt w =>
    match (s.workers w).thread with
    | .eventLoop => some (s.performCheckpointing w false)
    | _ => none
  | .processMessage w ok =>
    match (s.workers w).thread, (s.workers w).ring with
    | .eventLoop, m :: ring => (s.setRing w ring).processFsProcMessage w ok m
    | _, _ => none
  | .resume w ok =>
    match (s.workers w).thread with
    | .eventLoop => none
    | .propose => some ((s.sendMessage 0 (.proposeCheckpoint w)).setThread w .eventLoop)
    | .checkpointAllJournals f => s.advance w ok f

end FsProc

end Ufs.Impl
