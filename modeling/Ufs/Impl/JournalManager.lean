import Ufs.Impl.JournalEntry

/-!
# The journal manager (`FsProc_Journal.cc`)

The functions run in small steps, each of which uses the shared `JSuper` at most once: `now` is the
function being run, with what is left of it, and `waiting` are the callers that go on when it
returns. `trace` records what happened, the newest event last. A call that the device does not
accept, and a superblock write that fails, throw, and so are no steps. The checkpoint that
`submitJournalEntry` may propose changes nothing here.
-/

namespace Ufs.Impl

def kMaxInFlight : ℕ := 100

/-- `bodySize` is its `calcBodySize`, `cb` whether it has a callback, and `pinnedMem` the buffer it holds. -/
structure ManagedEntry where
  bodySize : ℕ
  cb : Bool
  state : JournalEntryState
  startBlock : ℕ
  nblocks : ℕ
  pinnedMem : Option ℕ
deriving Repr, DecidableEq

/-- Entries are known by their place in the order of submission. A `Done` is a completion without
error, and `failed` one with an error. -/
inductive JournalEvent where
  | submitted (je : ℕ)
  | acquired (je : ℕ)
  | bodySubmitted (je startBlock nblocks : ℕ)
  | bodyDone (je : ℕ)
  | flushSubmitted (je : ℕ)
  | flushDone (je : ℕ)
  | commitSubmitted (je commitBlock : ℕ)
  | commitDone (je : ℕ)
  | failed (je : ℕ)
  | called (je : ℕ) (success : Bool)
deriving Repr, DecidableEq

/-- `slotAcquired` is the rest of `tryNextTransaction`, and `release` and `setLast` that of `onCheckpointSuccess`. -/
inductive Running where
  | tryNextTransaction
  | slotAcquired (je startIdx nblocks : ℕ) (writeJsuper : Bool)
  | processJournalEntry (je : ℕ)
  | writeJSuper
  | release (nUsed ts : ℕ)
  | setLast (ts : ℕ)
deriving Repr, DecidableEq

/-- `jsuperLoop i` is the loop of `jsuper_write_complete` after `i` rounds. -/
inductive Waiting where
  | callback
  | jsuperLoop (i : ℕ)
deriving Repr, DecidableEq

/-- `JournalManager`: its entries, queues and buffers, and where its thread is. -/
structure JournalManager where
  flushSupported : Bool
  entries : List ManagedEntry
  jeQueue : List ℕ
  pinnedMemQueue : List ℕ
  inFlight : List ℕ
  jsuperWrite : Option ℕ
  nUsed : Option ℕ
  now : Option Running
  waiting : List Waiting
  trace : List JournalEvent
deriving Repr, DecidableEq

/-- What happens to a manager next. -/
inductive JournalAct where
  | submitJournalEntry (bodySize : ℕ) (cb : Bool)
  | advance
  | callbackReturns
  | writeComplete (je : ℕ) (error : Bool)
  | jsuperWriteComplete
  | prepareForCheckpointing
  | onCheckpointSuccess (ts : ℕ)
  | onCheckpointFailure
deriving Repr, DecidableEq

namespace JournalManager

/-- Of the primary manager, from the superblock that it has read. The other managers use its `jsuper`. -/
def initJSuper (dj : JSuperOnDisk) : Except String JSuper :=
  if dj.jmagic ≠ jsuperMagic then throw "jsuper magic mismatch"
  else if dj.nUsed ≠ 0 then throw "journal has entries, please run fsOfflineCheckpointer"
  else pure (JSuper.ofDisk dj)

/-- A manager with all its buffers free. -/
def new (flushSupported : Bool) : JournalManager :=
  ⟨flushSupported, [], [], List.range kMaxInFlight, [], none, none, none, [], []⟩

def emit (m : JournalManager) (e : JournalEvent) : JournalManager := { m with trace := m.trace ++ [e] }

/-- The thread goes on with `f`. -/
def run (m : JournalManager) (f : Option Running) : JournalManager := { m with now := f }

def modify (m : JournalManager) (je : ℕ) (f : ManagedEntry → ManagedEntry) : JournalManager :=
  { m with entries := m.entries.modify je f }

def setState (m : JournalManager) (je : ℕ) (st : JournalEntryState) : JournalManager :=
  m.modify je fun e => { e with state := st }

def acquirePinnedMem (m : JournalManager) (je : ℕ) : JournalManager :=
  { m.modify je fun e => { e with pinnedMem := m.pinnedMemQueue.head? } with
    pinnedMemQueue := m.pinnedMemQueue.tail }

def releasePinnedMem (m : JournalManager) (je : ℕ) : JournalManager :=
  match m.entries[je]?.bind ManagedEntry.pinnedMem with
  | none => m
  | some b => { m.modify je fun e => { e with pinnedMem := none } with pinnedMemQueue := m.pinnedMemQueue ++ [b] }

def submitIo (m : JournalManager) (je : ℕ) (e : JournalEvent) : JournalManager :=
  { (m.emit e).run none with inFlight := m.inFlight ++ [je] }

/-- The buffer is given back and the callback called. -/
def finish (m : JournalManager) (je : ℕ) (e : ManagedEntry) (success : Bool) : JournalManager :=
  let m := m.releasePinnedMem je
  if e.cb then { (m.emit (.called je success)).run none with waiting := .callback :: m.waiting }
  else m.run (some .tryNextTransaction)

/-- The commit block is the last one of the entry's slot. -/
def submitCommit (m : JournalManager) (je : ℕ) (e : ManagedEntry) : JournalManager :=
  m.submitIo je (.commitSubmitted je (u64Sub (e.startBlock + e.nblocks) 1))

/-- `processJournalEntry`: the next write of the entry, or its end. -/
def processJournalEntry (m : JournalManager) (je : ℕ) : JournalManager :=
  match m.entries[je]? with
  | none => m.run none
  | some e =>
    match e.state with
    | .failure => m.finish je e false
    | .success => m.finish je e true
    | .writeBody => m.submitIo je (.bodySubmitted je e.startBlock (u64Sub e.nblocks 1))
    | .flush =>
      if m.flushSupported then m.submitIo je (.flushSubmitted je)
      -- falls through to the commit
      else (m.setState je .writeCommit).submitCommit je e
    | .writeCommit => m.submitCommit je e
    | _ => m.run none

def jblocksRequired (bodySize : ℕ) : ℕ := (bodySize + bsize - 1) / bsize + 1

def failFront (m : JournalManager) (je : ℕ) : JournalManager :=
  { (m.setState je .failure).run (some (.processJournalEntry je)) with jeQueue := m.jeQueue.tail }

/-- The first entry of the queue gets a slot, if there is a buffer and a slot for it. -/
def tryNextTransaction (js : JSuper) (m : JournalManager) : JSuper × JournalManager :=
  match m.jeQueue.head? with
  | none => (js, m.run none)
  | some je =>
    if m.pinnedMemQueue = [] then (js, m.run none)
    else
      let m := m.modify je fun e => { e with startBlock := 0, nblocks := 0 }
      let n := jblocksRequired ((m.entries[je]?.map ManagedEntry.bodySize).getD 0)
      if maxBlocks < n then (js, m.failFront je)
      else
        let (slot, js) := js.acquireNextNSlots n
        if slot.noSpace then (js, m.failFront je)
        else if slot.retryAfterJsuperWritten then (js, m.run none)
        else
          (js, (m.emit (.acquired je)).run
            (some (.slotAcquired je (slot.startIdx.getD 0) n (slot.writeJsuper.getD false))))

def writeJSuper (js : JSuper) (m : JournalManager) : JSuper × JournalManager :=
  match js.trySetWriteInProgress with
  | (none, js) => (js, m)
  | (some (_, old), js) => (js, { m with jsuperWrite := some old })

def startEntry (js : JSuper) (m : JournalManager) (je startIdx n : ℕ) : JournalManager :=
  let m := m.modify je fun e =>
    { e with startBlock := js.idxToBlockNo startIdx, nblocks := n, state := .writeBody }
  { (m.acquirePinnedMem je).run (some (.processJournalEntry je)) with jeQueue := m.jeQueue.tail }

def advanceRunning (js : JSuper) (m : JournalManager) : Running → JSuper × JournalManager
  | .tryNextTransaction => m.tryNextTransaction js
  | .slotAcquired je startIdx n true =>
    let (js, m) := m.writeJSuper js
    (js, m.run (some (.slotAcquired je startIdx n false)))
  | .slotAcquired je startIdx n false => (js, m.startEntry js je startIdx n)
  | .processJournalEntry je => (js, m.processJournalEntry je)
  | .writeJSuper =>
    let (js, m) := m.writeJSuper js
    (js, m.run none)
  | .release nUsed ts => (js.releaseFirstNSlots nUsed, m.run (some (.setLast ts)))
  | .setLast ts => (js.setLastCheckpoint ts, m.run (some .writeJSuper))

/-- The loop of `onJSuperWriteComplete`, in its `i`-th turn. -/
def jsuperLoop (js : JSuper) (m : JournalManager) (i : ℕ) (ws : List Waiting) : JournalManager :=
  if m.jeQueue = [] ∨ m.pinnedMemQueue = [] then
    { m.run (if i = 0 ∧ js.shouldWriteJSuper then some .writeJSuper else none) with waiting := ws }
  else { m.run (some .tryNextTransaction) with waiting := .jsuperLoop (i + 1) :: ws }

/-- The thread is in its event loop. -/
def idle (m : JournalManager) : Bool := m.now.isNone && m.waiting.isEmpty

def callable (m : JournalManager) : Bool :=
  m.now.isNone && (m.waiting.isEmpty || m.waiting.head? == some .callback)

def writeComplete (m : JournalManager) (je : ℕ) (error : Bool) : JournalManager :=
  let m := { m.run (some (.processJournalEntry je)) with inFlight := m.inFlight.erase je }
  if error then (m.setState je .failure).emit (.failed je)
  else match m.entries[je]?.map ManagedEntry.state with
    | some .writeBody => (m.setState je .flush).emit (.bodyDone je)
    | some .flush => (m.setState je .writeCommit).emit (.flushDone je)
    | some .writeCommit => (m.setState je .success).emit (.commitDone je)
    | _ => m

/-- One step of a manager on the shared `JSuper`. -/
def step (a : JournalAct) (js : JSuper) (m : JournalManager) : Option (JSuper × JournalManager) :=
  match a with
  | .submitJournalEntry bodySize cb =>
    if m.callable then
      some (js, { (m.emit (.submitted m.entries.length)).run (some .tryNextTransaction) with
        entries := m.entries ++ [⟨bodySize, cb, .prepare, 0, 0, none⟩]
        jeQueue := m.jeQueue ++ [m.entries.length] })
    else none
  | .advance =>
    match m.now, m.waiting with
    | some f, _ => some (m.advanceRunning js f)
    | none, .jsuperLoop i :: ws => some (js, m.jsuperLoop js i ws)
    | none, _ => none
  | .callbackReturns =>
    match m.now, m.waiting with
    | none, .callback :: ws => some (js, { m.run (some .tryNextTransaction) with waiting := ws })
    | _, _ => none
  | .writeComplete je error =>
    if m.idle ∧ je ∈ m.inFlight then some (js, m.writeComplete je error) else none
  | .jsuperWriteComplete =>
    match m.idle, m.jsuperWrite with
    | true, some old => some (js.onWriteComplete old, { m with jsuperWrite := none, waiting := [.jsuperLoop 0] })
    | _, _ => none
  | .prepareForCheckpointing =>
    if m.idle ∧ m.nUsed = none then some (js, { m with nUsed := some js.size }) else none
  | .onCheckpointSuccess ts =>
    match m.idle, m.nUsed with
    | true, some k => some (js, { m.run (some (.release k ts)) with nUsed := none })
    | _, _ => none
  | .onCheckpointFailure =>
    if m.idle ∧ m.nUsed.isSome then some (js, { m with nUsed := none }) else none

end JournalManager

/-- The managers of the workers on one `JSuper`. -/
structure Journals (N : ℕ) where
  js : JSuper
  mgrs : Fin N → JournalManager

/-- A step of one manager. -/
def Journals.step {N : ℕ} (a : Fin N × JournalAct) (s : Journals N) : Option (Journals N) :=
  (JournalManager.step a.2 s.js (s.mgrs a.1)).map fun p => ⟨p.1, Function.update s.mgrs a.1 p.2⟩

/-- All managers as they are after start-up. -/
def Journals.start {N : ℕ} (js : JSuper) (flushSupported : Bool) : Journals N :=
  ⟨js, fun _ => .new flushSupported⟩

end Ufs.Impl
