import Ufs.Impl.Flush

/-!
# Fsync, syncall and syncunlinked (`FsProc_FileMng.cc`, `FsProc_Fs.h`, `FsProc_Journal.cc`)

The calls that have not returned are a stack (`calls`), and one step takes the topmost one to its
next call or its end. The random choice of a dirty inode, the division into batches, and what the
flush and the journal answer come with the step (`CallInput`). The body of an entry is serialized at
some point after its submission and it succeeds or fails at a later one; one that gets no space
fails at once, inside `submitJournalEntry`. The asserts are compiled out: a call that dereferences
what is not there has no result (`none`). Changes are numbered. `history`, `marked`, `committed`,
`freed`, `accepted`, `completed` and `began` are not read by the code. Of the blocks of a flush
nothing is kept but that there are some in flight.
-/

namespace Ufs.Impl

open Function (update)

/-- For the one of `OwnerDeallocResources`: the bitmap blocks that have the bits of its blocks, with
the worker of each. -/
structure Change where
  id : ℕ
  dealloc : Option (List (ℕ × ℕ))
deriving Repr, DecidableEq

/-- One that was exported and not imported yet has the flags `in_exporter_dirty_set` and `in_exporter_unlinked_set`. -/
inductive Location where
  | disk
  | worker (w : ℕ)
  | exported (inExporterDirtySet inExporterUnlinkedSet : Bool)
deriving Repr, DecidableEq

/-- A syncunlinked may have `after_syncunlinked` as its callback, for a syncall. -/
inductive SyncType where
  | fsync
  | syncall
  | syncunlinked (afterSyncunlinked : Option ℕ)
deriving Repr, DecidableEq

/-- The states of the requests. -/
inductive SyncState where
  | fsyncDataBio
  | fsyncDataSyncWait
  | fsyncDataSyncDone
  | fsyncJournal
  | syncallGuard
  | syncallInit
  | syncallErr
  | syncunlinkedGuard
  | syncBatchesInprogress
  | syncBatchesComplete
deriving Repr, DecidableEq

/-- What a request could see when it began: the changes so far, and the inodes that its worker had.
-/
structure Began where
  nextChange : ℕ
  had : ℕ → Bool

/-- A request, with the numbers it shares with its batches. -/
structure SyncReq where
  type : SyncType
  state : SyncState
  fileIno : ℕ
  hasError : Bool
  syncBatchesCreated : ℕ
  syncBatchesCompleted : ℕ
  syncBatchesFailed : ℕ
  began : Option Began

/-- With the request its callback gets; `batched` says that this is `onBatchedJournalWriteComplete`. -/
structure SyncEntry where
  req : ℕ
  batched : Bool
  inodes : List ℕ
  body : Option (ℕ → List Change)

/-- `onFsReqCompletion` stands for what `processSyncunlinked` does after its completion callback. -/
inductive Frame where
  | processReq (r : ℕ)
  | processSyncall (r : ℕ)
  | processSyncunlinked (r : ℕ)
  | onFsReqCompletion
deriving Repr, DecidableEq

/-- An answer to a client. -/
structure Completion where
  req : ℕ
  type : SyncType
  hasError : Bool
  began : Option Began

/-- The part of a worker that syncs read and change. -/
structure SyncWorker where
  dirtyInodeSet : Finset ℕ
  unlinkedInodeSet : Finset ℕ
  req : ℕ → Option SyncReq
  nextReq : ℕ
  syncallInProgress : Bool
  syncallRequests : List ℕ
  syncunlinkedInProgress : Bool
  syncunlinkedRequests : List ℕ
  localReqCtxs : List ℕ
  readyReqs : List ℕ
  flushWaits : List ℕ
  blockReads : List (ℕ × Finset ℕ)
  stableDataBitmaps : Finset ℕ
  entries : List SyncEntry
  inProgressRequests : ℕ → ℕ
  inoHasActiveAppFsyncSet : Finset ℕ
  inoFsyncLatestSeqNo : ℕ → Option ℕ
  latestFsyncSeqNo : ℕ
  calls : List Frame
  accepted : List ℕ
  completed : List Completion

/-- What the block buffer says to a flush of the data. -/
inductive FlushAnswer where
  | notNeeded
  | submitted
  | refused
deriving Repr, DecidableEq

/-- The dirty inode picked, the batches with those that fail at once, whether a single entry fails
at once, the answer to a flush, and the failed batches that a request from the pool has from its
last use. -/
structure CallInput where
  pick : ℕ
  batches : List (List ℕ × Bool)
  fails : Bool
  flush : FlushAnswer
  stale : ℕ

/-- The inodes as a worker sees them. -/
structure InodeView where
  wid : ℕ
  has : ℕ → Bool
  logEntry : ℕ → List Change
  nextChange : ℕ

namespace SyncWorker

def setReq (k : SyncWorker) (r : ℕ) (q : SyncReq) : SyncWorker := { k with req := update k.req r (some q) }

def submitReadyReq (k : SyncWorker) (r : ℕ) : SyncWorker := { k with readyReqs := k.readyReqs ++ [r] }

/-- A call is made. -/
def call (k : SyncWorker) (frame : Frame) : SyncWorker := { k with calls := frame :: k.calls }

def submitFsReqCompletion (k : SyncWorker) (r : ℕ) (q : SyncReq) : SyncWorker :=
  { k with
    req := update k.req r none
    completed := k.completed ++ [⟨r, q.type, q.hasError, q.began⟩]
    inProgressRequests :=
      if q.type = .fsync then
        update k.inProgressRequests q.fileIno (k.inProgressRequests q.fileIno - 1)
      else k.inProgressRequests }

variable (v : InodeView)

/-! ## Completion of a sync -/

def resetFileIndoeDirty (k : SyncWorker) (ino : ℕ) : Option SyncWorker :=
  if v.has ino then
    some { k with
      dirtyInodeSet := k.dirtyInodeSet.erase ino
      unlinkedInodeSet := k.unlinkedInodeSet.erase ino }
  else none

def recordInoAppFsyncDone (k : SyncWorker) (ino : ℕ) : Option SyncWorker :=
  resetFileIndoeDirty v { k with inoHasActiveAppFsyncSet := k.inoHasActiveAppFsyncSet.erase ino } ino

def recordBatchInoAppFsyncDone : List ℕ → SyncWorker → Option SyncWorker
  | [], k => some k
  | ino :: inodes, k => (recordInoAppFsyncDone v k ino).bind (recordBatchInoAppFsyncDone inodes)

def onFdataSyncComplete (k : SyncWorker) (r : ℕ) (q : SyncReq) (success : Bool) : Option SyncWorker :=
  (recordInoAppFsyncDone v k q.fileIno).map fun k =>
    if q.type = .syncall then
      if success then (k.setReq r { q with state := .syncallInit }).submitReadyReq r
      else (k.setReq r { q with state := .syncallErr, hasError := true }).submitReadyReq r
    else k.submitFsReqCompletion r { q with hasError := q.hasError || !success }

def onBatchedJournalWriteComplete (k : SyncWorker) (r : ℕ) (inodes : List ℕ) (success : Bool) : Option SyncWorker :=
  (recordBatchInoAppFsyncDone v inodes k).bind fun k =>
    (k.req r).map fun q =>
      let q := { q with
        syncBatchesCompleted := q.syncBatchesCompleted + 1
        syncBatchesFailed := if success then q.syncBatchesFailed else q.syncBatchesFailed + 1 }
      if q.syncBatchesCompleted = q.syncBatchesCreated then
        (k.setReq r { q with state := .syncBatchesComplete }).submitReadyReq r
      else k.setReq r q

/-! ## `processFdataSync` -/

def checkInoFsyncToWait (k : SyncWorker) (ino : ℕ) : Bool :=
  match k.inoFsyncLatestSeqNo ino with
  | none => false
  | some curSeqNo => Flush.kNumFgFlushLimit < k.inoHasActiveAppFsyncSet.card && curSeqNo == k.latestFsyncSeqNo

/-- `get_bitmap_for_dealloc_blocks_for_wid`, without the bitmap blocks that are in the stable map. -/
def bitmapsToRead (k : SyncWorker) (ino : ℕ) : Finset ℕ :=
  ((((v.logEntry ino).filterMap Change.dealloc).flatten.filter (·.1 = v.wid)).map Prod.snd).toFinset \
    k.stableDataBitmaps

/-- `FSYNC_DATA_SYNC_DONE` and what follows in `processFdataSync`. -/
def fsyncDataSyncDone (k : SyncWorker) (r : ℕ) (q : SyncReq) (input : CallInput) : Option SyncWorker :=
  if v.logEntry q.fileIno = [] then k.onFdataSyncComplete v r q true
  else
    let toRead := k.bitmapsToRead v q.fileIno
    if toRead.Nonempty then
      some { k.setReq r { q with state := .fsyncDataSyncDone } with blockReads := k.blockReads ++ [(r, toRead)] }
    else if input.fails then k.onFdataSyncComplete v r q false
    else
      some { k.setReq r { q with state := .fsyncJournal } with
        entries := k.entries ++ [⟨r, false, [q.fileIno], none⟩] }

def recordInoFsyncReqSubmitToDev (k : SyncWorker) (ino : ℕ) : SyncWorker :=
  { k with
    inoFsyncLatestSeqNo := update k.inoFsyncLatestSeqNo ino (some (k.latestFsyncSeqNo + 1))
    latestFsyncSeqNo := k.latestFsyncSeqNo + 1 }

/-- A flush that is refused is tried again from the ready queue. -/
def processFdataSync (k : SyncWorker) (r : ℕ) (q : SyncReq) (input : CallInput) : Option SyncWorker :=
  if q.state = .fsyncDataBio then
    let k := { k with inoHasActiveAppFsyncSet := insert q.fileIno k.inoHasActiveAppFsyncSet }
    if k.checkInoFsyncToWait q.fileIno then some (k.submitReadyReq r)
    else
      match input.flush with
      | .refused => some (k.submitReadyReq r)
      | .submitted =>
        some { (k.recordInoFsyncReqSubmitToDev q.fileIno).setReq r { q with state := .fsyncDataSyncWait } with
          flushWaits := k.flushWaits ++ [r] }
      | .notNeeded => k.fsyncDataSyncDone v r q input
  else if q.state = .fsyncDataSyncDone then k.fsyncDataSyncDone v r q input
  else some k

/-! ## `processSyncunlinked` -/

def submitBatch (r : ℕ) (k : SyncWorker) (batch : List ℕ × Bool) : Option SyncWorker :=
  let k := { k with inoHasActiveAppFsyncSet := k.inoHasActiveAppFsyncSet ∪ batch.1.toFinset }
  if batch.2 then k.onBatchedJournalWriteComplete v r batch.1 false
  else some { k with entries := k.entries ++ [⟨r, true, batch.1, none⟩] }

def submitBatches (r : ℕ) : List (List ℕ × Bool) → SyncWorker → Option SyncWorker
  | [], k => some k
  | batch :: batches, k => (submitBatch v r k batch).bind (submitBatches r batches)

/-- How the inodes may be divided: each is in one batch, and no batch is empty. -/
def DividesInto (inodes : Finset ℕ) (batches : List (List ℕ)) : Prop :=
  batches.flatten.Nodup ∧ batches.flatten.toFinset = inodes ∧ [] ∉ batches

instance (inodes : Finset ℕ) (batches : List (List ℕ)) : Decidable (DividesInto inodes batches) :=
  inferInstanceAs (Decidable (_ ∧ _ ∧ _))

/-- `submitSyncBatches` for the unlinked inodes. -/
def submitSyncBatches (k : SyncWorker) (r : ℕ) (q : SyncReq) (batches : List (List ℕ × Bool)) : Option SyncWorker :=
  if k.unlinkedInodeSet = ∅ then some (k.setReq r { q with state := .syncBatchesComplete })
  else if DividesInto k.unlinkedInodeSet (batches.map Prod.fst) ∧ ∀ ino ∈ k.unlinkedInodeSet, v.has ino then
    submitBatches v r batches (k.setReq r { q with
      state := .syncBatchesInprogress
      syncBatchesCreated := batches.length
      syncBatchesCompleted := 0
      syncBatchesFailed := 0 })
  else none

/-- `SYNC_BATCHES_COMPLETE` up to `onFsReqCompletion`, with the callback. -/
def syncBatchesComplete (k : SyncWorker) (r : ℕ) (q : SyncReq) : Option SyncWorker :=
  let q := { q with hasError := q.hasError || q.syncBatchesFailed ≠ 0 }
  let k := k.call .onFsReqCompletion
  match q.type with
  | .syncunlinked (some syncallReq) =>
    (k.req syncallReq).map fun p =>
      let k := if q.hasError then k.setReq syncallReq { p with state := .syncallErr } else k
      { k with
        req := update k.req r none
        localReqCtxs := k.localReqCtxs.erase syncallReq }.call (.processSyncall syncallReq)
  | _ => some (k.submitFsReqCompletion r q)

/-- `SYNCUNLINKED_INIT` and what follows in `processSyncunlinked`. -/
def syncunlinkedInit (k : SyncWorker) (r : ℕ) (q : SyncReq) (input : CallInput) : Option SyncWorker :=
  let q := { q with began := some ⟨v.nextChange, v.has⟩ }
  ({ k with syncunlinkedInProgress := true }.submitSyncBatches v r q input.batches).bind fun k =>
    (k.req r).bind fun q =>
      if q.state = SyncState.syncBatchesComplete then k.syncBatchesComplete r q else some k

def processSyncunlinked (k : SyncWorker) (r : ℕ) (q : SyncReq) (input : CallInput) : Option SyncWorker :=
  match q.state with
  | .syncunlinkedGuard =>
    if k.syncunlinkedInProgress then some { k with syncunlinkedRequests := k.syncunlinkedRequests ++ [r] }
    else k.syncunlinkedInit v r q input
  | .syncBatchesComplete => k.syncBatchesComplete r q
  | _ => some k

/-- What `processSyncunlinked` does after `onFsReqCompletion`. -/
def nextSyncunlinked (k : SyncWorker) : SyncWorker :=
  match k.syncunlinkedRequests with
  | [] => { k with syncunlinkedInProgress := false }
  | queued :: rest =>
    { k with syncunlinkedInProgress := false, syncunlinkedRequests := rest }.call (.processSyncunlinked queued)

/-! ## `processSyncall` -/

def processSyncUnlinkedBeforeSyncall (k : SyncWorker) (r : ℕ) (stale : ℕ) : SyncWorker :=
  { k.setReq k.nextReq ⟨.syncunlinked (some r), .syncunlinkedGuard, 0, false, stale, stale, stale, none⟩ with
    nextReq := k.nextReq + 1
    localReqCtxs := r :: k.localReqCtxs }.call (.processSyncunlinked k.nextReq)

/-- `SYNCALL_DONE`, `SYNCALL_ERR` and the end of `processSyncall`. -/
def syncallComplete (k : SyncWorker) (r : ℕ) (q : SyncReq) : SyncWorker :=
  let k := { k.submitFsReqCompletion r q with syncallInProgress := false }
  match k.syncallRequests with
  | [] => k
  | queued :: rest => { k with syncallRequests := rest }.call (.processSyncall queued)

/-- When the inode that was picked is not there, the request is left as it is. -/
def syncallInit (k : SyncWorker) (r : ℕ) (q : SyncReq) (input : CallInput) : Option SyncWorker :=
  let k := { k with syncallInProgress := true }
  if k.unlinkedInodeSet.Nonempty then
    some ((k.setReq r { q with state := .syncallInit }).processSyncUnlinkedBeforeSyncall r input.stale)
  else if k.dirtyInodeSet = ∅ then some (k.syncallComplete r q)
  else if input.pick ∈ k.dirtyInodeSet then
    if v.has input.pick then
      some ((k.setReq r { q with state := .fsyncDataBio, fileIno := input.pick }).submitReadyReq r)
    else some (k.setReq r { q with state := .syncallInit })
  else none

def processSyncall (k : SyncWorker) (r : ℕ) (q : SyncReq) (input : CallInput) : Option SyncWorker :=
  match q.state with
  | .syncallGuard =>
    if k.syncallInProgress then some { k with syncallRequests := k.syncallRequests ++ [r] }
    else k.syncallInit v r q input
  | .syncallInit => k.syncallInit v r q input
  | .syncallErr => some (k.syncallComplete r { q with hasError := true })
  | _ => some k

/-! ## Requests -/

def IsFsyncState (state : SyncState) : Prop :=
  state = .fsyncDataBio ∨ state = .fsyncDataSyncWait ∨ state = .fsyncDataSyncDone ∨ state = .fsyncJournal

instance (state : SyncState) : Decidable (IsFsyncState state) := inferInstanceAs (Decidable (_ ∨ _ ∨ _ ∨ _))

/-- One processing of the request. -/
def processReq (k : SyncWorker) (r : ℕ) (q : SyncReq) (input : CallInput) : Option SyncWorker :=
  match q.type with
  | .fsync => k.processFdataSync v r q input
  | .syncall => if IsFsyncState q.state then k.processFdataSync v r q input else k.processSyncall v r q input
  | .syncunlinked _ => k.processSyncunlinked v r q input

/-- The topmost call goes on. There is no result when its request was answered before and is gone: a
syncunlinked all of whose batches fail at once is put into the ready queue and answered, and the code
takes what is left of it from the queue. -/
def goOn (k : SyncWorker) (input : CallInput) : Option SyncWorker :=
  match k.calls with
  | [] => none
  | frame :: rest =>
    let k := { k with calls := rest }
    match frame with
    | .processReq r => (k.req r).bind fun q => k.processReq v r q input
    | .processSyncall r => (k.req r).bind fun q => k.processSyncall v r q input
    | .processSyncunlinked r => (k.req r).bind fun q => k.processSyncunlinked v r q input
    | .onFsReqCompletion => some k.nextSyncunlinked

/-- What a client asks for. -/
inductive ClientReq where
  | fsync (ino : ℕ)
  | syncall
  | syncunlinked
deriving Repr, DecidableEq

/-- A new `FsReq` for the request of a client, with the failed batches it has from its last use. -/
def newReq (stale : ℕ) : ClientReq → SyncReq
  | .fsync ino => ⟨.fsync, .fsyncDataBio, ino, false, stale, stale, stale, none⟩
  | .syncall => ⟨.syncall, .syncallGuard, 0, false, stale, stale, stale, none⟩
  | .syncunlinked => ⟨.syncunlinked none, .syncunlinkedGuard, 0, false, stale, stale, stale, none⟩

/-- An fsync of an inode that the worker does not have is redirected. -/
def accept (k : SyncWorker) (client : ClientReq) (stale : ℕ) : Option SyncWorker :=
  let k := { k.setReq k.nextReq (newReq stale client) with
    nextReq := k.nextReq + 1
    accepted := k.accepted ++ [k.nextReq] }.call (.processReq k.nextReq)
  match client with
  | .fsync ino =>
    if v.has ino then
      some { k with inProgressRequests := update k.inProgressRequests ino (k.inProgressRequests ino + 1) }
    else none
  | _ => some k

def ready (k : SyncWorker) : Option SyncWorker :=
  match k.readyReqs with
  | [] => none
  | r :: rest => some ({ k with readyReqs := rest }.call (.processReq r))

def flushDone (k : SyncWorker) (r : ℕ) : Option SyncWorker :=
  if r ∈ k.flushWaits then
    (k.req r).map fun q =>
      ({ k with flushWaits := k.flushWaits.erase r }.setReq r { q with state := .fsyncDataSyncDone }).submitReadyReq r
  else none

def readDone (k : SyncWorker) (read : ℕ × Finset ℕ) : Option SyncWorker :=
  if read ∈ k.blockReads then
    some ({ k with
      blockReads := k.blockReads.erase read
      stableDataBitmaps := k.stableDataBitmaps ∪ read.2 }.submitReadyReq read.1)
  else none

/-- The callback of a journal entry. -/
def callback (k : SyncWorker) (e : SyncEntry) (success : Bool) : Option SyncWorker :=
  if e.batched then k.onBatchedJournalWriteComplete v e.req e.inodes success
  else (k.req e.req).bind fun q => k.onFdataSyncComplete v e.req q success

/-- A worker after start-up. -/
def init : SyncWorker where
  dirtyInodeSet := ∅
  unlinkedInodeSet := ∅
  req _ := none
  nextReq := 0
  syncallInProgress := false
  syncallRequests := []
  syncunlinkedInProgress := false
  syncunlinkedRequests := []
  localReqCtxs := []
  readyReqs := []
  flushWaits := []
  blockReads := []
  stableDataBitmaps := ∅
  entries := []
  inProgressRequests _ := 0
  inoHasActiveAppFsyncSet := ∅
  inoFsyncLatestSeqNo _ := none
  latestFsyncSeqNo := 0
  calls := []
  accepted := []
  completed := []

end SyncWorker

/-! ## The workers together -/

/-- The inodes with their changes, and the workers. -/
structure Syncs where
  location : ℕ → Location
  logEntry : ℕ → List Change
  nextChange : ℕ
  worker : ℕ → SyncWorker
  history : ℕ → List Change
  marked : ℕ → ℕ
  committed : ℕ → List Change
  freed : ℕ → List Change

namespace Syncs

/-- What worker `w` sees. -/
def view (s : Syncs) (w : ℕ) : InodeView := ⟨w, fun ino => s.location ino = .worker w, s.logEntry, s.nextChange⟩

def setWorker (s : Syncs) (w : ℕ) (k : SyncWorker) : Syncs := { s with worker := update s.worker w k }

def addChange (s : Syncs) (ino : ℕ) (dealloc : Option (List (ℕ × ℕ))) : Syncs :=
  { s with
    logEntry := update s.logEntry ino (s.logEntry ino ++ [⟨s.nextChange, dealloc⟩])
    history := update s.history ino (s.history ino ++ [⟨s.nextChange, dealloc⟩])
    nextChange := s.nextChange + 1 }

/-- `writeFileInode` for an inode that is in memory: all changes so far are marked. -/
def writeFileInode (s : Syncs) (w ino : ℕ) : Syncs :=
  { s.setWorker w { s.worker w with dirtyInodeSet := insert ino (s.worker w).dirtyInodeSet } with
    marked := update s.marked ino s.nextChange }

/-- `OwnerDeallocResources` once the bitmaps are in memory. -/
def ownerDeallocResources (s : Syncs) (w ino : ℕ) (bitmaps : List (ℕ × ℕ)) : Syncs :=
  let s := (s.addChange ino (some bitmaps)).writeFileInode w ino
  s.setWorker w { s.worker w with unlinkedInodeSet := insert ino (s.worker w).unlinkedInodeSet }

/-- The caller has checked that no requests of the inode are in progress. -/
def exportInode (s : Syncs) (w ino : ℕ) : Syncs :=
  let k := s.worker w
  { s.setWorker w { k with
      dirtyInodeSet := k.dirtyInodeSet.erase ino
      unlinkedInodeSet := k.unlinkedInodeSet.erase ino } with
    location := update s.location ino
      (.exported (decide (ino ∈ k.dirtyInodeSet)) (decide (ino ∈ k.unlinkedInodeSet))) }

def importInode (s : Syncs) (w ino : ℕ) (inExporterDirtySet inExporterUnlinkedSet : Bool) : Syncs :=
  let k := s.worker w
  { s.setWorker w { k with
      dirtyInodeSet := if inExporterDirtySet then insert ino k.dirtyInodeSet else k.dirtyInodeSet
      unlinkedInodeSet := if inExporterUnlinkedSet then insert ino k.unlinkedInodeSet else k.unlinkedInodeSet } with
    location := update s.location ino (.worker w) }

/-- What the body has is committed; the blocks that are to be freed are taken from the log entry. -/
def onSuccessfulJournalWrite (s : Syncs) (inodes : List ℕ) (body : ℕ → List Change) : Syncs :=
  { s with
    logEntry := fun ino => if ino ∈ inodes then [] else s.logEntry ino
    committed := fun ino => if ino ∈ inodes then s.committed ino ++ body ino else s.committed ino
    freed := fun ino =>
      if ino ∈ inodes then s.freed ino ++ (s.logEntry ino).filter (·.dealloc.isSome) else s.freed ino }

/-- A change of an inode, a reassignment, or a step of a worker or the journal. -/
inductive Label where
  /-- A request logs a change of an inode; `writeFileInode` comes later. -/
  | log (w ino : ℕ)
  | writeFileInode (w ino : ℕ)
  | ownerDeallocResources (w ino : ℕ) (bitmaps : List (ℕ × ℕ))
  | load (w ino : ℕ)
  | exportInode (w ino : ℕ)
  | importInode (w ino : ℕ)
  | accept (w : ℕ) (client : SyncWorker.ClientReq) (stale : ℕ)
  | goOn (w : ℕ) (input : CallInput)
  | ready (w : ℕ)
  | flushDone (w r : ℕ)
  | readDone (w : ℕ) (read : ℕ × Finset ℕ)
  | serialize (w j : ℕ)
  | succeed (w j : ℕ)
  | fail (w j : ℕ)

/-- The worker that the step is of. -/
def Label.wid : Label → ℕ
  | .log w _ | .writeFileInode w _ | .ownerDeallocResources w _ _ | .load w _ | .exportInode w _ | .importInode w _
  | .accept w _ _ | .goOn w _ | .ready w | .flushDone w _ | .readDone w _ | .serialize w _
  | .succeed w _ | .fail w _ => w

def act (s : Syncs) : Label → Option Syncs
  | .log w ino => if s.location ino = .worker w then some (s.addChange ino none) else none
  | .writeFileInode w ino => if s.location ino = .worker w then some (s.writeFileInode w ino) else none
  | .ownerDeallocResources w ino bitmaps => some (s.ownerDeallocResources w ino bitmaps)
  | .load w ino =>
    if s.location ino = .disk then some { s with location := update s.location ino (.worker w) } else none
  | .exportInode w ino =>
    if s.location ino = .worker w ∧ (s.worker w).inProgressRequests ino = 0 then some (s.exportInode w ino) else none
  | .importInode w ino =>
    match s.location ino with
    | .exported dirty unlinked => some (s.importInode w ino dirty unlinked)
    | _ => none
  | .accept w client stale => ((s.worker w).accept (s.view w) client stale).map (s.setWorker w)
  | .goOn w input => ((s.worker w).goOn (s.view w) input).map (s.setWorker w)
  | .ready w => (s.worker w).ready.map (s.setWorker w)
  | .flushDone w r => ((s.worker w).flushDone r).map (s.setWorker w)
  | .readDone w read => ((s.worker w).readDone read).map (s.setWorker w)
  | .serialize w j =>
    ((s.worker w).entries[j]?).bind fun e =>
      if e.body.isNone then
        some (s.setWorker w { s.worker w with
          entries := (s.worker w).entries.set j { e with body := some s.logEntry } })
      else none
  | .succeed w j =>
    ((s.worker w).entries[j]?).bind fun e => e.body.bind fun body =>
      let k := { s.worker w with entries := (s.worker w).entries.eraseIdx j }
      (k.callback (s.view w) e true).map ((s.onSuccessfulJournalWrite e.inodes body).setWorker w)
  | .fail w j =>
    ((s.worker w).entries[j]?).bind fun e =>
      let k := { s.worker w with entries := (s.worker w).entries.eraseIdx j }
      (k.callback (s.view w) e false).map (s.setWorker w)

def Label.isGoOn : Label → Bool
  | .goOn .. => true
  | _ => false

/-- A worker does nothing else while a call has not returned. -/
def step (l : Label) (s : Syncs) : Option Syncs :=
  if l.isGoOn ∨ (s.worker l.wid).calls = [] then s.act l else none

/-- No inode is loaded. -/
def init : Syncs where
  location _ := .disk
  logEntry _ := []
  nextChange := 0
  worker _ := SyncWorker.init
  history _ := []
  marked _ := 0
  committed _ := []
  freed _ := []

end Syncs

end Ufs.Impl
