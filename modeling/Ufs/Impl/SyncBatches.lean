import Ufs.Impl.JournalEntry
import Ufs.Impl.Sync

/-!
# The batches of a syncunlinked (`FsReq_SyncBatchCtx.h`, `FsProc_FileMng.cc`)

Each log entry goes into the last batch if it fits, and into a new one otherwise. Requests come from
a pool, so the counters of a request may be those of its last use.
-/

namespace Ufs.Impl

/-- A batch: its journal entry, the size of its body and its inodes. -/
structure SyncBatchedContext where
  jentry : JournalEntry
  curLogEntrySize : ℕ
  inodes : Finset ℕ

namespace SyncBatchedContext

/-- An empty batch. -/
def new : SyncBatchedContext := ⟨.new, JournalEntry.new.calcBodySize, ∅⟩

def tryAdd (c : SyncBatchedContext) (ino : ℕ) (ile : InodeLogEntry) : Option SyncBatchedContext :=
  if kMaxJournalBodySize < c.curLogEntrySize + ile.calcSize then none
  else some
    { jentry := { c.jentry with ileVec := c.jentry.ileVec ++ [ile] }
      curLogEntrySize := c.curLogEntrySize + ile.calcSize
      inodes := insert ino c.inodes }

variable (logEntry : ℕ → InodeLogEntry)

/-- The batches before the last one and the last one; `none` is the exception for an entry that does
not fit into an empty batch. -/
def addInodes : List ℕ → List SyncBatchedContext → SyncBatchedContext → Option (List SyncBatchedContext)
  | [], batches, curBatch => some (batches ++ [curBatch])
  | ino :: inodes, batches, curBatch =>
    match curBatch.tryAdd ino (logEntry ino) with
    | some curBatch => addInodes inodes batches curBatch
    | none => (new.tryAdd ino (logEntry ino)).bind (addInodes inodes (batches ++ [curBatch]))

/-- The inodes are divided into batches, and the request counts them. -/
def submitSyncBatches (q : SyncReq) (inodes : List ℕ) : Option (SyncReq × List SyncBatchedContext) :=
  if inodes = [] then some ({ q with state := .syncBatchesComplete }, [])
  else (addInodes logEntry inodes [] new).map fun batches =>
    ({ q with
      state := .syncBatchesInprogress
      syncBatchesCreated := batches.length
      syncBatchesCompleted := 0
      syncBatchesFailed := 0 }, batches)

end SyncBatchedContext

end Ufs.Impl
