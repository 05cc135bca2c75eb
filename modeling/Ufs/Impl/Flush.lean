import Ufs.Impl.BlockBuffer

/-!
# Flushes of the block buffer (`FsProc.cc`, `FsProc_Worker.cc`, `FsProc_FsImpl.cc`)

A block has one write in flight at a time (`blockFlushReqMap`), whose content the device takes from
the memory of the item between submission and completion. The asserts are compiled out. A request of
which nothing was submitted is lost. In the background any dirty blocks up to the limit may be
chosen; the source takes as many as there are. Of an fsync there is the part that flushes the data.
Sequence numbers are left out.
-/

namespace Ufs.Impl

open Function (update)

/-- `flushBlockReqMap` has the item of each block. -/
structure BufferFlushReq where
  fsReq : Option ℕ
  flushBlockReqMap : List (ℕ × ℕ)
  toSubmitFlushBlocks : List ℕ
  submittedFlushBlocks : Finset ℕ

/-- The states of an fsync up to its data being written. -/
inductive FsyncState where
  | dataBio
  | dataSyncWait
  | dataSyncDone
deriving Repr, DecidableEq

/-- An fsync that is in progress. -/
structure FsyncReq where
  fileInum : ℕ
  state : FsyncState
deriving Repr, DecidableEq

/-- A block being written, and its content when it was submitted. -/
structure FlushWrite (α : Type) where
  item : ℕ
  content : Option α

/-- What happens to a flush request, as it is logged. -/
inductive FlushEvent where
  | listed (f : ℕ) (blocks : List ℕ)
  | written (f bno : ℕ)
  | finished (f : ℕ)
deriving Repr, DecidableEq

/-- The block buffer, the contents of its slots and of the device, and the flush requests. -/
structure Flush (α : Type) where
  buf : BlockBuffer
  waitForFlushIndexes : Finset ℕ
  data : ℕ → α
  dev : ℕ → α
  flushReq : ℕ → Option BufferFlushReq
  nextFlushReq : ℕ
  blockFlushReqMap : ℕ → Option ℕ
  inflight : ℕ → Option (FlushWrite α)
  fsync : ℕ → Option FsyncReq
  nextFsync : ℕ
  log : List FlushEvent

namespace Flush

def kNumFgFlushLimit : ℤ := 10

def kMaxSubmitBatchSize : ℕ := 32

variable {α : Type}

/-! ## Submission -/

/-- `none` is the refusal of a block that has a write in flight. -/
def submitAsyncBufFlushWriteDevReq (s : Flush α) (f bno item : ℕ) : Option (Flush α) :=
  if (s.blockFlushReqMap bno).isSome then none
  else
    some { s with
      blockFlushReqMap := update s.blockFlushReqMap bno (some f)
      inflight := update s.inflight bno (some ⟨item, none⟩) }

def submitLoop (f : ℕ) (reqs : List (ℕ × ℕ)) : List ℕ → Finset ℕ → Flush α → Flush α × List ℕ × Finset ℕ
  | [], submitted, s => (s, [], submitted)
  | bno :: rest, submitted, s =>
    if kMaxSubmitBatchSize < submitted.card then (s, bno :: rest, submitted)
    else
      match (reqs.lookup bno).bind (s.submitAsyncBufFlushWriteDevReq f bno) with
      | none => (s, bno :: rest, submitted)
      | some s' => submitLoop f reqs rest (insert bno submitted) s'

/-- With the blocks so far and their items. It throws when a block is not dirty; a block that is
there twice is an error. -/
def initFlushReqs (s : Flush α) : List ℕ → List (ℕ × ℕ) → Option (Option (List (ℕ × ℕ)))
  | [], reqs => some (some reqs)
  | i :: rest, reqs =>
    let bno := (s.buf.item i).blockNo
    if (reqs.lookup bno).isSome then some none
    else
      (s.buf.getBlockWithoutAccess bno).bind fun cur =>
        if (s.buf.item cur).isDirty then s.initFlushReqs rest (reqs ++ [(bno, cur)]) else none

def newFlush (s : Flush α) (fsReq : Option ℕ) (reqs : List (ℕ × ℕ)) : Flush α × ℕ :=
  let f := s.nextFlushReq
  let x := submitLoop f reqs (reqs.map Prod.fst) ∅ { s with nextFlushReq := f + 1 }
  let numSubmit := reqs.length - x.2.1.length
  if numSubmit = 0 then (x.1, 0)
  else
    ({ x.1 with
        flushReq := update x.1.flushReq f (some ⟨fsReq, reqs, x.2.1, x.2.2⟩)
        log := x.1.log ++ [.listed f (reqs.map Prod.fst)] }, numSubmit)

def setBuf (s : Flush α) (buf : BlockBuffer) : Flush α := { s with buf := buf }

def CheckIfNeedBgFlush (s : Flush α) (threshold : ℤ) : Prop :=
  s.buf.bgFlushSent = false ∧ s.buf.numFgFlushInflight ≤ 0 ∧ s.waitForFlushIndexes = ∅ ∧
    threshold < s.buf.dirtyItemNum

instance (s : Flush α) (threshold : ℤ) : Decidable (s.CheckIfNeedBgFlush threshold) :=
  inferInstanceAs (Decidable (_ ∧ _))

def checkAndFlushDirty (s : Flush α) (items : List ℕ) : Option (Flush α) :=
  let s := s.setBuf { s.buf with bgFlushSent := s.buf.bgFlushSent || !items.isEmpty }
  (s.initFlushReqs items []).map fun reqs =>
    match reqs with
    | none => s
    | some reqs => (s.newFlush none reqs).1

/-- With `numFlushed` and `needFlush`; `doFlushByIndex` throws at an item that is not dirty. -/
def flushInodeData (s : Flush α) (k ino : ℕ) (items : List ℕ) : Option (Flush α × ℤ × Bool) :=
  if kNumFgFlushLimit ≤ s.buf.numFgFlushInflight then
    some ({ s with waitForFlushIndexes := insert ino s.waitForFlushIndexes }, -1, true)
  else if ino ∈ s.waitForFlushIndexes then some (s, -1, true)
  else if ∃ i ∈ items, (s.buf.item i).isDirty = false then none
  else
    (s.initFlushReqs items []).map fun reqs =>
      match reqs with
      | none => (s, 0, true)
      | some reqs =>
        if reqs = [] then (s, 0, false)
        else
          let x := (s.setBuf { s.buf with numFgFlushInflight := s.buf.numFgFlushInflight + 1 }).newFlush (some k) reqs
          if x.2 = 0 then (x.1, 0, true)
          else ({ x.1 with waitForFlushIndexes := insert ino x.1.waitForFlushIndexes }, x.2, true)

def setFsync (s : Flush α) (k : ℕ) (r : FsyncReq) : Flush α := { s with fsync := update s.fsync k (some r) }

/-- In `FSYNC_DATA_BIO`; when nothing was submitted the request goes to the ready queue as it is. -/
def processFdataSync (s : Flush α) (k : ℕ) (r : FsyncReq) (items : List ℕ) : Option (Flush α) :=
  (s.flushInodeData k r.fileInum items).map fun x =>
    if x.2.2 then if 0 < x.2.1 then x.1.setFsync k { r with state := .dataSyncWait } else x.1
    else x.1.setFsync k { r with state := .dataSyncDone }

/-! ## Completion -/

/-- One more block is submitted, and counts as submitted also when it was refused. -/
def blockReqFinished (s : Flush α) (f bno : ℕ) (r : BufferFlushReq) : Option (Flush α × BufferFlushReq) :=
  let submitted := r.submittedFlushBlocks.erase bno
  match r.toSubmitFlushBlocks with
  | [] => some (s, { r with submittedFlushBlocks := submitted })
  | next :: rest =>
    (r.flushBlockReqMap.lookup next).map fun item =>
      ((s.submitAsyncBufFlushWriteDevReq f next item).getD s,
        { r with toSubmitFlushBlocks := rest, submittedFlushBlocks := insert next submitted })

def FlushDone (r : BufferFlushReq) : Prop := r.submittedFlushBlocks = ∅ ∧ r.toSubmitFlushBlocks = []

instance (r : BufferFlushReq) : Decidable (FlushDone r) := inferInstanceAs (Decidable (_ ∧ _))

/-- For an order of the blocks. Where `doFlushDone` fails the type of the fsync is looked at, a null
pointer in the background. -/
def flushDonePropagate (s : Flush α) (r : BufferFlushReq) (order : List ℕ) : Option (Flush α) :=
  (s.buf.doFlushDone order).bind fun x =>
    match r.fsReq with
    | none => if x.2 < 0 then none else some (s.setBuf { x.1 with bgFlushSent := false })
    | some k =>
      let s := s.setBuf { x.1 with numFgFlushInflight := x.1.numFgFlushInflight - 1 }
      (s.fsync k).map fun req =>
        { s.setFsync k { req with state := .dataSyncDone } with
          waitForFlushIndexes := s.waitForFlushIndexes.erase req.fileInum }

def submitBlkFlushWriteReqCompletion (s : Flush α) (f bno : ℕ) (r : BufferFlushReq) (order : List ℕ) :
    Option (Flush α) :=
  (s.blockReqFinished f bno r).bind fun x =>
    (if FlushDone x.2 then
        if order.Perm (x.2.flushBlockReqMap.map Prod.fst) then
          (x.1.flushDonePropagate x.2 order).map fun s =>
            { s with
              flushReq := update s.flushReq f none
              log := s.log ++ [.finished f] }
        else none
      else some { x.1 with flushReq := update x.1.flushReq f (some x.2) }).map
      fun s => { s with blockFlushReqMap := update s.blockFlushReqMap bno none }

/-- With the content that was taken: `submitBlkWriteReqCompletion`. -/
def complete (s : Flush α) (bno : ℕ) (order : List ℕ) : Option (Flush α) :=
  (s.inflight bno).bind fun w => w.content.bind fun v =>
    (s.blockFlushReqMap bno).bind fun f => (s.flushReq f).bind fun r =>
      submitBlkFlushWriteReqCompletion
        { s with
          dev := update s.dev bno v
          inflight := update s.inflight bno none
          log := s.log ++ [.written f bno] } f bno r order

/-! ## Steps -/

def writeItem (s : Flush α) (i : ℕ) (v : α) (itemIndex : ℕ) : Option (Flush α) :=
  (s.buf.setItemDirty i true itemIndex).map fun buf =>
    { s with
      data := update s.data i v
      buf := if (buf.item i).inMem then buf.releaseBlock i else buf.blockFetchedCallback i }

/-- A call of the buffer, a write to a block, a step of an fsync, or a step of the device. -/
inductive Label (α : Type) where
  | getBlock (blockNo newIndex : ℕ)
  | fetched (i : ℕ)
  | releaseBlock (i : ℕ)
  | writeItem (i : ℕ) (v : α) (itemIndex : ℕ)
  | fsync (ino : ℕ)
  | processFdataSync (k : ℕ) (items : List ℕ)
  | checkAndFlushDirty (items : List (ℕ × ℕ))
  | take (bno : ℕ)
  | complete (bno : ℕ) (order : List ℕ)

/-- The items of an fsync are those of `dirtyIndexMap` for the inode, in some order. -/
def IsDirtyOrder (s : Flush α) (ino : ℕ) (items : List ℕ) : Prop :=
  items.Nodup ∧ items.toFinset = BlockBuffer.itemsAt s.buf.dirtyIndexMap ino

instance (s : Flush α) (ino : ℕ) (items : List ℕ) : Decidable (s.IsDirtyOrder ino items) :=
  inferInstanceAs (Decidable (_ ∧ _))

/-- Items of `dirtyIndexMap` with their index, at most as many as are flushed at a time, and one at least. -/
def IsDirtyChoice (s : Flush α) (oneTimeSubmitNum : ℕ) (items : List (ℕ × ℕ)) : Prop :=
  (items.map Prod.snd).Nodup ∧ (∀ x ∈ items, x.2 ∈ BlockBuffer.itemsAt s.buf.dirtyIndexMap x.1) ∧
    items.length ≤ max oneTimeSubmitNum 1

instance (s : Flush α) (n : ℕ) (items : List (ℕ × ℕ)) : Decidable (s.IsDirtyChoice n items) :=
  inferInstanceAs (Decidable (_ ∧ _))

/-- One step, for a flush that submits `oneTimeSubmitNum` blocks at a time. -/
def step (oneTimeSubmitNum : ℕ) (threshold : ℤ) : Label α → Flush α → Option (Flush α)
  | .getBlock blockNo newIndex, s => (s.buf.getBlock blockNo newIndex).map fun x => s.setBuf x.1
  | .fetched i, s =>
    if (s.buf.item i).status = .locked ∧ (s.buf.item i).inMem = false then
      some { s with
        data := update s.data i (s.dev (s.buf.item i).blockNo)
        buf := s.buf.blockFetchedCallback i }
    else none
  | .releaseBlock i, s => some (s.setBuf (s.buf.releaseBlock i))
  | .writeItem i v itemIndex, s => s.writeItem i v itemIndex
  | .fsync ino, s =>
    if 0 < ino then
      some { s with
        fsync := update s.fsync s.nextFsync (some ⟨ino, .dataBio⟩)
        nextFsync := s.nextFsync + 1 }
    else none
  | .processFdataSync k items, s =>
    (s.fsync k).bind fun r =>
      if r.state = .dataBio ∧ s.IsDirtyOrder r.fileInum items then s.processFdataSync k r items else none
  | .checkAndFlushDirty items, s =>
    if s.CheckIfNeedBgFlush threshold ∧ s.IsDirtyChoice oneTimeSubmitNum items then
      s.checkAndFlushDirty (items.map Prod.snd)
    else none
  | .take bno, s =>
    (s.inflight bno).map fun w =>
      { s with inflight := update s.inflight bno (some { w with content := some (s.data w.item) }) }
  | .complete bno order, s => s.complete bno order

/-- An empty buffer. -/
def init (blockNum : ℕ) (data dev : ℕ → α) : Flush α :=
  { buf := BlockBuffer.init blockNum
    waitForFlushIndexes := ∅
    data := data
    dev := dev
    flushReq := fun _ => none
    nextFlushReq := 0
    blockFlushReqMap := fun _ => none
    inflight := fun _ => none
    fsync := fun _ => none
    nextFsync := 0
    log := [] }

end Flush

end Ufs.Impl
