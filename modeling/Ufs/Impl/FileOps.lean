import Ufs.Framework.Run
import Ufs.Impl.Inode

/-!
# Reads, writes and seeks (`FileMng::processRead` to `FileMng::processLseek`)

A request whose blocks are not in memory is processed again from its start once they are, with the
same `blockIoDone`: the pieces of the client's buffer that were copied, each within one block. What
the buffers and the allocator answer is an input (`Io`); `noItem` is the exception of a buffer
without an item to replace. A step without a result throws, or uses `ext_array[-1]` (the assert is
compiled out). The fields of a request are shared with the client: all their values are possible.
-/

namespace Ufs.Impl

open Function (update)

def ringDataItemSize : ℕ := 32768

def oAppend : ℕ := 1024

/-- A `uint64_t` as an `int64_t`. -/
def toInt64 (n : ℕ) : ℤ := Int.bmod n (2 ^ 64)

/-- `a + b` for a `uint64_t` and a signed 64-bit number. -/
def u64AddInt (a : ℕ) (b : ℤ) : ℕ := ((a + b) % 2 ^ 64).toNat

namespace FileOps

/-- The part of an inode that reads and writes use. -/
structure Dinode where
  size : ℕ
  iBlockCount : ℕ
deriving Repr, DecidableEq

/-- `FileObj`: the inode, the open flags and the offset. -/
structure FileObj where
  ip : ℕ
  flags : ℕ
  off : ℕ
deriving Repr, DecidableEq

/-- The flags of a new `FileObj` are zero until they are set. -/
def allocateFd (inodePtr : ℕ) (inodeData : Dinode) (openFlags : ℕ) : FileObj :=
  let curFileObj : FileObj := ⟨inodePtr, 0, 0⟩
  let curFileObj := { curFileObj with off := if curFileObj.flags &&& oAppend ≠ 0 then inodeData.size else 0 }
  { curFileObj with flags := openFlags }

/-! ## The blocks of a file -/

/-- Whether a block is in memory, being read, or has no item in the buffer. -/
inductive Got where
  | inMem
  | pending
  | noItem
deriving Repr, DecidableEq

/-- How the allocation of blocks for a write ends. -/
inductive Allocated where
  | all
  | reading (added : ℕ)
  | full
  | noItem
deriving Repr, DecidableEq

/-- For the block of the piece at a position of the client's buffer, for the new blocks, and for the inode. -/
structure Io where
  data : ℕ → Got
  alloc : Allocated
  inode : Got

def fileMaxBlocks : ℕ := ((List.finRange nextentArr).map fun k : Fin nextentArr => extentArrIdx2BlockAllocUnit k).sum

/-- A `uint32_t`. -/
def blockIdx (off : ℕ) : UInt32 := UInt32.ofNat (off / bsize)

def readLoop (io : Io) (offStart realBytes : ℕ) : ℕ → ℕ → Finset ℕ → ℕ → Option (ℕ × Finset ℕ)
  | 0, _, done, rioNum => some (rioNum, done)
  | fuel + 1, tot, done, rioNum =>
    if realBytes ≤ tot then some (rioNum, done)
    else
      let off := (offStart + tot) % 2 ^ 64
      let m := min (realBytes - tot) (bsize - off % bsize)
      if tot ∈ done then readLoop io offStart realBytes fuel (tot + m) done rioNum
      else
        match getCurrentExtentArrIdx (blockIdx off) with
        | none => none
        | some _ =>
          match io.data tot with
          | .inMem => readLoop io offStart realBytes fuel (tot + m) (insert tot done) rioNum
          | .pending => readLoop io offStart realBytes fuel (tot + m) done (rioNum + 1)
          | .noItem => none

def readInode (io : Io) (size : ℕ) (done : Finset ℕ) (offStart nBytes : ℕ) : Option (ℤ × Finset ℕ × Bool) :=
  let realBytes := if size < (offStart + nBytes) % 2 ^ 64 then u64Sub size offStart else nBytes
  (readLoop io offStart realBytes realBytes 0 done 0).map fun (rioNum, done) =>
    if 0 < rioNum then (0, done, true) else (toInt64 realBytes, done, false)

/-- At position `ptr` of the client's buffer; `tot` is a `uint32_t`. It ends with whether all is written. -/
def writeLoop (io : Io) (offStart nBytes : ℕ) : ℕ → ℕ → Dinode → Finset ℕ → Option (Bool × Dinode × Finset ℕ)
  | 0, _, _, _ => none
  | fuel + 1, ptr, inodeData, done =>
    let tot := ptr % 2 ^ 32
    if nBytes ≤ tot then some (true, inodeData, done)
    else
      let off := (offStart + ptr) % 2 ^ 64
      let m := min (nBytes - tot) (bsize - off % bsize)
      if ptr ∈ done then writeLoop io offStart nBytes fuel (ptr + m) inodeData done
      else
        match getCurrentExtentArrIdx (blockIdx off) with
        | none => none
        | some _ =>
          match io.data ptr with
          | .inMem => writeLoop io offStart nBytes fuel (ptr + m)
              { inodeData with size := max inodeData.size ((off + m) % 2 ^ 64) } (insert ptr done)
          | .pending => some (false, inodeData, done)
          | .noItem => none

/-- An `int32_t`. -/
def toAllocateBlockNum (inodeData : Dinode) (endOff : ℕ) : ℤ :=
  if inodeData.size < endOff then Int.bmod (((endOff - 1) / bsize + 1 : ℕ) - inodeData.iBlockCount) (2 ^ 32) else 0

/-- What `writeInode` leaves: its return code, the inode, and what it has still to wait for. -/
structure Wrote where
  ret : ℤ
  inodeData : Dinode
  done : Finset ℕ
  pending : Bool

def writeData (io : Io) (inodeData : Dinode) (done : Finset ℕ) (offStart nBytes : ℕ) : Option Wrote :=
  (writeLoop io offStart nBytes (nBytes + 1) 0 inodeData done).map fun (all, inodeData, done) =>
    if all then ⟨toInt64 nBytes, inodeData, done, false⟩ else ⟨0, inodeData, done, true⟩

/-- The result of `writeInodeAllocDataBlock` is `toAllocateBlockNum`, also when that is negative. No
request has an append offset. -/
def writeInode (io : Io) (inodeData : Dinode) (done : Finset ℕ) (offStart nBytes : ℕ) : Option Wrote :=
  if inodeData.size < offStart then some ⟨-1, inodeData, done, false⟩
  else
    let n := toAllocateBlockNum inodeData ((offStart + nBytes) % 2 ^ 64)
    if n < 0 then some ⟨n, inodeData, done, false⟩
    else if n = 0 then writeData io inodeData done offStart nBytes
    else
      match io.alloc with
      | .all =>
        -- the first block without an extent ends `allocateDataBlocks` with `-1`
        if inodeData.iBlockCount + n.toNat ≤ fileMaxBlocks then
          writeData io { inodeData with iBlockCount := inodeData.iBlockCount + n.toNat } done offStart nBytes
        else some ⟨-1, inodeData, done, false⟩
      | .reading added =>
        let iBlockCount := inodeData.iBlockCount + min added (n.toNat - 1)
        if iBlockCount < fileMaxBlocks then some ⟨0, { inodeData with iBlockCount }, done, true⟩
        else some ⟨-1, inodeData, done, false⟩
      | .full => some ⟨-1, inodeData, done, false⟩
      | .noItem => none

/-! ## Requests -/

/-- The four operations. -/
inductive RwOp where
  | read
  | pread
  | write
  | pwrite
deriving Repr, DecidableEq

/-- `READ_FETCH_DATA` or `WRITE_MODIFY`, `WRITE_UPDATE_INODE`, `READ_FETCH_DONE` or
`WRITE_MODIFY_DONE`, `READ_RET_ERR` or `WRITE_RET_ERR`.
-/
inductive RwState where
  | start
  | updateInode
  | done
  | retErr
deriving Repr, DecidableEq

/-- A request to read or write. -/
structure RwReq where
  op : RwOp
  fd : ℕ
  count : UInt64
  offset : UInt64
  state : RwState
  blockIoDone : Finset ℕ
deriving DecidableEq

/-- With whether there are pending reads, how often `submitFsGeneratedRequests` and
`submitFsReqCompletion` were called, and the error. -/
structure Call where
  fileObj : FileObj
  inodeData : Dinode
  req : RwReq
  pending : Bool
  submitted : ℕ
  completed : ℕ
  error : Bool

namespace Call

def enter (fileObj : FileObj) (inodeData : Dinode) (req : RwReq) : Call := ⟨fileObj, inodeData, req, false, 0, 0, false⟩

def setState (c : Call) (state : RwState) : Call := { c with req := { c.req with state } }

def submitFsReqCompletion (c : Call) : Call := { c with completed := c.completed + 1 }

/-- The end of every handler: a request that is done, or has failed, is completed. -/
def finish (c : Call) : Call :=
  let c := if c.req.state = .done then c.submitFsReqCompletion else c
  if c.req.state = .retErr then { c with error := true }.submitFsReqCompletion else c

/-- The offset moves by the number of bytes, if the operation moves it. -/
def advance (c : Call) (moves : Bool) (n : ℤ) : Call :=
  if moves then { c with fileObj := { c.fileObj with off := u64AddInt c.fileObj.off n } } else c

def fetchData (io : Io) (offStart : ℕ) (moves : Bool) (c : Call) : Option Call :=
  (readInode io c.inodeData.size c.req.blockIoDone offStart c.req.count.toNat).map fun (nRead, done, pending) =>
    let c := { c with req := { c.req with blockIoDone := done }, pending }
    if nRead < 0 then (c.setState .retErr).finish
    else if pending then { c with submitted := c.submitted + 1 }.finish
    else ((c.advance moves nRead).setState .done).finish

def processRead (io : Io) (c : Call) : Option Call :=
  if c.req.state = .start then
    -- the handler returns here
    if ringDataItemSize < c.req.count.toNat then some (c.setState .retErr)
    else c.fetchData io c.fileObj.off true
  else some c.finish

def processPread (io : Io) (c : Call) : Option Call :=
  if c.req.state = .start then
    if c.inodeData.size < (c.req.offset.toNat + c.req.count.toNat) % 2 ^ 64 then some (c.setState .retErr).finish
    else c.fetchData io c.req.offset.toNat false
  else some c.finish

def modify (io : Io) (offStart : ℕ) (moves : Bool) (c : Call) : Option Call :=
  (writeInode io c.inodeData c.req.blockIoDone offStart c.req.count.toNat).map fun wrote =>
    let c := { c with
      inodeData := wrote.inodeData, req := { c.req with blockIoDone := wrote.done }, pending := wrote.pending }
    if wrote.ret < 0 then c.setState .retErr
    else if wrote.pending then { c with submitted := c.submitted + 1 }
    else (c.advance moves wrote.ret).setState .updateInode

def updateInode (io : Io) (c : Call) : Option Call :=
  if c.req.state = .updateInode then
    -- the handler returns here
    if ringDataItemSize < c.req.count.toNat ∨ c.req.count = 0 then some (c.setState .retErr)
    else
      match io.inode with
      | .inMem => some (c.setState .done).finish
      | .pending => some { c with pending := true, submitted := c.submitted + 1 }.finish
      | .noItem => none
  else some c.finish

def processWrite (io : Io) (c : Call) : Option Call :=
  if c.req.state = .start then (c.modify io c.fileObj.off true).bind (·.updateInode io)
  else c.updateInode io

def processPwrite (io : Io) (c : Call) : Option Call :=
  if c.req.state = .start then
    -- the handler returns here
    if ringDataItemSize < c.req.count.toNat ∨ c.req.count = 0 then some (c.setState .retErr)
    else (c.modify io c.req.offset.toNat false).bind (·.updateInode io)
  else c.updateInode io

/-- One processing of the request. -/
def processReq (io : Io) (c : Call) : Option Call :=
  match c.req.op with
  | .read => c.processRead io
  | .pread => c.processPread io
  | .write => c.processWrite io
  | .pwrite => c.processPwrite io

end Call

/-! ## Seeks -/

/-- What `lseek` leaves. -/
structure Seeked where
  fileObj : FileObj
  error : Bool
  completed : ℕ
  ret : ℤ
deriving Repr, DecidableEq

def seekOff (fileObj : FileObj) (fileSize : ℕ) (whence offset : ℤ) : Option ℕ :=
  if whence = 0 then some (u64AddInt 0 offset)
  else if whence = 1 then some (u64AddInt fileObj.off offset)
  else if whence = 2 then some (u64AddInt fileSize offset)
  else none

/-- An unsigned offset is never negative. -/
def processLseek (fileObj : FileObj) (fileSize : ℕ) (whence offset : ℤ) : Seeked :=
  let retErr := (seekOff fileObj fileSize whence offset).isNone
  let fileObj := { fileObj with off := (seekOff fileObj fileSize whence offset).getD fileObj.off }
  if retErr ∨ fileSize < fileObj.off then ⟨fileObj, true, 1, 0⟩
  else ⟨fileObj, false, 1, Int.bmod fileObj.off (2 ^ 32)⟩

end FileOps

open FileOps

/-! ## The files of a worker -/

/-- The inodes, the open files and the requests. -/
structure Files where
  inodeData : ℕ → Dinode
  fds : ℕ → Option FileObj
  fdIncr : ℕ
  reqs : ℕ → Option RwReq
  nextReq : ℕ

namespace Files

/-- A call of a client, or a worker that processes a request. -/
inductive Label where
  | openFile (ino openFlags : ℕ)
  | lseek (fd : ℕ) (whence offset : ℤ)
  | accept (op : RwOp) (fd : ℕ) (count offset : UInt64)
  | processReq (r : ℕ) (io : Io)

/-- No file is open. -/
def start (inodeData : ℕ → Dinode) : Files := ⟨inodeData, fun _ => none, 0, fun _ => none, 0⟩

/-- A request that was not completed is processed again after its reads, if there are any. -/
def afterCall (s : Files) (r : ℕ) (c : Call) : Files :=
  { s with
    inodeData := update s.inodeData c.fileObj.ip c.inodeData
    fds := update s.fds c.req.fd (some c.fileObj)
    reqs := update s.reqs r (if c.completed = 0 ∧ c.submitted ≠ 0 then some c.req else none) }

/-- One step; a request that is not there is not processed. -/
def step (l : Label) (s : Files) : Option Files :=
  match l with
  | .openFile ino openFlags =>
    some { s with
      fds := update s.fds s.fdIncr (some (allocateFd ino (s.inodeData ino) openFlags)), fdIncr := s.fdIncr + 1 }
  | .lseek fd whence offset =>
    match s.fds fd with
    | none => some s
    | some o =>
      some { s with fds := update s.fds fd (some (processLseek o (s.inodeData o.ip).size whence offset).fileObj) }
  | .accept op fd count offset =>
    match s.fds fd with
    | none => some s
    | some _ =>
      some { s with
        reqs := update s.reqs s.nextReq (some ⟨op, fd, count, offset, .start, ∅⟩), nextReq := s.nextReq + 1 }
  | .processReq r io =>
    match s.reqs r with
    | none => some s
    | some q =>
      match s.fds q.fd with
      | none => some s
      | some o => ((Call.enter o (s.inodeData o.ip) q).processReq io).map (s.afterCall r)

end Files

end Ufs.Impl
