import Ufs.Framework.Codec
import Ufs.Impl.JSuper

/-!
# Journal entries (`FsProc_JournalBasic.cc`, `FsProc__JournalEnabled.h`)

A pointer is the list of bytes from there to the end of the memory that may be read; what is read
past it is `outOfBounds`, which the source does not notice. A map is a list in the order of an
iteration. The padding bytes of `ExtMapVal` are copied to the device too, and are arbitrary
(`Padding`).
-/

namespace Ufs.Impl

open Ufs.Codec

def jbodyMagic : UInt64 := 0xBEEFBEEFBEEFBBBB

def jcommitMagic : UInt64 := 0xBEEFBEEFBEEFCCCC

/-- The exception of the code, or a read outside the buffer. -/
inductive DeserializeError where
  | runtimeError (what : String)
  | outOfBounds
deriving Repr, DecidableEq

/-- `struct timeval`. -/
structure Timeval where
  tvSec : UInt64
  tvUsec : UInt64
deriving Repr, DecidableEq

/-- What the maps of extents hold for a block number. -/
structure ExtMapVal where
  seqNo : UInt32
  iBlockOffset : UInt32
  numBlocks : UInt32
  bmapModified : Bool
deriving Repr, DecidableEq

abbrev ExtMap := AList fun _ : UInt64 => ExtMapVal

/-- `extentSeqNo` is `none` when it is not initialized, and `minode` when it is null. -/
structure InodeLogEntry where
  inode : UInt64
  syncID : UInt64
  optfieldBitarr : UInt32
  mode : UInt32
  uid : UInt32
  gid : UInt32
  blockCount : UInt32
  bitmapOp : UInt32
  dentryCount : UInt16
  nlink : UInt8
  size : UInt64
  atime : Timeval
  mtime : Timeval
  ctime : Timeval
  extentSeqNo : Option UInt32
  extAdd : ExtMap
  extDel : ExtMap
  dependsOn : AList fun _ : UInt64 => UInt64
  minode : Option ℕ

/-- The padding bytes of the extents, which the code writes as they are in memory. -/
structure Padding where
  add : UInt64 → Vector UInt8 3
  del : UInt64 → Vector UInt8 3

def putTimeval (t : Timeval) : List UInt8 := put t.tvSec ++ put t.tvUsec

def getTimeval : Reader DeserializeError Timeval := do
  let tvSec ← get .outOfBounds
  let tvUsec ← get .outOfBounds
  pure ⟨tvSec, tvUsec⟩

/-- A value of 16 bytes: three words, a `bool` and three bytes of padding. -/
def putExtMapVal (pad : Vector UInt8 3) (v : ExtMapVal) : List UInt8 :=
  put v.seqNo ++ put v.iBlockOffset ++ put v.numBlocks ++ [if v.bmapModified then 1 else 0] ++ pad.toList

def getExtMapVal : Reader DeserializeError ExtMapVal := do
  let seqNo ← get .outOfBounds
  let iBlockOffset ← get .outOfBounds
  let numBlocks ← get .outOfBounds
  let bmapModified : UInt8 ← get .outOfBounds
  let _ ← take .outOfBounds 3
  pure ⟨seqNo, iBlockOffset, numBlocks, bmapModified != 0⟩

def putExtent (pad : UInt64 → Vector UInt8 3) (e : (_ : UInt64) × ExtMapVal) : List UInt8 :=
  put e.1 ++ putExtMapVal (pad e.1) e.2

def getExtent : Reader DeserializeError ((_ : UInt64) × ExtMapVal) := do
  let blockNo ← get .outOfBounds
  let val ← getExtMapVal
  pure ⟨blockNo, val⟩

def putDependency (e : (_ : UInt64) × UInt64) : List UInt8 := put e.1 ++ put e.2

def getDependency : Reader DeserializeError ((_ : UInt64) × UInt64) := do
  let k ← get .outOfBounds
  let v ← get .outOfBounds
  pure ⟨k, v⟩

namespace InodeLogEntry

/-- The bytes that `serialize` takes. -/
def calcSize (e : InodeLogEntry) : ℕ :=
  8 * 3 + 4 * 6 + 16 * 3 + 2 + 1 + 8 * 4 + e.extAdd.entries.length * (8 + 16) +
    e.extDel.entries.length * (8 + 16) + e.dependsOn.entries.length * 16

def serializeFields (pad : Padding) (e : InodeLogEntry) : List UInt8 :=
  put e.inode ++ put e.syncID ++
  put e.optfieldBitarr ++ put e.mode ++ put e.uid ++ put e.gid ++ put e.blockCount ++ put e.bitmapOp ++
  putTimeval e.atime ++ putTimeval e.mtime ++ putTimeval e.ctime ++
  put e.dentryCount ++ put e.nlink ++ put e.size ++
  put (UInt64.ofNat e.extAdd.entries.length) ++ e.extAdd.entries.flatMap (putExtent pad.add) ++
  put (UInt64.ofNat e.extDel.entries.length) ++ e.extDel.entries.flatMap (putExtent pad.del) ++
  put (UInt64.ofNat e.dependsOn.entries.length) ++ e.dependsOn.entries.flatMap putDependency

/-- The entry with its size in front. -/
def serialize (pad : Padding) (e : InodeLogEntry) : List UInt8 :=
  put (UInt64.ofNat (8 + (e.serializeFields pad).length)) ++ e.serializeFields pad

def fieldsOfBuf : Reader DeserializeError InodeLogEntry := do
  let inode ← get .outOfBounds
  let syncID ← get .outOfBounds
  let optfieldBitarr ← get .outOfBounds
  let mode ← get .outOfBounds
  let uid ← get .outOfBounds
  let gid ← get .outOfBounds
  let blockCount ← get .outOfBounds
  let bitmapOp ← get .outOfBounds
  let atime ← getTimeval
  let mtime ← getTimeval
  let ctime ← getTimeval
  let dentryCount ← get .outOfBounds
  let nlink ← get .outOfBounds
  let size ← get .outOfBounds
  let nExtAdd : UInt64 ← get .outOfBounds
  let extAdd ← readMap getExtent nExtAdd.toNat ∅
  let nExtDel : UInt64 ← get .outOfBounds
  let extDel ← readMap getExtent nExtDel.toNat ∅
  let ndependsOn : UInt64 ← get .outOfBounds
  let dependsOn ← readMap getDependency ndependsOn.toNat ∅
  pure { inode, syncID, optfieldBitarr, mode, uid, gid, blockCount, bitmapOp, atime, mtime, ctime, dentryCount,
         nlink, size, extAdd, extDel, dependsOn, extentSeqNo := none, minode := none }

def ofBuf (bufSize : ℕ) : Reader DeserializeError InodeLogEntry :=
  if bufSize < 8 then throw (.runtimeError "invalid buffer")
  else do
    let entrySize : UInt64 ← get .outOfBounds
    if bufSize < entrySize.toNat then throw (.runtimeError "invalid buffer - size too small")
    else fieldsOfBuf

end InodeLogEntry

/-- `JournalEntryState`. -/
inductive JournalEntryState where
  | prepare
  | queued
  | writeBody
  | flush
  | writeCommit
  | success
  | failure
  | deserializedErrorMagic
  | deserializedErrorEntrySize
  | deserializedPartial
  | deserialized
deriving Repr, DecidableEq

/-- `JournalEntry`. -/
structure JournalEntry where
  state : JournalEntryState
  ileVec : List InodeLogEntry
  startBlock : UInt64
  nblocks : UInt64
  ustimeSerialized : UInt64

namespace JournalEntry

/-- An entry before it has anything in it. -/
def new : JournalEntry := ⟨.prepare, [], 0, 0, 0⟩

/-- The bytes of the body. -/
def calcBodySize (je : JournalEntry) : ℕ := 48 + (je.ileVec.map InodeLogEntry.calcSize).sum

/-- The number of inode log entries. -/
def nIle (je : JournalEntry) : UInt64 := UInt64.ofNat je.ileVec.length

def serializeIles (pads : ℕ → Padding) : List InodeLogEntry → List UInt8
  | [] => []
  | e :: es => e.serialize (pads 0) ++ serializeIles (fun i => pads (i + 1)) es

/-- `serializeBody` at the time `now`: the bytes it writes, and the entry with its stamp. -/
def serializeBody (je : JournalEntry) (pads : ℕ → Padding) (now : UInt64) : List UInt8 × JournalEntry :=
  let iles := serializeIles pads je.ileVec
  let entrySize := UInt64.ofNat (48 + iles.length)
  (put jbodyMagic ++ put now ++ put entrySize ++ put je.nIle ++ put je.startBlock ++ put je.nblocks ++ iles,
    { je with ustimeSerialized := now })

/-- The header, or a state that says what is wrong with it. -/
def parseJournalEntryHeader (je : JournalEntry) : Reader DeserializeError JournalEntry := do
  let magic ← get .outOfBounds
  if magic ≠ jbodyMagic then pure { je with state := .deserializedErrorMagic }
  else
    let ustimeSerialized ← get .outOfBounds
    let jeSize : UInt64 ← get .outOfBounds
    if kMaxJournalBodySize < jeSize.toNat then
      pure { je with ustimeSerialized, state := .deserializedErrorEntrySize }
    else
      let _numIle : UInt64 ← get .outOfBounds
      let startBlock ← get .outOfBounds
      let nblocks ← get .outOfBounds
      pure { je with ustimeSerialized, startBlock, nblocks, state := .deserializedPartial }

/-- `JournalEntry(buf, buf_size)`: the header of an entry. -/
def ofBuf (buf : List UInt8) (bufSize : ℕ) : Except DeserializeError JournalEntry :=
  if bufSize < new.calcBodySize then throw (.runtimeError "buffer too small")
  else do
    let (je, _) ← new.parseJournalEntryHeader buf
    match je.state with
    | .deserializedPartial => pure je
    | .deserializedErrorMagic => throw (.runtimeError "JBODY_MAGIC mismatch")
    | .deserializedErrorEntrySize => throw (.runtimeError "Invalid journal entry size")
    | _ => throw (.runtimeError "Unknown deserialization state")

/-- For the next `n` entries at `ptr`, which moves by the size that the entry computes of itself. -/
def deserializeIles : ℕ → ℕ → List UInt8 → List InodeLogEntry → Except DeserializeError (List InodeLogEntry)
  | 0, _, _, ileVec => .ok ileVec
  | n + 1, remainingBufSize, ptr, ileVec =>
    if remainingBufSize = 0 then .ok ileVec
    else do
      let (ile, _) ← InodeLogEntry.ofBuf remainingBufSize ptr
      deserializeIles n (u64Sub remainingBufSize ile.calcSize) (ptr.drop ile.calcSize) (ileVec ++ [ile])

def bodyHeader : Reader DeserializeError (UInt64 × UInt64 × UInt64 × UInt64) := do
  let magic ← get .outOfBounds
  let ustime ← get .outOfBounds
  let jeSize ← get .outOfBounds
  let numIle ← get .outOfBounds
  pure (magic, ustime, jeSize, numIle)

/-- The whole entry, once its header was read. -/
def deserializeBody (je : JournalEntry) (buf : List UInt8) (bufSize : ℕ) : Except DeserializeError JournalEntry :=
  if bufSize < je.calcBodySize then throw (.runtimeError "buffer too small")
  else if je.state ≠ .deserializedPartial then throw (.runtimeError "Requires partially deserialized Jentry")
  else do
    let ((magic, ustime, jeSize, numIle), _) ← bodyHeader buf
    if magic ≠ jbodyMagic ∨ ustime ≠ je.ustimeSerialized then
      throw (.runtimeError "Requires same buffer used for partial deserialization")
    else if bufSize < jeSize.toNat then throw (.runtimeError "buffer too small")
    else
      let remainingBufSize := u64Sub jeSize.toNat je.calcBodySize
      let ileVec ← deserializeIles numIle.toNat remainingBufSize (buf.drop je.calcBodySize) je.ileVec
      pure { je with ileVec, state := .deserialized }

/-- The commit record, over the first 40 bytes of the buffer. -/
def serializeCommit (je : JournalEntry) (buf : List UInt8) : List UInt8 :=
  put jcommitMagic ++ put je.ustimeSerialized ++ put je.nIle ++ put je.startBlock ++ put je.nblocks ++ buf.drop 40

def commitWords : Reader DeserializeError (UInt64 × UInt64 × UInt64 × UInt64 × UInt64) := do
  let magic ← get .outOfBounds
  let ustime ← get .outOfBounds
  let nIle ← get .outOfBounds
  let startBlock ← get .outOfBounds
  let nblocks ← get .outOfBounds
  pure (magic, ustime, nIle, startBlock, nblocks)

/-- The record is the one that `serializeCommit` writes for the entry. -/
def isValidCommitBlock (je : JournalEntry) (commitBuf : List UInt8) (bufSize : ℕ) : Except DeserializeError Bool :=
  if bufSize < 64 then .ok false
  else do
    let ((magic, ustime, nIle, startBlock, nblocks), _) ← commitWords commitBuf
    .ok !(magic != jcommitMagic || ustime != je.ustimeSerialized || nIle != je.nIle ||
      startBlock != je.startBlock || nblocks != je.nblocks)

end JournalEntry

end Ufs.Impl
