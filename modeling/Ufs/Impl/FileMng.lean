import Ufs.Framework.Run
import Ufs.Impl.Inode

/-!
# Bitmaps of durable entries (`FsProc_FileMng.cc`, `FsProc_Journal.cc`)

Changes to bitmap blocks of other workers are sent to them as `BITMAP_CHANGES` messages, and wait
there until the blocks are read. `updateBlockBitmaps` and `processInodeBitmapChanges` insert into a
copy of `bitmapsToCheckpoint` (`auto`), and so they do here. A step is `none` when the source throws
or dereferences a null pointer, and when it is not the worker's turn.
-/

namespace Ufs.Impl

open Function (update)

/-- What a checkpoint writes: an inode or a bitmap block. -/
inductive Image where
  | dinode (d : CfsDinode)
  | bitmap (b : Bitmap)

/-- The changes of the bitmaps of another worker, as they are sent to it. -/
structure BitmapChangeOps where
  blocksToSet : List ℕ
  blocksToClear : List ℕ
  inodeBitmapChanges : AList fun _ : ℕ => Bool

/-- The bitmap changes that a journal entry carries. -/
structure BitmapChanges where
  blocksForBitmapSet : List ℕ
  blocksForBitmapClear : List ℕ
  inodeAllocDealloc : AList fun _ : ℕ => Bool

/-- The bitmaps in the block buffer (`dirty`), and the stable ones, `none` for a block that was not read yet. -/
structure FileMng where
  checkpointInput : CheckpointInput Image
  stableDataBitmaps : ℕ → Option Bitmap
  stableInodeBitmaps : ℕ → Option Bitmap
  dirtyBitmaps : ℕ → Bitmap
  dirtyInodeBitmaps : ℕ → Bitmap
  jinodeData : ℕ → CfsDinode

def InodeLogEntry.recordChanges (je : BitmapChanges) (e : InodeLogEntry) (blocksAddOrDel : BlocksAddOrDel) :
    BitmapChanges :=
  { blocksForBitmapSet := je.blocksForBitmapSet ++
      (blocksAddOrDel.entries.filter fun x => x.2).map fun x => x.1.toNat
    blocksForBitmapClear := je.blocksForBitmapClear ++
      (blocksAddOrDel.entries.filter fun x => !x.2).map fun x => x.1.toNat
    inodeAllocDealloc :=
      if e.has bitmapOpIDX then je.inodeAllocDealloc.insert (e.inode.toNat % 2 ^ 32) (e.bitmapOp == 1)
      else je.inodeAllocDealloc }

def InodeLogEntry.onSuccessfulJournalWrite (p : BitmapChanges × FileMng) (e : InodeLogEntry) :
    BitmapChanges × FileMng :=
  let (je, w) := p
  let ino := e.inode.toNat % 2 ^ 32
  let (jinodeData, blocksAddOrDel) := e.applyChangesTo (w.jinodeData ino) ∅
  (e.recordChanges je blocksAddOrDel,
    { w with
      jinodeData := update w.jinodeData ino jinodeData
      checkpointInput := { w.checkpointInput with
        inodesToCheckpoint := w.checkpointInput.inodesToCheckpoint.insert ino none } })

namespace FileMng

/-- One turn of the loop over `blocks_to_set`, with the copy of the map. -/
def setBlock (p : ToCheckpoint Image × FileMng) (blockNo : ℕ) : Option (ToCheckpoint Image × FileMng) :=
  let (bitmapsToCheckpoint, w) := p
  let lba := convPbaToLba blockNo % 2 ^ 32
  let bmapDiskBno := getBmapBlockForLba lba
  (w.stableDataBitmaps bmapDiskBno).map fun stableBmap =>
    (bitmapsToCheckpoint.insert bmapDiskBno none,
      { w with stableDataBitmaps :=
          update w.stableDataBitmaps bmapDiskBno (some (blockSetBit (lba % bpb) stableBmap)) })

def clearBlock (p : ToCheckpoint Image × FileMng) (blockNo : ℕ) : Option (ToCheckpoint Image × FileMng) :=
  let (bitmapsToCheckpoint, w) := p
  let lba := convPbaToLba blockNo % 2 ^ 32
  let bmapDiskBno := getBmapBlockForLba lba
  (w.stableDataBitmaps bmapDiskBno).map fun stableBmap =>
    (bitmapsToCheckpoint.insert bmapDiskBno none,
      { w with
        stableDataBitmaps :=
          update w.stableDataBitmaps bmapDiskBno (some (blockClearBit (lba % bpb) stableBmap))
        dirtyBitmaps :=
          update w.dirtyBitmaps bmapDiskBno (blockClearBit (lba % bpb) (w.dirtyBitmaps bmapDiskBno)) })

def updateBlockBitmaps (w : FileMng) (blocksToSet blocksToClear : List ℕ) : Option FileMng := do
  let bitmapsToCheckpoint := w.checkpointInput.bitmapsToCheckpoint
  let p ← blocksToSet.foldlM setBlock (bitmapsToCheckpoint, w)
  let p ← blocksToClear.foldlM clearBlock p
  -- the copy goes out of scope
  pure p.2

/-- One turn of the loop over `inodeBitmapChanges`, with the copy of the map. -/
def changeInode (p : ToCheckpoint Image × FileMng) (it : (_ : ℕ) × Bool) :
    Option (ToCheckpoint Image × FileMng) :=
  let (inodeBitmapsToCheckpoint, w) := p
  let ino := it.1
  let bmapDiskBno := getImapForInode ino
  (w.stableInodeBitmaps bmapDiskBno).map fun stableBmap =>
    (inodeBitmapsToCheckpoint.insert bmapDiskBno none,
      if it.2 then
        { w with stableInodeBitmaps :=
            update w.stableInodeBitmaps bmapDiskBno (some (blockSetBit (ino % bpb) stableBmap)) }
      else
        { w with
          stableInodeBitmaps :=
            update w.stableInodeBitmaps bmapDiskBno (some (blockClearBit (ino % bpb) stableBmap))
          dirtyInodeBitmaps := update w.dirtyInodeBitmaps bmapDiskBno
            (blockClearBit (ino % bpb) (w.dirtyInodeBitmaps bmapDiskBno)) })

def processInodeBitmapChanges (w : FileMng) (wid : ℕ) (inodeBitmapChanges : AList fun _ : ℕ => Bool) :
    Option FileMng :=
  if inodeBitmapChanges.entries ≠ [] ∧ wid ≠ 0 then none
  else do
    let inodeBitmapsToCheckpoint := w.checkpointInput.inodeBitmapsToCheckpoint
    let p ← inodeBitmapChanges.entries.foldlM changeInode (inodeBitmapsToCheckpoint, w)
    pure p.2

def processBitmapChanges (w : FileMng) (wid : ℕ) (changes : BitmapChangeOps) : Option FileMng := do
  let w ← w.processInodeBitmapChanges wid changes.inodeBitmapChanges
  w.updateBlockBitmaps changes.blocksToSet changes.blocksToClear

def copyBufToStableDataBitmap (w : FileMng) (bno : ℕ) (buf : Bitmap) : FileMng :=
  match w.stableDataBitmaps bno with
  | some _ => w
  | none =>
    { w with
      stableDataBitmaps := update w.stableDataBitmaps bno (some buf)
      dirtyBitmaps := update w.dirtyBitmaps bno buf }

def remoteBitmapsReady (w : FileMng) (changes : BitmapChangeOps) : Bool :=
  changes.blocksToClear.all fun pba => (w.stableDataBitmaps (getBmapBlockForPba pba)).isSome

end FileMng

def ownerOfBlock (pba : ℕ) : ℕ := getWidForBitmapBlock (getBmapBlockForPba pba)

namespace BitmapChanges

def empty : BitmapChanges := ⟨[], [], ∅⟩

/-- `widToBitmapOps[wid]`. The primary gets the changes to inode bitmaps. -/
def opsFor (je : BitmapChanges) (wid : ℕ) : BitmapChangeOps where
  blocksToSet := je.blocksForBitmapSet.filter fun b => ownerOfBlock b = wid
  blocksToClear := je.blocksForBitmapClear.filter fun b => ownerOfBlock b = wid
  inodeBitmapChanges := if wid = 0 then je.inodeAllocDealloc else ∅

def wids (je : BitmapChanges) : List ℕ :=
  ((je.blocksForBitmapSet ++ je.blocksForBitmapClear).map ownerOfBlock ++
    if je.inodeAllocDealloc.entries = [] then [] else [0]).dedup

end BitmapChanges

/-- The workers, and the messages between them about bitmaps. -/
structure Server where
  numThreads : ℕ
  workers : ℕ → FileMng
  ring : ℕ → List BitmapChangeOps
  waiting : ℕ → List BitmapChangeOps
  device : ℕ → Bitmap

namespace Server

def setWorker (s : Server) (wid : ℕ) (w : FileMng) : Server :=
  { s with workers := update s.workers wid w }

def updateBitmapsOnJournalWriteComplete (s : Server) (wid : ℕ) (je : BitmapChanges) : Option Server :=
  (if wid ∈ je.wids then (s.workers wid).processBitmapChanges wid (je.opsFor wid)
    else some (s.workers wid)).map fun w =>
  { s.setWorker wid w with
    ring := fun v => if v ∈ je.wids ∧ v ≠ wid then s.ring v ++ [je.opsFor v] else s.ring v }

/-- What happens at a worker. -/
inductive Event where
  | journalWriteComplete (wid : ℕ) (ileVec : List InodeLogEntry)
  | bitmapChanges (wid : ℕ)
  | bitmapRead (wid bno : ℕ)
  | bmapsReady (wid : ℕ)

def applyEntry (w : FileMng) (ileVec : List InodeLogEntry) : BitmapChanges × FileMng :=
  ileVec.foldl InodeLogEntry.onSuccessfulJournalWrite (.empty, w)

/-- The entry is applied, and the changes of other workers' bitmaps are sent to them. -/
def journalWriteComplete (s : Server) (wid : ℕ) (ileVec : List InodeLogEntry) : Option Server :=
  let (je, w) := applyEntry (s.workers wid) ileVec
  (s.setWorker wid w).updateBitmapsOnJournalWriteComplete wid je

/-- A request for bitmap blocks that were not read yet waits. -/
def processRemoteBitmapChanges (s : Server) (wid : ℕ) (changes : BitmapChangeOps) : Option Server :=
  if (s.workers wid).remoteBitmapsReady changes then
    ((s.workers wid).processBitmapChanges wid changes).map (s.setWorker wid)
  else some { s with waiting := update s.waiting wid (s.waiting wid ++ [changes]) }

/-- One event; there is no result where the code fails an assertion. -/
def step (e : Event) (s : Server) : Option Server :=
  match e with
  | .journalWriteComplete wid ileVec => if wid < s.numThreads then s.journalWriteComplete wid ileVec else none
  | .bitmapChanges wid =>
    match s.ring wid with
    | changes :: rest =>
      if wid < s.numThreads then
        { s with ring := update s.ring wid rest }.processRemoteBitmapChanges wid changes
      else none
    | [] => none
  | .bitmapRead wid bno =>
    if wid < s.numThreads then some (s.setWorker wid ((s.workers wid).copyBufToStableDataBitmap bno (s.device bno)))
    else none
  | .bmapsReady wid =>
    match s.waiting wid with
    | changes :: rest =>
      if wid < s.numThreads ∧ (s.workers wid).remoteBitmapsReady changes = true then
        { s with waiting := update s.waiting wid rest }.processRemoteBitmapChanges wid changes
      else none
    | [] => none

def checkpointWorker (w : FileMng) : CheckpointWorker Image where
  checkpointInput := w.checkpointInput
  checkpointInProgress := false
  images :=
    { jinodeData := fun ino => .dinode (w.jinodeData ino)
      stableDataBitmap := fun b => .bitmap ((w.stableDataBitmaps b).getD fun _ => false)
      stableInodeBitmap := fun b => .bitmap ((w.stableInodeBitmaps b).getD fun _ => false) }
  size := 0
  zmallocInodes := true
  zmallocBitmaps := true

def checkpointWorkers (s : Server) : List (CheckpointWorker Image) :=
  (List.range s.numThreads).map fun wid => checkpointWorker (s.workers wid)

/-- The bitmap blocks on the device after a write. -/
def written (dev : ℕ → Bitmap) (r : WriteReq Image) : ℕ → Bitmap :=
  match r.payload with
  | some (.bitmap b) => update dev (r.lba / 8) b
  | _ => dev

/-- The server after start-up: no changes, and no bitmap in memory. -/
def start (numThreads : ℕ) (device : ℕ → Bitmap) (inodes : ℕ → CfsDinode) : Server where
  numThreads := numThreads
  workers := fun wid =>
    { checkpointInput := .new
      stableDataBitmaps := fun _ => none
      stableInodeBitmaps := fun b => if wid = 0 then some (device b) else none
      dirtyBitmaps := fun _ _ => false
      dirtyInodeBitmaps := device
      jinodeData := inodes }
  ring := fun _ => []
  waiting := fun _ => []
  device := device

end Server

end Ufs.Impl
