import Mathlib.Data.Finset.Basic

/-!
# Inodes that move between workers (`FsProc_FileMngOps.cc`, `FsProc_FileMng.cc`)

A worker that would send the `Ctx` to itself goes on at once (`SendMessageOrExecute`); here the
message is put in the ring from the worker to itself, and the worker does nothing else before it has
taken it. The source has one ring for each receiver; here there is one for each sender too, and the
first message of any of them is taken, so that every order is that of some run. Inodes and contexts
are objects (`minode`, `ctx`); a context that was deleted is kept with a mark. The block buffers
that move with an inode are left out.
-/

namespace Ufs.Impl

open Function (update)

def kMasterWidConst : ℕ := 0

def kUnknownManageWorkerId : ℤ := -1

/-- The part of `InMemInode` that a reassignment changes. -/
structure InMemInode where
  mngWid : ℤ
  appFdMap : Finset (ℕ × ℕ)

namespace InMemInode

def setManageWorkerId (i : InMemInode) (curOwnerWid wid : ℤ) : InMemInode :=
  if wid ≠ kUnknownManageWorkerId ∧ curOwnerWid ≠ i.mngWid then i else { i with mngWid := wid }

def setManageWorkerUnknown (i : InMemInode) (curOwnerWid : ℤ) : InMemInode :=
  if curOwnerWid ≠ i.mngWid then i else { i with mngWid := kUnknownManageWorkerId }

end InMemInode

/-- Without its block buffers. -/
structure ExportedInode where
  ino : ℕ
  exporterWid : ℕ
  importerWid : ℕ
  inExporterDirtySet : Bool
  inExporterUnlinkedSet : Bool
  inExporterJournal : Bool

/-! ## `FileMng::ReassignmentOp` -/

namespace ReassignmentOp

/-- `FileInodeReassignment::Ctx::State`. -/
inductive State where
  | kPrimaryRequestNewOwnerImport
  | kNewOwnerImport
  | kPrimaryImportSuccessNotification
  | kOldOwnerExportSuccessNotification
deriving Repr, DecidableEq

/-- The callbacks that a reassignment is started with. -/
inductive CallbackFn where
  | ownerDeallocResources
  | other
deriving Repr, DecidableEq

/-- `FileInodeReassignment::Ctx`. -/
structure Ctx where
  state : State
  oldOwnerCallback : Option CallbackFn
  newOwnerCallback : Option CallbackFn
  exportedInode : ExportedInode
  deleted : Bool

end ReassignmentOp

open ReassignmentOp

/-- The messages between the workers about inodes. -/
inductive OwnerMessage where
  | kReassignment (ctx : ℕ)
  | kOwnerUnlinkInode (ino : ℕ)
deriving Repr, DecidableEq

/-- What the trace records. -/
inductive OwnerEvent where
  | exported (wid ino : ℕ)
  | imported (wid ino : ℕ)
  | oldOwnerCallback (ctx : ℕ)
  | newOwnerCallback (ctx : ℕ)
deriving Repr, DecidableEq

/-- `inodeMap_`, `dirtyInodeSet_` and `unlinkedInodeSet_` of its `FsImpl`,
`checkpointInput->inodesToCheckpoint`, and `ownerAppFdMap_`, which gives the inode of a descriptor.
-/
structure OwnerState where
  inodeMap : Finset ℕ
  dirtyInodeSet : Finset ℕ
  unlinkedInodeSet : Finset ℕ
  inodesToCheckpoint : Finset ℕ
  ownerAppFdMap : ℕ × ℕ → Option ℕ

/-- With what only the primary has: `inodeToOwnerMap_`, `unsafe_reassigned_inodes` and
`recentlyReassignedAppFdToInodes_`. -/
structure Owners where
  worker : ℕ → OwnerState
  minode : ℕ → InMemInode
  ctx : ℕ → Option Ctx
  nextCtx : ℕ
  ring : ℕ → ℕ → List OwnerMessage
  inodeToOwnerMap : ℕ → Option ℤ
  unsafeReassignedInodes : Finset ℕ
  recentlyReassignedAppFdToInodes : ℕ × ℕ → Option ℕ
  trace : List OwnerEvent

namespace Owners

def setWorker (s : Owners) (w : ℕ) (x : OwnerState) : Owners :=
  { s with worker := update s.worker w x }

def setMinode (s : Owners) (ino : ℕ) (x : InMemInode) : Owners :=
  { s with minode := update s.minode ino x }

def setCtx (s : Owners) (id : ℕ) (c : Ctx) : Owners :=
  { s with ctx := update s.ctx id (some c) }

def setRing (s : Owners) (src dst : ℕ) (l : List OwnerMessage) : Owners :=
  { s with ring := update s.ring src (update (s.ring src) dst l) }

/-- `messenger->send_message`, by worker `src`. -/
def sendMessage (s : Owners) (src dst : ℕ) (msg : OwnerMessage) : Owners :=
  s.setRing src dst (s.ring src dst ++ [msg])

/-- The event is recorded. -/
def log (s : Owners) (e : OwnerEvent) : Owners := { s with trace := e :: s.trace }

/-! ## The primary's map -/

def markInodeOwnershipChangeInProgress (s : Owners) (ino : ℕ) : Owners :=
  { s with inodeToOwnerMap := update s.inodeToOwnerMap ino (some (-1)) }

def markInodeOwnershipUpdated (s : Owners) (ino wid : ℕ) : Owners :=
  if wid = kMasterWidConst then { s with inodeToOwnerMap := update s.inodeToOwnerMap ino none }
  else { s with inodeToOwnerMap := update s.inodeToOwnerMap ino (some wid) }

def getInodeOwner (s : Owners) (ino : ℕ) : ℤ := (s.inodeToOwnerMap ino).getD kMasterWidConst

def addRecentlyReassignedInodeFds (s : Owners) (ino : ℕ) : Owners :=
  { s with recentlyReassignedAppFdToInodes := fun q =>
      if q ∈ (s.minode ino).appFdMap then some ino else s.recentlyReassignedAppFdToInodes q }

/-! ## Descriptors -/

/-- `emplace` leaves a descriptor that is there. -/
def addFdMappingOnOpen (s : Owners) (w ino : ℕ) (q : ℕ × ℕ) : Owners :=
  let i := s.minode ino
  let x := s.worker w
  (s.setMinode ino { i with appFdMap := insert q i.appFdMap }).setWorker w
    { x with ownerAppFdMap := update x.ownerAppFdMap q (some ((x.ownerAppFdMap q).getD ino)) }

def delFdMappingOnClose (s : Owners) (w ino : ℕ) (q : ℕ × ℕ) : Owners :=
  let i := s.minode ino
  let x := s.worker w
  (s.setMinode ino { i with appFdMap := i.appFdMap.erase q }).setWorker w
    { x with ownerAppFdMap := update x.ownerAppFdMap q none }

/-! ## Export and import -/

def delExportedInodeFdMappings (x : OwnerState) (i : InMemInode) : OwnerState :=
  { x with ownerAppFdMap := fun q => if q ∈ i.appFdMap then none else x.ownerAppFdMap q }

/-- `insert` leaves the descriptors that are there. -/
def addImportedInodeFdMappings (x : OwnerState) (ino : ℕ) (i : InMemInode) : OwnerState :=
  { x with ownerAppFdMap := fun q =>
      if q ∈ i.appFdMap then some ((x.ownerAppFdMap q).getD ino) else x.ownerAppFdMap q }

def withoutInode (x : OwnerState) (ino : ℕ) (i : InMemInode) : OwnerState :=
  delExportedInodeFdMappings
    { x with
      inodeMap := x.inodeMap.erase ino
      dirtyInodeSet := x.dirtyInodeSet.erase ino
      unlinkedInodeSet := x.unlinkedInodeSet.erase ino
      inodesToCheckpoint := x.inodesToCheckpoint.erase ino } i

def exportedInode (x : OwnerState) (w ino importer : ℕ) : ExportedInode :=
  { ino := ino
    exporterWid := w
    importerWid := importer
    inExporterDirtySet := decide (ino ∈ x.dirtyInodeSet)
    inExporterUnlinkedSet := decide (ino ∈ x.unlinkedInodeSet)
    inExporterJournal := decide (ino ∈ x.inodesToCheckpoint) }

def exportInode (s : Owners) (w ino : ℕ) : Owners :=
  let s := s.setWorker w (withoutInode (s.worker w) ino (s.minode ino))
  let s := s.setMinode ino ((s.minode ino).setManageWorkerUnknown w)
  s.log (.exported w ino)

def insertIf (b : Bool) (ino : ℕ) (l : Finset ℕ) : Finset ℕ := if b then insert ino l else l

def withInode (x : OwnerState) (exp : ExportedInode) (i : InMemInode) : OwnerState :=
  addImportedInodeFdMappings
    { x with
      inodeMap := insert exp.ino x.inodeMap
      dirtyInodeSet := insertIf exp.inExporterDirtySet exp.ino x.dirtyInodeSet
      unlinkedInodeSet := insertIf exp.inExporterUnlinkedSet exp.ino x.unlinkedInodeSet
      inodesToCheckpoint := insertIf exp.inExporterJournal exp.ino x.inodesToCheckpoint } exp.ino i

def importInode (s : Owners) (w : ℕ) (exp : ExportedInode) : Owners :=
  let s := s.setWorker w (withInode (s.worker w) exp (s.minode exp.ino))
  s.log (.imported w exp.ino)

/-! ## The steps of a reassignment -/

def sendMessageOrExecute (s : Owners) (w dstWid id : ℕ) : Owners :=
  s.sendMessage w dstWid (.kReassignment id)

/-- `new Ctx()`. -/
def addCtx (s : Owners) (c : Ctx) : Owners :=
  { s with ctx := update s.ctx s.nextCtx (some c), nextCtx := s.nextCtx + 1 }

/-- The primary keeps a pointer to an inode that it exports. -/
def keepUnsafe (s : Owners) (exporter ino : ℕ) : Owners :=
  if exporter = kMasterWidConst then
    { s with unsafeReassignedInodes := insert ino s.unsafeReassignedInodes }
  else s

def dropUnsafe (s : Owners) (importer ino : ℕ) : Owners :=
  if importer = kMasterWidConst then
    { s with unsafeReassignedInodes := s.unsafeReassignedInodes.erase ino }
  else s

/-- `none` when `exportInode` does not find the inode and returns false. -/
def ownerExportThroughPrimary (s : Owners) (w ino newOwnerWid : ℕ)
    (oldOwnerCallback newOwnerCallback : Option CallbackFn) : Option Owners :=
  if ino ∈ (s.worker w).inodeMap then
    let exp := exportedInode (s.worker w) w ino newOwnerWid
    let id := s.nextCtx
    let s := s.exportInode w ino
    let s := s.addCtx ⟨.kPrimaryRequestNewOwnerImport, oldOwnerCallback, newOwnerCallback, exp, false⟩
    let s := s.keepUnsafe exp.exporterWid ino
    some (s.sendMessageOrExecute w kMasterWidConst id)
  else none

def primaryRequestNewOwnerImport (s : Owners) (w id : ℕ) (c : Ctx) : Owners :=
  let exp := c.exportedInode
  let s := s.markInodeOwnershipChangeInProgress exp.ino
  let s := s.addRecentlyReassignedInodeFds exp.ino
  let s := s.setMinode exp.ino ((s.minode exp.ino).setManageWorkerId kUnknownManageWorkerId exp.importerWid)
  let s := s.setCtx id { c with state := .kNewOwnerImport }
  s.sendMessageOrExecute w exp.importerWid id

def importExported (s : Owners) (w id : ℕ) (c : Ctx) : Owners :=
  let exp := c.exportedInode
  let s := s.importInode w exp
  let s := s.dropUnsafe exp.importerWid exp.ino
  if c.newOwnerCallback.isSome then s.log (.newOwnerCallback id) else s

def notifyImported (s : Owners) (w id : ℕ) (c : Ctx) : Owners :=
  let s := s.setCtx id { c with state := .kPrimaryImportSuccessNotification }
  s.sendMessageOrExecute w kMasterWidConst id

def newOwnerImport (callback : Owners → Owners) (s : Owners) (w id : ℕ) (c : Ctx) : Owners :=
  let s := s.importExported w id c
  let s := if c.newOwnerCallback.isSome then callback s else s
  s.notifyImported w id c

def primaryImportSuccessNotification (s : Owners) (w id : ℕ) (c : Ctx) : Owners :=
  let exp := c.exportedInode
  let s := s.markInodeOwnershipUpdated exp.ino exp.importerWid
  let s := s.setCtx id { c with state := .kOldOwnerExportSuccessNotification }
  s.sendMessageOrExecute w exp.exporterWid id

def oldOwnerExportSuccessNotification (callback : Owners → Owners) (s : Owners) (id : ℕ) (c : Ctx) : Owners :=
  let s := if c.oldOwnerCallback.isSome then callback (s.log (.oldOwnerCallback id)) else s
  s.setCtx id { c with deleted := true }

/-- `none` for a context that is not there. -/
def processReassignmentCtx (callback : ℕ → Ctx → Owners → Owners) (s : Owners) (w id : ℕ) : Option Owners :=
  (s.ctx id).bind fun c =>
    if c.deleted then none
    else match c.state with
      | .kPrimaryRequestNewOwnerImport => some (s.primaryRequestNewOwnerImport w id c)
      | .kNewOwnerImport => some (s.newOwnerImport (callback w c) w id c)
      | .kPrimaryImportSuccessNotification => some (s.primaryImportSuccessNotification w id c)
      | .kOldOwnerExportSuccessNotification => some (s.oldOwnerExportSuccessNotification (callback w c) id c)

/-! ## Steps -/

/-- Worker `w` is not between two steps of one context. -/
def Idle (s : Owners) (w : ℕ) : Prop := s.ring w w = []

instance (s : Owners) (w : ℕ) : Decidable (s.Idle w) := decEq (s.ring w w) []

/-- `recv_message` by worker `dst`: the first message of a ring, and what is left. -/
def recvMessage (s : Owners) (src dst : ℕ) : Option (OwnerMessage × Owners) :=
  match s.ring src dst with
  | [] => none
  | msg :: rest => if src = dst ∨ s.Idle dst then some (msg, s.setRing src dst rest) else none

/-- Worker `dst` takes the first message of the ring from `src` and handles it. -/
def process (callback : ℕ → Ctx → Owners → Owners) (s : Owners) (src dst : ℕ) : Option Owners :=
  (s.recvMessage src dst).bind fun x =>
    match x.1 with
    | .kReassignment id => x.2.processReassignmentCtx callback dst id
    | .kOwnerUnlinkInode _ => none

/-- A reassignment begins, or a message is handled. -/
inductive Label where
  | start (w ino newOwnerWid : ℕ) (oldOwnerCallback newOwnerCallback : Option CallbackFn)
  | process (src dst : ℕ)
deriving Repr, DecidableEq

/-- One step; a worker begins a reassignment when it handles no message. -/
def step (callback : ℕ → Ctx → Owners → Owners) : Label → Owners → Option Owners
  | .start w ino newOwnerWid old new, s =>
    if s.Idle w then s.ownerExportThroughPrimary w ino newOwnerWid old new else none
  | .process src dst, s => s.process callback src dst

/-- Every inode is with the primary. -/
def start (inodes : Finset ℕ) (fds : ℕ → Finset (ℕ × ℕ)) (fdMap : ℕ × ℕ → Option ℕ) : Owners :=
  { worker := fun w =>
      if w = kMasterWidConst then ⟨inodes, ∅, ∅, ∅, fdMap⟩ else ⟨∅, ∅, ∅, ∅, fun _ => none⟩
    minode := fun ino => ⟨kMasterWidConst, fds ino⟩
    ctx := fun _ => none
    nextCtx := 0
    ring := fun _ _ => []
    inodeToOwnerMap := fun _ => none
    unsafeReassignedInodes := ∅
    recentlyReassignedAppFdToInodes := fun _ => none
    trace := [] }

end Owners

end Ufs.Impl
