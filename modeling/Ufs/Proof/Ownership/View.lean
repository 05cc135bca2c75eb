import Ufs.Framework.Run
import Ufs.Impl.Reassignment

/-!
# Who holds an inode

What a reassignment changes is a part of the state of the workers (`View`): which worker holds which
inode, the contexts and the rings of contexts, and the primary's bookkeeping. What a worker does
with a context is a `View.Step` (`process_view`), and so is the start of an export (`export_view`);
everything else leaves the view as it is, and a system in which the workers do more keeps every
invariant of the protocol.
-/

namespace Ufs.Proof.Ownership

open Impl ReassignmentOp
open Function (update update_apply)

/-- What the protocol of reassignments is about, without descriptors and inode contents. -/
@[ext] structure View where
  held : ℕ → Finset ℕ
  mngWid : ℕ → ℤ
  ownerMap : ℕ → Option ℤ
  away : Finset ℕ
  ctx : ℕ → Option Ctx
  nextCtx : ℕ
  queue : ℕ → ℕ → List ℕ
  trace : List OwnerEvent

/-- The context that a message names. -/
def ctxOf : OwnerMessage → Option ℕ
  | .kReassignment id => some id
  | .kOwnerUnlinkInode _ => none

/-- The view of the model's state. -/
def view (s : Owners) : View :=
  { held := fun w => (s.worker w).inodeMap
    mngWid := fun ino => (s.minode ino).mngWid
    ownerMap := s.inodeToOwnerMap
    away := s.unsafeReassignedInodes
    ctx := s.ctx
    nextCtx := s.nextCtx
    queue := fun a b => (s.ring a b).filterMap ctxOf
    trace := s.trace }

namespace View

/-- The primary's map, with itself where it has no entry. -/
def owner (v : View) (ino : ℕ) : ℤ := (v.ownerMap ino).getD kMasterWidConst

def setQueue (v : View) (a b : ℕ) (l : List ℕ) : View :=
  { v with queue := update v.queue a (update (v.queue a) b l) }

theorem setQueue_queue (v : View) (a b a' b' : ℕ) (l : List ℕ) :
    (v.setQueue a b l).queue a' b' = if a' = a ∧ b' = b then l else v.queue a' b' := by
  simp only [setQueue, update_apply]
  by_cases ha : a' = a
  · subst ha
    simp [update_apply]
  · simp [ha]

def send (v : View) (a b id : ℕ) : View := v.setQueue a b (v.queue a b ++ [id])

def setHeld (v : View) (w : ℕ) (l : Finset ℕ) : View := { v with held := update v.held w l }

def setMngWid (v : View) (ino : ℕ) (z : ℤ) : View := { v with mngWid := update v.mngWid ino z }

def setOwner (v : View) (ino : ℕ) (o : Option ℤ) : View := { v with ownerMap := update v.ownerMap ino o }

theorem setOwner_owner_self (v : View) (ino : ℕ) (o : Option ℤ) :
    (v.setOwner ino o).owner ino = o.getD kMasterWidConst := by
  simp [owner, setOwner]

theorem setOwner_owner_of_ne (v : View) {ino ino' : ℕ} (h : ino' ≠ ino) (o : Option ℤ) :
    (v.setOwner ino o).owner ino' = v.owner ino' := by
  simp [owner, setOwner, h]

def setCtx (v : View) (id : ℕ) (c : Ctx) : View := { v with ctx := update v.ctx id (some c) }

theorem setCtx_ctx_self (v : View) (id : ℕ) (c : Ctx) : (v.setCtx id c).ctx id = some c := Function.update_self ..

theorem setCtx_ctx_of_ne (v : View) {id id' : ℕ} (h : id' ≠ id) (c : Ctx) : (v.setCtx id c).ctx id' = v.ctx id' :=
  Function.update_of_ne h ..

def addCtx (v : View) (c : Ctx) : View :=
  { v with ctx := update v.ctx v.nextCtx (some c), nextCtx := v.nextCtx + 1 }

def setAway (v : View) (l : Finset ℕ) : View := { v with away := l }

def log (v : View) (e : OwnerEvent) : View := { v with trace := e :: v.trace }

def logIf (v : View) (b : Bool) (e : OwnerEvent) : View := if b then v.log e else v

/-- Worker `w` exports the inode and tells the primary. -/
def startExport (v : View) (w ino : ℕ) (c : Ctx) : View :=
  let id := v.nextCtx
  let v := v.setHeld w ((v.held w).erase ino)
  let v := v.setMngWid ino (if v.mngWid ino = w then kUnknownManageWorkerId else v.mngWid ino)
  let v := (v.log (.exported w ino)).addCtx c
  let v := v.setAway (if w = kMasterWidConst then insert ino v.away else v.away)
  v.send w kMasterWidConst id

/-- Worker `w` handles the message of context `c`. -/
def advance (v : View) (w id : ℕ) (c : Ctx) : View :=
  let exp := c.exportedInode
  match c.state with
  | .kPrimaryRequestNewOwnerImport =>
    let v := v.setOwner exp.ino (some (-1))
    let v := v.setMngWid exp.ino
      (if v.mngWid exp.ino = kUnknownManageWorkerId then exp.importerWid else v.mngWid exp.ino)
    (v.setCtx id { c with state := .kNewOwnerImport }).send w exp.importerWid id
  | .kNewOwnerImport =>
    let v := (v.setHeld w (insert exp.ino (v.held w))).log (.imported w exp.ino)
    let v := v.setAway (if exp.importerWid = kMasterWidConst then v.away.erase exp.ino else v.away)
    let v := v.logIf c.newOwnerCallback.isSome (.newOwnerCallback id)
    (v.setCtx id { c with state := .kPrimaryImportSuccessNotification }).send w kMasterWidConst id
  | .kPrimaryImportSuccessNotification =>
    let v := v.setOwner exp.ino (if exp.importerWid = kMasterWidConst then none else some exp.importerWid)
    (v.setCtx id { c with state := .kOldOwnerExportSuccessNotification }).send w exp.exporterWid id
  | .kOldOwnerExportSuccessNotification =>
    (v.logIf c.oldOwnerCallback.isSome (.oldOwnerCallback id)).setCtx id { c with deleted := true }

/-- A step of the protocol: a worker exports an inode that it holds, or takes the first context of a
ring. -/
inductive Step (v : View) : View → Prop
  | start {w ino : ℕ} {c : Ctx} (held : ino ∈ v.held w) (state : c.state = .kPrimaryRequestNewOwnerImport)
      (inode : c.exportedInode.ino = ino) (exporter : c.exportedInode.exporterWid = w)
      (live : c.deleted = false) : Step v (v.startExport w ino c)
  | take {a b id : ℕ} {rest : List ℕ} {c : Ctx} (queue : v.queue a b = id :: rest) (ctx : v.ctx id = some c)
      (live : c.deleted = false) : Step v ((v.setQueue a b rest).advance b id c)

end View

/-! ## The workers' steps -/

theorem view_setRing (s : Owners) (a b : ℕ) (l : List OwnerMessage) :
    view (s.setRing a b l) = (view s).setQueue a b (l.filterMap ctxOf) := by
  ext1 <;> try rfl
  funext a' b'
  rw [View.setQueue_queue]
  simp only [view, Owners.setRing, update_apply]
  by_cases ha : a' = a
  · subst ha
    by_cases hb : b' = b <;> simp [hb]
  · simp [ha]

theorem view_sendMessageOrExecute (s : Owners) (w dst id : ℕ) :
    view (s.sendMessageOrExecute w dst id) = (view s).send w dst id := by
  rw [Owners.sendMessageOrExecute, Owners.sendMessage, view_setRing, View.send, List.filterMap_append]
  rfl

variable {a b : ℕ} {msg : OwnerMessage}

theorem view_sendMessage_other {s : Owners} (h : ctxOf msg = none) : view (s.sendMessage a b msg) = view s := by
  rw [Owners.sendMessage, view_setRing, List.filterMap_append]
  ext1 <;> try rfl
  funext a' b'
  rw [View.setQueue_queue]
  split_ifs with hab
  · simp [view, h, hab.1, hab.2]
  · rfl

theorem recvMessage_eq_some {s s₁ : Owners} (h : s.recvMessage a b = some (msg, s₁)) :
    ∃ rest, s.ring a b = msg :: rest ∧ (a = b ∨ s.Idle b) ∧ s₁ = s.setRing a b rest := by
  unfold Owners.recvMessage at h
  split at h
  · cases h
  next m rest hr =>
    split_ifs at h with hi
    cases h
    exact ⟨rest, hr, hi, rfl⟩

section

variable (s : Owners)

include s

theorem view_setMinode (ino : ℕ) (i : InMemInode) : view (s.setMinode ino i) = (view s).setMngWid ino i.mngWid := by
  ext1 <;> try rfl
  funext ino'
  simp only [view, View.setMngWid, Owners.setMinode, update_apply]
  split_ifs <;> rfl

theorem view_setWorker (w : ℕ) (x : OwnerState) : view (s.setWorker w x) = (view s).setHeld w x.inodeMap := by
  ext1 <;> try rfl
  funext w'
  simp only [view, View.setHeld, Owners.setWorker, update_apply]
  split_ifs <;> rfl

theorem view_log (e : OwnerEvent) : view (s.log e) = (view s).log e := rfl

theorem view_setCtx (id : ℕ) (c : Ctx) : view (s.setCtx id c) = (view s).setCtx id c := rfl

theorem view_addCtx (c : Ctx) : view (s.addCtx c) = (view s).addCtx c := rfl

theorem view_keepUnsafe (w ino : ℕ) : view (s.keepUnsafe w ino) =
    (view s).setAway (if w = kMasterWidConst then insert ino (view s).away else (view s).away) := by
  unfold Owners.keepUnsafe
  split_ifs <;> rfl

theorem view_dropUnsafe (w ino : ℕ) : view (s.dropUnsafe w ino) =
    (view s).setAway (if w = kMasterWidConst then (view s).away.erase ino else (view s).away) := by
  unfold Owners.dropUnsafe
  split_ifs <;> rfl

theorem view_importInode (w : ℕ) (exp : ExportedInode) : view (s.importInode w exp) =
    ((view s).setHeld w (insert exp.ino ((view s).held w))).log (.imported w exp.ino) := by
  rw [Owners.importInode, view_log, view_setWorker]
  rfl

theorem view_markInodeOwnershipUpdated (ino wid : ℕ) : view (s.markInodeOwnershipUpdated ino wid) =
      (view s).setOwner ino (if wid = kMasterWidConst then none else some (wid : ℤ)) := by
  unfold Owners.markInodeOwnershipUpdated
  split_ifs <;> rfl

end

theorem setManageWorkerUnknown_mngWid (i : InMemInode) (w : ℤ) :
    (i.setManageWorkerUnknown w).mngWid = if i.mngWid = w then kUnknownManageWorkerId else i.mngWid := by
  unfold InMemInode.setManageWorkerUnknown
  by_cases h : i.mngWid = w
  · simp [h]
  · simp [h, Ne.symm h]

theorem setManageWorkerId_mngWid (i : InMemInode) (w : ℕ) : (i.setManageWorkerId kUnknownManageWorkerId w).mngWid =
      if i.mngWid = kUnknownManageWorkerId then (w : ℤ) else i.mngWid := by
  have hw : (w : ℤ) ≠ kUnknownManageWorkerId := by unfold kUnknownManageWorkerId; omega
  unfold InMemInode.setManageWorkerId
  by_cases h : i.mngWid = kUnknownManageWorkerId
  · simp [h]
  · simp [h, hw, Ne.symm h]

theorem export_view {s s' : Owners} {w ino dst : ℕ} {old new : Option CallbackFn}
    (h : s.ownerExportThroughPrimary w ino dst old new = some s') :
      ino ∈ (view s).held w ∧ view s' = (view s).startExport w ino
        ⟨.kPrimaryRequestNewOwnerImport, old, new, Owners.exportedInode (s.worker w) w ino dst, false⟩ := by
  unfold Owners.ownerExportThroughPrimary at h
  split_ifs at h with hin
  cases h
  refine ⟨hin, ?_⟩
  rw [view_sendMessageOrExecute, view_keepUnsafe, view_addCtx, Owners.exportInode, view_log, view_setMinode,
    setManageWorkerUnknown_mngWid, view_setWorker]
  rfl

theorem view_notifyImported {s s₁ : Owners} {w id : ℕ} {c : Ctx} (hs : c.state = .kNewOwnerImport)
    (h : view s₁ = view (s.importExported w id c)) : view (s₁.notifyImported w id c) = (view s).advance w id c := by
  rw [Owners.notifyImported, view_sendMessageOrExecute, view_setCtx, h, Owners.importExported]
  simp only [View.advance, hs, View.logIf]
  by_cases hn : c.newOwnerCallback.isSome
  · rw [if_pos hn, if_pos hn, view_log, view_dropUnsafe, view_importInode]
  · rw [if_neg hn, if_neg hn, view_dropUnsafe, view_importInode]

section

variable {callback : ℕ → Ctx → Owners → Owners} (hcb : ∀ w c s, view (callback w c s) = view s)

include hcb

theorem process_view {s s' : Owners} (h : s.process callback a b = some s') : ∃ id rest c,
      (view s).queue a b = id :: rest ∧ (view s).ctx id = some c ∧ c.deleted = false ∧
        view s' = ((view s).setQueue a b rest).advance b id c := by
  obtain ⟨⟨msg, s1⟩, hrecv, h⟩ := Option.bind_eq_some_iff.1 h
  obtain ⟨rest, hr, -, rfl⟩ := recvMessage_eq_some hrecv
  cases msg with
  | kOwnerUnlinkInode ino => cases h
  | kReassignment id =>
  simp only [Owners.processReassignmentCtx] at h
  obtain ⟨c, hc, h⟩ := Option.bind_eq_some_iff.1 h
  split_ifs at h with hd
  refine ⟨id, rest.filterMap ctxOf, c, by simp [view, hr, ctxOf], hc, by simpa using hd, ?_⟩
  rw [← view_setRing]
  generalize s.setRing a b rest = s2 at *
  cases hs : c.state with
  | kPrimaryRequestNewOwnerImport =>
    simp only [hs, Option.some.injEq] at h
    subst h
    rw [Owners.primaryRequestNewOwnerImport, view_sendMessageOrExecute, view_setCtx, view_setMinode,
      setManageWorkerId_mngWid]
    simp only [View.advance, hs]
    rfl
  | kNewOwnerImport =>
    simp only [hs, Option.some.injEq] at h
    subst h
    have hkept : view (if c.newOwnerCallback.isSome then callback b c (s2.importExported b id c)
        else s2.importExported b id c) = view (s2.importExported b id c) := by
      split_ifs
      · exact hcb _ _ _
      · rfl
    rw [Owners.newOwnerImport]
    exact view_notifyImported hs hkept
  | kPrimaryImportSuccessNotification =>
    simp only [hs, Option.some.injEq] at h
    subst h
    rw [Owners.primaryImportSuccessNotification, view_sendMessageOrExecute, view_setCtx, view_markInodeOwnershipUpdated]
    simp only [View.advance, hs]
  | kOldOwnerExportSuccessNotification =>
    simp only [hs, Option.some.injEq] at h
    subst h
    rw [Owners.oldOwnerExportSuccessNotification, view_setCtx]
    simp only [View.advance, hs, View.logIf]
    split_ifs
    · rw [hcb]
      rfl
    · rfl

theorem step_view {l : Owners.Label} {s s' : Owners} (h : Owners.step callback l s = some s') :
    (view s).Step (view s') := by
  cases l with
  | start w ino dst old new =>
    simp only [Owners.step] at h
    split_ifs at h
    obtain ⟨hin, hv⟩ := export_view h
    rw [hv]
    exact .start hin rfl rfl rfl rfl
  | process a b =>
    obtain ⟨id, rest, c, hq, hc, hd, hv⟩ := process_view hcb h
    rw [hv]
    exact .take hq hc hd

end

end Ufs.Proof.Ownership
