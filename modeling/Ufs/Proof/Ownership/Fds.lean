import Ufs.Proof.Ownership.View

/-!
# The descriptors and the rings in a reassignment

What an export and the steps of a context change besides the protocol: the maps of descriptors
(`export_fields`, `process_fields`), and the rings, in which only contexts are put (`Appends`).
`Fds` is what the workers' maps of descriptors always are: a descriptor leads to an inode that the
worker has and that has the descriptor.
-/

namespace Ufs.Proof.Ownership

open Impl ReassignmentOp
open Function (update update_apply update_eq_self)

/-! ## Rings -/

/-- Contexts are put at the end of rings, and nothing else changes in them. -/
def Appends (o o' : Owners) : Prop :=
  ∀ a b, ∃ ids : List ℕ, o'.ring a b = o.ring a b ++ ids.map .kReassignment

theorem Appends.of_eq {o o' : Owners} (h : o'.ring = o.ring) : Appends o o' :=
  fun a b => ⟨[], by simp [h]⟩

theorem Appends.trans {o₁ o2 o3 : Owners} (h : Appends o₁ o2) (h' : Appends o2 o3) : Appends o₁ o3 := by
  intro a b
  obtain ⟨ids, h⟩ := h a b
  obtain ⟨ids', h'⟩ := h' a b
  exact ⟨ids ++ ids', by rw [h', h, List.map_append, List.append_assoc]⟩

theorem setRing_ring (o : Owners) (a b : ℕ) (l : List OwnerMessage) (a' b' : ℕ) :
    (o.setRing a b l).ring a' b' = if a' = a ∧ b' = b then l else o.ring a' b' := by
  by_cases ha : a' = a
  · subst ha
    by_cases hb : b' = b
    · simp [Owners.setRing, hb]
    · simp [Owners.setRing, hb]
  · simp [Owners.setRing, ha]

theorem appends_sendMessageOrExecute (o : Owners) (w dst id : ℕ) : Appends o (o.sendMessageOrExecute w dst id) := by
  intro a b
  rw [Owners.sendMessageOrExecute, Owners.sendMessage, setRing_ring]
  split_ifs with hab
  · exact ⟨[id], by rw [hab.1, hab.2]; rfl⟩
  · exact ⟨[], by simp⟩

theorem Appends.count {o o' : Owners} (h : Appends o o') (a b ino : ℕ) :
    (o'.ring a b).count (.kOwnerUnlinkInode ino) = (o.ring a b).count (.kOwnerUnlinkInode ino) := by
  obtain ⟨ids, h⟩ := h a b
  rw [h, List.count_append, Nat.add_eq_left, List.count_eq_zero]
  simp

/-! ## Descriptors -/

/-- A descriptor of a worker leads to an inode that the worker has and that has the descriptor. -/
def Fds (o : Owners) : Prop :=
  ∀ w q ino, (o.worker w).ownerAppFdMap q = some ino →
    ino ∈ (o.worker w).inodeMap ∧ q ∈ (o.minode ino).appFdMap

theorem Fds.congr {o o' : Owners} (h : Fds o) (hw : ∀ w, (o'.worker w).ownerAppFdMap = (o.worker w).ownerAppFdMap ∧
      (o'.worker w).inodeMap = (o.worker w).inodeMap) (hi : ∀ ino,
        (o'.minode ino).appFdMap = (o.minode ino).appFdMap) : Fds o' := by
  intro w q ino hq
  rw [(hw w).1] at hq
  rw [(hw w).2, hi]
  exact h w q ino hq

theorem setManageWorkerUnknown_appFdMap (i : InMemInode) (w : ℤ) :
    (i.setManageWorkerUnknown w).appFdMap = i.appFdMap := by
  unfold InMemInode.setManageWorkerUnknown
  split_ifs <;> rfl

theorem setManageWorkerId_appFdMap (i : InMemInode) (w z : ℤ) : (i.setManageWorkerId w z).appFdMap = i.appFdMap := by
  unfold InMemInode.setManageWorkerId
  split_ifs <;> rfl

theorem setMinode_appFdMap {o : Owners} {ino : ℕ} {i : InMemInode} (h : i.appFdMap = (o.minode ino).appFdMap)
    (ino' : ℕ) : ((o.setMinode ino i).minode ino').appFdMap = (o.minode ino').appFdMap := by
  simp only [Owners.setMinode, update_apply]
  split_ifs with hi
  · rw [h, hi]
  · rfl

section

variable {o o' : Owners} {w ino dst : ℕ} {old new : Option CallbackFn}

theorem export_fields (h : o.ownerExportThroughPrimary w ino dst old new = some o') :
    o'.worker = update o.worker w (Owners.withoutInode (o.worker w) ino (o.minode ino)) ∧
      (∀ i, (o'.minode i).appFdMap = (o.minode i).appFdMap) ∧
      o'.recentlyReassignedAppFdToInodes = o.recentlyReassignedAppFdToInodes ∧ Appends o o' := by
  unfold Owners.ownerExportThroughPrimary at h
  split_ifs at h
  cases h
  refine ⟨?_, fun i => ?_, ?_, ?_⟩
  · simp only [Owners.keepUnsafe]
    split_ifs <;> rfl
  · have hi : ((o.exportInode w ino).minode i).appFdMap = (o.minode i).appFdMap :=
      setMinode_appFdMap (o := o.setWorker w _) (setManageWorkerUnknown_appFdMap _ _) i
    simp only [Owners.keepUnsafe]
    split_ifs <;> exact hi
  · simp only [Owners.keepUnsafe]
    split_ifs <;> rfl
  · refine Appends.trans (Appends.of_eq ?_) (appends_sendMessageOrExecute _ _ _ _)
    simp only [Owners.keepUnsafe]
    split_ifs <;> rfl

theorem Fds.exported (hf : Fds o) (h : o.ownerExportThroughPrimary w ino dst old new = some o') : Fds o' := by
  obtain ⟨hw, hi, -, -⟩ := export_fields h
  intro w' q ino' hq
  rw [hw, update_apply] at hq ⊢
  rw [hi]
  split_ifs at hq ⊢ with hww
  · simp only [Owners.withoutInode, Owners.delExportedInodeFdMappings] at hq ⊢
    split_ifs at hq with hmem
    obtain ⟨hin, hfd⟩ := hf w q ino' hq
    refine ⟨Finset.mem_erase.2 ⟨?_, hin⟩, hfd⟩
    rintro rfl
    exact hmem hfd
  · exact hf w' q ino' hq

end

theorem importExported_fields (o : Owners) (w id : ℕ) (c : Ctx) : (o.importExported w id c).worker =
        update o.worker w (Owners.withInode (o.worker w) c.exportedInode (o.minode c.exportedInode.ino)) ∧
      (o.importExported w id c).minode = o.minode ∧ (o.importExported w id c).ring = o.ring ∧
      (o.importExported w id c).recentlyReassignedAppFdToInodes = o.recentlyReassignedAppFdToInodes := by
  simp only [Owners.importExported, Owners.dropUnsafe]
  split_ifs <;> exact ⟨rfl, rfl, rfl, rfl⟩

theorem appends_notifyImported (o : Owners) (w id : ℕ) (c : Ctx) : Appends o (o.notifyImported w id c) :=
  appends_sendMessageOrExecute _ _ _ _

/-- The workers after `w` has handled the context. -/
def workersAfter (o : Owners) (w : ℕ) (c : Ctx) : ℕ → OwnerState :=
  if c.state = .kNewOwnerImport then
    update o.worker w (Owners.withInode (o.worker w) c.exportedInode (o.minode c.exportedInode.ino))
  else o.worker

/-- The primary's table of descriptors after a step of a context. -/
def tableAfter (o : Owners) (c : Ctx) : ℕ × ℕ → Option ℕ :=
  if c.state = .kPrimaryRequestNewOwnerImport then
    (o.addRecentlyReassignedInodeFds c.exportedInode.ino).recentlyReassignedAppFdToInodes
  else o.recentlyReassignedAppFdToInodes

theorem process_fields {o o' : Owners} {w id : ℕ} {c : Ctx} (hc : o.ctx id = some c)
    (h : o.processReassignmentCtx (fun _ _ o => o) w id = some o') :
    o'.worker = workersAfter o w c ∧ (∀ i, (o'.minode i).appFdMap = (o.minode i).appFdMap) ∧
      o'.recentlyReassignedAppFdToInodes = tableAfter o c ∧ Appends o o' := by
  simp only [Owners.processReassignmentCtx, hc, Option.bind_some] at h
  unfold workersAfter tableAfter
  split_ifs at h
  cases hs : c.state with
  | kPrimaryRequestNewOwnerImport =>
    simp only [hs, Option.some.injEq] at h
    subst h
    exact ⟨rfl, setMinode_appFdMap (setManageWorkerId_appFdMap _ _ _), rfl,
      (Appends.of_eq rfl).trans (appends_sendMessageOrExecute _ _ _ _)⟩
  | kNewOwnerImport =>
    simp only [hs, Option.some.injEq, Owners.newOwnerImport, ite_self] at h
    subst h
    obtain ⟨hw, hi, hr, ht⟩ := importExported_fields o w id c
    exact ⟨hw, fun i => congrArg (fun m => (m i).appFdMap) hi, ht,
      (Appends.of_eq hr).trans (appends_notifyImported _ _ _ _)⟩
  | kPrimaryImportSuccessNotification =>
    simp only [hs, Option.some.injEq] at h
    subst h
    rw [if_neg (by decide), if_neg (by decide)]
    simp only [Owners.primaryImportSuccessNotification, Owners.markInodeOwnershipUpdated]
    split_ifs <;> exact ⟨rfl, fun _ => rfl, rfl, (Appends.of_eq rfl).trans (appends_sendMessageOrExecute _ _ _ _)⟩
  | kOldOwnerExportSuccessNotification =>
    simp only [hs, Option.some.injEq] at h
    subst h
    rw [if_neg (by decide), if_neg (by decide)]
    simp only [Owners.oldOwnerExportSuccessNotification]
    split_ifs <;> exact ⟨rfl, fun _ => rfl, rfl, Appends.of_eq rfl⟩

theorem process_taken {o o' : Owners} {a b : ℕ} (h : o.process (fun _ _ o => o) a b = some o') :
    ∃ id rest c, o.ring a b = .kReassignment id :: rest ∧ o.ctx id = some c ∧ c.deleted = false ∧
      view o' = ((view o).setQueue a b (rest.filterMap ctxOf)).advance b id c ∧ o'.worker = workersAfter o b c ∧
      (∀ i, (o'.minode i).appFdMap = (o.minode i).appFdMap) ∧ o'.recentlyReassignedAppFdToInodes = tableAfter o c := by
  obtain ⟨id, rest, c, hq, hc, hd, hv⟩ := process_view (fun _ _ _ => rfl) h
  obtain ⟨⟨msg, o1⟩, hrecv, h'⟩ := Option.bind_eq_some_iff.1 h
  obtain ⟨rest', hr, -, rfl⟩ := recvMessage_eq_some hrecv
  cases msg with
  | kOwnerUnlinkInode ino => cases h'
  | kReassignment id' =>
  have hq' : (view o).queue a b = id' :: rest'.filterMap ctxOf := by simp [view, hr, ctxOf]
  obtain ⟨rfl, rfl⟩ := List.cons.inj (hq.symm.trans hq')
  obtain ⟨hworker, hfd, htable, -⟩ := process_fields (o := o.setRing a b rest') hc h'
  exact ⟨id, rest', c, hr, hc, hd, hv, hworker, hfd, htable⟩

theorem Fds.processed {o o' : Owners} (hf : Fds o) {w : ℕ} {c : Ctx} (hw : o'.worker = workersAfter o w c)
    (hi : ∀ i, (o'.minode i).appFdMap = (o.minode i).appFdMap) : Fds o' := by
  intro w' q ino hq
  rw [hw, workersAfter] at hq ⊢
  rw [hi]
  split_ifs at hq ⊢
  · rw [update_apply] at hq ⊢
    split_ifs at hq ⊢ with hww
    · simp only [Owners.withInode, Owners.addImportedInodeFdMappings] at hq ⊢
      split_ifs at hq with hmem
      · cases hold : (o.worker w).ownerAppFdMap q with
        | none =>
          rw [hold] at hq
          cases hq
          exact ⟨Finset.mem_insert_self _ _, hmem⟩
        | some ino' =>
          rw [hold] at hq
          cases hq
          obtain ⟨hin, hfd⟩ := hf w q _ hold
          exact ⟨Finset.mem_insert_of_mem hin, hfd⟩
      · obtain ⟨hin, hfd⟩ := hf w q _ hq
        exact ⟨Finset.mem_insert_of_mem hin, hfd⟩
    · exact hf w' q ino hq
  · exact hf w' q ino hq

theorem setWorker_worker (o : Owners) (w : ℕ) (x : OwnerState) (w' : ℕ) :
    (o.setWorker w x).worker w' = if w' = w then x else o.worker w' := update_apply ..

theorem setMinode_minode (o : Owners) (ino : ℕ) (i : InMemInode) (ino' : ℕ) :
    (o.setMinode ino i).minode ino' = if ino' = ino then i else o.minode ino' := update_apply ..

theorem view_setFds {o : Owners} {w ino : ℕ} {i : InMemInode} {x : OwnerState}
    (hi : i.mngWid = (o.minode ino).mngWid) (hx : x.inodeMap = (o.worker w).inodeMap) :
      view ((o.setMinode ino i).setWorker w x) = view o := by
  rw [view_setWorker, view_setMinode, hi, hx]
  ext1 <;> try rfl
  · exact update_eq_self w (view o).held
  · exact update_eq_self ino (view o).mngWid

section

variable (o : Owners) (w ino : ℕ) (q : ℕ × ℕ)

theorem addFdMappingOnOpen_inodeMap (w' : ℕ) : ((o.addFdMappingOnOpen w ino q).worker w').inodeMap =
    (o.worker w').inodeMap := by
  rw [Owners.addFdMappingOnOpen, setWorker_worker]
  split_ifs with h
  · rw [h]
  · rfl

theorem addFdMappingOnOpen_ownerAppFdMap (w' : ℕ) (q' : ℕ × ℕ) :
    ((o.addFdMappingOnOpen w ino q).worker w').ownerAppFdMap q' =
      if w' = w ∧ q' = q then some (((o.worker w).ownerAppFdMap q).getD ino) else (o.worker w').ownerAppFdMap q' := by
  rw [Owners.addFdMappingOnOpen, setWorker_worker]
  by_cases h : w' = w
  · subst h
    simp [update_apply]
  · simp [h, Owners.setMinode]

theorem addFdMappingOnOpen_appFdMap (i : ℕ) : ((o.addFdMappingOnOpen w ino q).minode i).appFdMap =
    if i = ino then insert q (o.minode i).appFdMap else (o.minode i).appFdMap := by
  refine (congrArg InMemInode.appFdMap (setMinode_minode o ino _ i)).trans ?_
  split_ifs with h
  · rw [h]
  · rfl

theorem delFdMappingOnClose_inodeMap (w' : ℕ) : ((o.delFdMappingOnClose w ino q).worker w').inodeMap =
    (o.worker w').inodeMap := by
  rw [Owners.delFdMappingOnClose, setWorker_worker]
  split_ifs with h
  · rw [h]
  · rfl

theorem delFdMappingOnClose_ownerAppFdMap (w' : ℕ) (q' : ℕ × ℕ) :
    ((o.delFdMappingOnClose w ino q).worker w').ownerAppFdMap q' =
      if w' = w ∧ q' = q then none else (o.worker w').ownerAppFdMap q' := by
  rw [Owners.delFdMappingOnClose, setWorker_worker]
  by_cases h : w' = w
  · subst h
    simp [update_apply]
  · simp [h, Owners.setMinode]

theorem delFdMappingOnClose_appFdMap (i : ℕ) : ((o.delFdMappingOnClose w ino q).minode i).appFdMap =
    if i = ino then (o.minode i).appFdMap.erase q else (o.minode i).appFdMap := by
  refine (congrArg InMemInode.appFdMap (setMinode_minode o ino _ i)).trans ?_
  split_ifs with h
  · rw [h]
  · rfl

end

theorem Fds.addFdMappingOnOpen {o : Owners} (hf : Fds o) {w ino : ℕ} (hin : ino ∈ (o.worker w).inodeMap)
    (q : ℕ × ℕ) : Fds (o.addFdMappingOnOpen w ino q) := by
  intro w' q' ino' hq
  rw [addFdMappingOnOpen_inodeMap, addFdMappingOnOpen_appFdMap]
  rw [addFdMappingOnOpen_ownerAppFdMap] at hq
  have hold (h : (o.worker w').ownerAppFdMap q' = some ino') : ino' ∈ (o.worker w').inodeMap ∧
      q' ∈ if ino' = ino then insert q (o.minode ino').appFdMap else (o.minode ino').appFdMap := by
    obtain ⟨h1, h2⟩ := hf w' q' ino' h
    split_ifs
    · exact ⟨h1, Finset.mem_insert_of_mem h2⟩
    · exact ⟨h1, h2⟩
  split_ifs at hq with hwq
  · obtain ⟨rfl, rfl⟩ := hwq
    cases hm : (o.worker w').ownerAppFdMap q' with
    | none =>
      rw [hm] at hq
      cases hq
      exact ⟨hin, by simp⟩
    | some i =>
      rw [hm] at hq
      cases hq
      exact hold hm
  · exact hold hq

theorem Fds.delFdMappingOnClose {o : Owners} (hf : Fds o) {w ino : ℕ}
    (hin : ∀ w', ino ∈ (o.worker w').inodeMap → w' = w) (q : ℕ × ℕ) : Fds (o.delFdMappingOnClose w ino q) := by
  intro w' q' ino' hq
  rw [delFdMappingOnClose_ownerAppFdMap] at hq
  split_ifs at hq with hwq
  obtain ⟨h1, h2⟩ := hf w' q' ino' hq
  rw [delFdMappingOnClose_inodeMap, delFdMappingOnClose_appFdMap]
  refine ⟨h1, ?_⟩
  split_ifs with hi
  · subst hi
    exact Finset.mem_erase.2 ⟨fun h => hwq ⟨hin w' h1, h⟩, h2⟩
  · exact h2

end Ufs.Proof.Ownership
