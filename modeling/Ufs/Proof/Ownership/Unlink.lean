import Ufs.Impl.Unlink
import Ufs.Proof.Ownership.Ends
import Ufs.Proof.Ownership.Fds

/-!
# Unlinking reaches the worker that has the inode

The primary sends `kOwnerUnlinkInode` to the worker that its map names, and that worker looks the
inode up when it takes the message. The map may be -1, or name a worker that has exported the inode,
and the inode may be exported after the message was sent. A deallocation that waits for bitmap
blocks goes on with the inode wherever it is then. `Undisturbed` rules this out.
-/

namespace Ufs.Proof.Ownership

open Impl ReassignmentOp
open Function (update update_of_ne update_self update_apply update_eq_self)
open Unlinks (setOwners bestWid adjustNlink releaseFsReq)
open List Option

variable {a b ino w : ℕ} {inodes : Finset ℕ} {s s' : Unlinks}

/-! ## The condition and what is to hold -/

/-- No unlink of the inode is on its way to the worker, and none waits there. -/
def Settled (s : Unlinks) (w ino : ℕ) : Prop :=
  .kOwnerUnlinkInode ino ∉ s.owners.ring kMasterWidConst w ∧ ∀ x ∈ s.genericRequests w, x.1 ≠ ino

/-- The inode is not to be deallocated on this worker but on the one that has most of its blocks. -/
def Moves (s : Unlinks) (w ino : ℕ) : Prop :=
  s.noAppReferring ino ∧ ∃ best, s.bestWid ino = some best ∧ best ≠ w

/-- A context with the inode that the old owner was not yet told to drop. -/
def UnderWay (o : Owners) (ino : ℕ) : Prop :=
  ∃ id c, o.ctx id = some c ∧ c.deleted = false ∧ c.exportedInode.ino = ino ∧
    c.state ≠ .kOldOwnerExportSuccessNotification

/-- No reassignment disturbs an unlink: the primary unlinks no inode that is being reassigned, and no worker
exports an inode that another unlink is on its way for. -/
def Undisturbed : Unlinks.Label → Unlinks → Prop
  | .reassign w ino _ _, s => Settled s w ino
  | .unlink ino, s => ¬ UnderWay s.owners ino ∧
      (s.owners.getInodeOwner ino = kMasterWidConst → (s.inodeData ino).nlink = 1 → Moves s kMasterWidConst ino →
        Settled s kMasterWidConst ino)
  | .process src dst, s => ∀ ino rest, s.owners.ring src dst = .kOwnerUnlinkInode ino :: rest →
      (s.inodeData ino).nlink = 1 → Moves s dst ino →
        .kOwnerUnlinkInode ino ∉ rest ∧ ∀ x ∈ s.genericRequests dst, x.1 ≠ ino
  | .resume w k, s => ∀ x, (s.genericRequests w)[k]? = some x → Moves s w x.1 →
      .kOwnerUnlinkInode x.1 ∉ s.owners.ring kMasterWidConst w ∧
        ∀ y ∈ (s.genericRequests w).eraseIdx k, y.1 ≠ x.1
  | .closeFd w q, s => ∀ ino, (s.owners.worker w).ownerAppFdMap q = some ino →
      s.unlinkDeallocResourcesOnClose ino → Moves (s.setOwners (s.owners.delFdMappingOnClose w ino q)) w ino →
        Settled s w ino
  | .openFd .., _ => True
  | .modify .., _ => True

/-- An unlink goes to a worker, and what is done for it is done by the worker that has the inode. -/
def AtOwner : Unlinks.Label → Unlinks → Prop
  | .unlink ino, s =>
      ino ∈ (s.owners.worker kMasterWidConst).inodeMap ∨ ino ∈ s.owners.unsafeReassignedInodes →
        0 ≤ s.owners.getInodeOwner ino ∧
          (s.owners.getInodeOwner ino = kMasterWidConst → ino ∈ (s.owners.worker kMasterWidConst).inodeMap)
  | .process src dst, s => ∀ ino rest, s.owners.ring src dst = .kOwnerUnlinkInode ino :: rest →
      ino ∈ (s.owners.worker dst).inodeMap
  | .resume w k, s => ∀ x, (s.genericRequests w)[k]? = some x → x.1 ∈ (s.owners.worker w).inodeMap
  | _, _ => True

/-- Of the removed links of an inode each was unlinked once, or is in one ring. -/
def UnlinkedOnce (s : Unlinks) : Prop :=
  ∀ ino, ∃ w, (∀ a b, .kOwnerUnlinkInode ino ∈ s.owners.ring a b → a = kMasterWidConst ∧ b = w) ∧
    s.removed ino = s.unlinked ino + (s.owners.ring kMasterWidConst w).count (.kOwnerUnlinkInode ino)

/-! ## The invariant -/

/-- The invariant: an unlink that was sent reaches a worker that has the inode, and the links
removed are those taken and those under way. -/
structure Unlinking (inodes : Finset ℕ) (s : Unlinks) : Prop where
  inv : Inv inodes (view s.owners)
  fds : Fds s.owners
  away : ∀ ino ∈ (view s.owners).away, ino ∈ inodes
  sent : ∀ a w ino, .kOwnerUnlinkInode ino ∈ s.owners.ring a w →
    a = kMasterWidConst ∧ (∀ id c, ¬ Open (view s.owners) ino id c) ∧ ino ∈ (view s.owners).held w
  waiting : ∀ w, ∀ x ∈ s.genericRequests w, x.1 ∈ (view s.owners).held w
  aimed : ∀ id c, Open (view s.owners) c.exportedInode.ino id c →
    c.newOwnerCallback = some .ownerDeallocResources →
    (c.state = .kPrimaryRequestNewOwnerImport ∨ c.state = .kNewOwnerImport) →
      s.bestWid c.exportedInode.ino = some c.exportedInode.importerWid
  held : ∀ ino w, ino ∈ (view s.owners).held w → s.removed ino =
    s.unlinked ino + (s.owners.ring kMasterWidConst w).count (.kOwnerUnlinkInode ino)
  moving : ∀ ino, (∀ w, ino ∉ (view s.owners).held w) → s.removed ino = s.unlinked ino

theorem Unlinking.unlinkedOnce (h : Unlinking inodes s) : UnlinkedOnce s := by
  intro ino
  by_cases hw : ∃ w, ino ∈ (view s.owners).held w
  · obtain ⟨w, hw⟩ := hw
    refine ⟨w, fun a b hm => ?_, h.held ino w hw⟩
    obtain ⟨ha, -, hb⟩ := h.sent a b ino hm
    exact ⟨ha, h.inv.held_unique hb hw⟩
  · have hnone (w : ℕ) : ino ∉ (view s.owners).held w := fun hm => hw ⟨w, hm⟩
    refine ⟨0, fun a b hm => absurd (h.sent a b ino hm).2.2 (hnone b), ?_⟩
    rw [h.moving ino hnone, count_eq_zero.2 fun hm => hnone _ (h.sent _ _ ino hm).2.2]
    rfl

/-! ## A step of the protocol -/

/-- The rings have the same unlinks. -/
def SameSent (o o' : Owners) : Prop :=
  ∀ a b ino, (o'.ring a b).count (.kOwnerUnlinkInode ino) = (o.ring a b).count (.kOwnerUnlinkInode ino)

theorem SameSent.mem {o o' : Owners} (h : SameSent o o') : .kOwnerUnlinkInode ino ∈ o'.ring a b ↔
    .kOwnerUnlinkInode ino ∈ o.ring a b := by
  rw [← count_pos_iff, ← count_pos_iff, h a b ino]

theorem Agree.of_eq {v v' : View} (h : v' = v) (ino : ℕ) : Agree v v' ino := by
  subst h
  exact ⟨fun _ _ => Iff.rfl, fun _ => Iff.rfl, rfl, rfl, fun _ _ _ _ _ hs => hs⟩

theorem Unlinking.next (h : Unlinking inodes s) (hinv : Inv inodes (view s'.owners)) (hfds : Fds s'.owners)
    (haway : ∀ ino ∈ (view s'.owners).away, ino ∈ inodes) (hsent : SameSent s.owners s'.owners)
    (hmove : ∀ ino, Agree (view s.owners) (view s'.owners) ino ∨ ∀ a b, .kOwnerUnlinkInode ino ∉ s.owners.ring a b)
    (hwait : ∀ w, ∀ x ∈ s'.genericRequests w, x.1 ∈ (view s'.owners).held w)
    (haim : ∀ id c, Open (view s'.owners) c.exportedInode.ino id c → c.newOwnerCallback = some .ownerDeallocResources →
      (c.state = .kPrimaryRequestNewOwnerImport ∨ c.state = .kNewOwnerImport) →
        s'.bestWid c.exportedInode.ino = some c.exportedInode.importerWid)
    (hremoved : s'.removed = s.removed) (hunlinked : s'.unlinked = s.unlinked) : Unlinking inodes s' := by
  -- where there is no unlink of an inode, all of its removed links were unlinked
  have hdone {ino : ℕ} (hno : ∀ a b, .kOwnerUnlinkInode ino ∉ s.owners.ring a b) : s.removed ino = s.unlinked ino := by
    by_cases hw : ∃ w, ino ∈ (view s.owners).held w
    · obtain ⟨w, hw⟩ := hw
      rw [h.held ino w hw, count_eq_zero.2 (hno _ _), Nat.add_zero]
    · exact h.moving ino fun w hm => hw ⟨w, hm⟩
  refine ⟨hinv, hfds, haway, fun a w ino hm => ?_, hwait, haim, fun ino w hw => ?_, fun ino hno => ?_⟩
  · rw [hsent.mem] at hm
    obtain ⟨ha, ho, hw⟩ := h.sent a w ino hm
    rcases hmove ino with hag | hno
    · exact ⟨ha, fun id c hc => ho id c ((hag.opens id c).1 hc), (hag.held w).2 hw⟩
    · exact absurd hm (hno a w)
  · rw [hremoved, hunlinked, hsent]
    rcases hmove ino with hag | hno
    · exact h.held ino w ((hag.held w).1 hw)
    · rw [hdone hno, count_eq_zero.2 (hno _ _), Nat.add_zero]
  · rw [hremoved, hunlinked]
    rcases hmove ino with hag | hno'
    · exact h.moving ino fun w hw => hno w ((hag.held w).2 hw)
    · exact hdone hno'

theorem Unlinking.kept (h : Unlinking inodes s) (hv : view s'.owners = view s.owners) (hfds : Fds s'.owners)
    (hring : s'.owners.ring = s.owners.ring)
    (hreq : ∀ w, ∀ x ∈ s'.genericRequests w, x ∈ s.genericRequests w ∨ x.1 ∈ (view s.owners).held w)
    (hbest : ∀ ino, (∀ w, ino ∉ (view s.owners).held w) → s'.bestWid ino = s.bestWid ino)
    (hremoved : s'.removed = s.removed) (hunlinked : s'.unlinked = s.unlinked) : Unlinking inodes s' := by
  refine h.next (hv ▸ h.inv) hfds (hv ▸ h.away) (fun a b ino => by rw [hring])
    (fun ino => .inl (.of_eq hv ino)) (fun w x hx => ?_) (fun id c ho hn hs => ?_) hremoved hunlinked
  · rw [hv]
    rcases hreq w x hx with hx | hx
    · exact h.waiting w x hx
    · exact hx
  · rw [hv] at ho
    rw [hbest _ (h.inv.not_held ho hs)]
    exact h.aimed id c ho hn hs

/-! ## An export -/

theorem Unlinking.exported (h : Unlinking inodes s) {dst : ℕ} {old new : Option CallbackFn} {o' : Owners}
    (he : s.owners.ownerExportThroughPrimary w ino dst old new = some o') (hset : Settled s w ino)
    (haim : new = some .ownerDeallocResources → s.bestWid ino = some dst) : Unlinking inodes (s.setOwners o') := by
  obtain ⟨hheld, hv⟩ := export_view he
  obtain ⟨-, -, -, happ⟩ := export_fields he
  have hin : ino ∈ inodes := by
    by_contra hn
    exact (h.inv.absent ino hn).2 w hheld
  refine h.next (h.inv.step (hv ▸ .start hheld rfl rfl rfl rfl)) (h.fds.exported he) (fun i hi => ?_) happ.count
    (fun i => ?_) (fun w' x hx => ?_) (fun id c ho hn hs => ?_) rfl rfl
  · have haway : (view o').away = if w = kMasterWidConst then insert ino (view s.owners).away
        else (view s.owners).away := by rw [hv]; rfl
    rw [setOwners, haway] at hi
    split_ifs at hi
    · rcases Finset.mem_insert.1 hi with rfl | hi
      · exact hin
      · exact h.away i hi
    · exact h.away i hi
  · by_cases hi : i = ino
    · subst hi
      refine .inr fun a b hm => ?_
      obtain ⟨rfl, -, hb⟩ := h.sent a b i hm
      rw [h.inv.held_unique hb hheld] at hm
      exact hset.1 hm
    · refine .inl ?_
      rw [setOwners, hv]
      exact agree_startExport h.inv.queues rfl hi
  · have hw := h.waiting w' x hx
    have hne : x.1 ≠ ino := by
      rintro rfl
      obtain rfl := h.inv.held_unique hw hheld
      exact hset.2 x hx rfl
    have hag : Agree (view s.owners) (view o') x.1 := by
      rw [hv]
      exact agree_startExport h.inv.queues rfl hne
    exact (hag.held w').2 hw
  · rw [setOwners, hv] at ho
    by_cases hi : c.exportedInode.ino = ino
    · rw [hi] at ho
      rcases (open_startExport h.inv.queues rfl rfl rfl id c).1 ho with ho | ⟨-, rfl⟩
      · exact h.aimed id c (hi ▸ ho) hn hs
      · exact haim hn
    · exact h.aimed id c (((agree_startExport h.inv.queues rfl hi).opens id c).1 ho) hn hs

/-! ## `OwnerDeallocResources` -/

theorem view_markUnlinked (s : Unlinks) (w ino : ℕ) : view (s.markUnlinked w ino).owners = view s.owners := by
  refine (view_setWorker _ _ _).trans ?_
  ext1 <;> try rfl
  exact update_eq_self w (view s.owners).held

theorem fds_markUnlinked (hf : Fds s.owners) (w ino : ℕ) : Fds (s.markUnlinked w ino).owners := by
  refine hf.congr (fun w' => ?_) fun _ => rfl
  rw [Unlinks.markUnlinked, setOwners, setWorker_worker]
  split_ifs with hw
  · rw [hw]
    exact ⟨rfl, rfl⟩
  · exact ⟨rfl, rfl⟩

/-- A step at worker `w` about inode `ino` that moves no inode and sends no message. -/
structure Stays (s : Unlinks) (w ino : ℕ) (s' : Unlinks) : Prop where
  view : view s'.owners = view s.owners
  fds : Fds s.owners → Fds s'.owners
  ring : s'.owners.ring = s.owners.ring
  requests : ∀ w', ∀ x ∈ s'.genericRequests w', x ∈ s.genericRequests w' ∨ w' = w ∧ x.1 = ino
  inodeData : s'.inodeData = s.inodeData
  removed : s'.removed = s.removed
  unlinked : s'.unlinked = s.unlinked

theorem stays_deallocLocal (s : Unlinks) (w ino : ℕ) : Stays s w ino (s.deallocLocal w ino) := by
  unfold Unlinks.deallocLocal
  split_ifs
  · exact ⟨view_markUnlinked s w ino, fun hf => fds_markUnlinked hf w ino, rfl, fun _ _ hx => .inl hx, rfl, rfl, rfl⟩
  · refine ⟨rfl, id, rfl, fun w' x hx => ?_, rfl, rfl, rfl⟩
    simp only [Unlinks.genGenericRequest, update_apply] at hx
    split_ifs at hx with hw
    · subst hw
      rcases mem_append.1 hx with hx | hx
      · exact .inl hx
      · rw [mem_singleton.1 hx]
        exact .inr ⟨rfl, rfl⟩
    · exact .inl hx

theorem ownerDeallocResources_cases (h : s.ownerDeallocResources w ino = some s') :
    Stays s w ino s' ∨ ∃ best o', s.noAppReferring ino ∧ s.bestWid ino = some best ∧ best ≠ w ∧
      s.owners.ownerExportThroughPrimary w ino best none (some .ownerDeallocResources) = some o' ∧
        s' = s.setOwners o' := by
  unfold Unlinks.ownerDeallocResources at h
  split_ifs at h with happ
  · cases hb : s.bestWid ino with
    | none =>
      rw [hb] at h
      cases h
      exact .inl (stays_deallocLocal s w ino)
    | some best =>
      simp only [hb] at h
      split_ifs at h with hw
      · cases h
        exact .inl (stays_deallocLocal s w ino)
      · obtain ⟨o', ho, rfl⟩ := map_eq_some_iff.1 h
        exact .inr ⟨best, o', happ, rfl, hw, ho, rfl⟩
  · cases h
    exact .inl ⟨rfl, id, rfl, fun _ _ hx => .inl hx, rfl, rfl, rfl⟩

theorem Unlinking.dealloc (h : Unlinking inodes s) (hd : s.ownerDeallocResources w ino = some s')
    (hheld : ino ∈ (view s.owners).held w)
    (hset : Moves s w ino → Settled s w ino) : Unlinking inodes s' := by
  rcases ownerDeallocResources_cases hd with hst | ⟨best, o', happ, hb, hne, he, rfl⟩
  · refine h.kept hst.view (hst.fds h.fds) hst.ring (fun w' x hx => ?_) (fun _ _ => ?_) hst.removed hst.unlinked
    · rcases hst.requests w' x hx with hx | ⟨rfl, hx⟩
      · exact .inl hx
      · exact .inr (hx ▸ hheld)
    · rw [bestWid, hst.inodeData]
      rfl
  · exact h.exported he (hset ⟨happ, best, hb, hne⟩) fun _ => hb

/-! ## A context -/

theorem held_advance (v : View) (b id : ℕ) (c : Ctx) (w : ℕ) : v.held w ⊆ (v.advance b id c).held w := by
  unfold View.advance View.logIf
  cases hs : c.state with
  | kNewOwnerImport =>
    have : v.held w ⊆ update v.held b (insert c.exportedInode.ino (v.held b)) w := by
      rw [update_apply]
      split_ifs with hw
      · rw [hw]
        exact Finset.subset_insert _ _
      · exact Finset.Subset.refl _
    split_ifs <;> exact this
  | kPrimaryRequestNewOwnerImport => exact Finset.Subset.refl _
  | kPrimaryImportSuccessNotification => exact Finset.Subset.refl _
  | kOldOwnerExportSuccessNotification =>
    split_ifs <;> exact Finset.Subset.refl _

theorem advance_away_subset (v : View) (w id : ℕ) (c : Ctx) : (v.advance w id c).away ⊆ v.away := by
  rw [advance_away]
  split_ifs
  · exact Finset.erase_subset _ _
  · exact Finset.Subset.refl _

theorem forward_eq (c : Ctx) : (forward c).exportedInode = c.exportedInode ∧
    (forward c).newOwnerCallback = c.newOwnerCallback := by
  unfold forward
  split <;> exact ⟨rfl, rfl⟩

theorem forward_state {c : Ctx} (h : (forward c).state = .kPrimaryRequestNewOwnerImport ∨
    (forward c).state = .kNewOwnerImport) :
    c.state = .kPrimaryRequestNewOwnerImport := by
  unfold forward at h
  cases hs : c.state <;> simp [hs] at h ⊢

variable {rest : List OwnerMessage} {id : ℕ}

theorem Unlinking.took (h : Unlinking inodes s) {c : Ctx} (hr : s.owners.ring a b = .kReassignment id :: rest)
    (hc : s.owners.ctx id = some c) (hd : c.deleted = false)
    (hv : view s'.owners = ((view s.owners).setQueue a b (rest.filterMap ctxOf)).advance b id c)
    (happ : Appends (s.owners.setRing a b rest) s'.owners) (hfds : Fds s'.owners)
    (hreq : ∀ w, ∀ x ∈ s'.genericRequests w, x ∈ s.genericRequests w ∨ x.1 ∈ (view s'.owners).held w)
    (hdata : s'.inodeData = s.inodeData) (hremoved : s'.removed = s.removed)
      (hunlinked : s'.unlinked = s.unlinked) : Unlinking inodes s' := by
  have hq : (view s.owners).queue a b = id :: rest.filterMap ctxOf := by simp [view, hr, ctxOf]
  refine h.next (h.inv.step (hv ▸ .take hq hc hd)) hfds (fun ino hi => ?_) (fun a' b' ino => ?_) (fun ino => ?_)
    (fun w x hx => ?_) (fun id' c' ho hn hs => ?_) hremoved hunlinked
  · rw [hv] at hi
    exact h.away ino (advance_away_subset ((view s.owners).setQueue a b _) _ _ _ hi)
  · rw [happ.count, setRing_ring]
    split_ifs with hab
    · rw [hab.1, hab.2, hr, count_cons_of_ne (by simp)]
    · rfl
  · by_cases hino : c.exportedInode.ino = ino ∧ c.state ≠ .kOldOwnerExportSuccessNotification
    · refine .inr fun a' b' hm => ?_
      exact (h.sent a' b' ino hm).2.1 id c ⟨hc, hd, hino⟩
    · refine .inl ?_
      rw [hv]
      exact agree_advance hq hc hino
  · rcases hreq w x hx with hx | hx
    · rw [hv]
      exact held_advance _ _ _ _ _ (h.waiting w x hx)
    · exact hx
  · obtain ⟨hc', hd', -, hne⟩ := ho
    rw [bestWid, hdata]
    rw [hv, advance_ctx, update_apply] at hc'
    split_ifs at hc' with hid
    · -- the context that was taken, which went on from the primary
      cases hc'
      rw [(forward_eq c).1]
      rw [(forward_eq c).2] at hn
      have hst := forward_state hs
      exact h.aimed id c ⟨hc, hd, rfl, by simp [hst]⟩ hn (.inl hst)
    · exact h.aimed id' c' ⟨hc', hd', rfl, hne⟩ hn hs

/-! ## A link is removed -/

theorem adjustNlink_bestWid (s : Unlinks) (ino ino' : ℕ) : (s.adjustNlink ino).bestWid ino' = s.bestWid ino' := by
  simp only [bestWid, adjustNlink, update_apply]
  split_ifs with h
  · rw [h]
    rfl
  · rfl

theorem Unlinking.here (h : Unlinking inodes s) (ino : ℕ) :
    Unlinking inodes (adjustNlink { s with removed := update s.removed ino (s.removed ino + 1) } ino) where
  inv := h.inv
  fds := h.fds
  away := h.away
  sent := h.sent
  waiting := h.waiting
  aimed id c ho hn hs := (adjustNlink_bestWid _ _ _).trans (h.aimed id c ho hn hs)
  held ino' w hw := by
    have := h.held ino' w hw
    simp only [adjustNlink, update_apply]
    split_ifs with hi
    · subst hi
      omega
    · exact this
  moving ino' hno := by
    have := h.moving ino' hno
    simp only [adjustNlink, update_apply]
    split_ifs with hi
    · subst hi
      omega
    · exact this

theorem Unlinking.send (h : Unlinking inodes s) (hopen : ∀ id c, ¬ Open (view s.owners) ino id c)
    (hheld : ino ∈ (view s.owners).held w) :
    Unlinking inodes (setOwners { s with removed := update s.removed ino (s.removed ino + 1) }
      (s.owners.sendMessage kMasterWidConst w (.kOwnerUnlinkInode ino))) := by
  have hv : view (s.owners.sendMessage kMasterWidConst w (.kOwnerUnlinkInode ino)) = view s.owners :=
    view_sendMessage_other rfl
  have hring (a b : ℕ) := setRing_ring s.owners kMasterWidConst w
    (s.owners.ring kMasterWidConst w ++ [.kOwnerUnlinkInode ino]) a b
  refine ⟨hv ▸ h.inv, h.fds.congr (fun _ => ⟨rfl, rfl⟩) (fun _ => rfl), hv ▸ h.away, fun a b ino' hm => ?_,
    hv ▸ h.waiting, fun id c ho => h.aimed id c (hv ▸ ho), fun ino' w' hw => ?_, fun ino' hno => ?_⟩
  · rw [setOwners, hv]
    rw [setOwners, Owners.sendMessage, hring] at hm
    split_ifs at hm with hab
    · obtain ⟨rfl, rfl⟩ := hab
      rcases mem_append.1 hm with hm | hm
      · exact h.sent _ _ _ hm
      · cases mem_singleton.1 hm
        exact ⟨rfl, hopen, hheld⟩
    · exact h.sent _ _ _ hm
  · rw [setOwners, hv] at hw
    have hold := h.held ino' w' hw
    rw [setOwners, Owners.sendMessage, hring]
    simp only [update_apply, true_and]
    by_cases hi : ino' = ino
    · subst hi
      obtain rfl := h.inv.held_unique hw hheld
      rw [if_pos rfl, if_pos rfl, count_append, count_singleton_self]
      omega
    · rw [if_neg hi, hold]
      split_ifs with hw'
      · rw [count_append, count_singleton, hw']
        simp [Ne.symm hi]
      · rfl
  · rw [setOwners, hv] at hno
    have hi : ino' ≠ ino := by
      rintro rfl
      exact hno w hheld
    simp only [setOwners, update_of_ne hi]
    exact h.moving ino' hno

theorem Unlinking.received (h : Unlinking inodes s) (hr : s.owners.ring a b = .kOwnerUnlinkInode ino :: rest) :
    Unlinking inodes ((s.setOwners (s.owners.setRing a b rest)).adjustNlink ino) := by
  obtain ⟨rfl, -, hheld⟩ := h.sent a b ino (hr ▸ mem_cons_self)
  have hv : view (s.owners.setRing kMasterWidConst b rest) = view s.owners := by
    rw [view_setRing]
    ext1 <;> try rfl
    funext a' b'
    rw [View.setQueue_queue]
    split_ifs with hab
    · simp [view, hab.1, hab.2, hr, filterMap_cons, ctxOf]
    · rfl
  have hring (a' b' : ℕ) := setRing_ring s.owners kMasterWidConst b rest a' b'
  refine ⟨hv ▸ h.inv, h.fds.congr (fun _ => ⟨rfl, rfl⟩) (fun _ => rfl), hv ▸ h.away, fun a' b' ino' hm => ?_,
    hv ▸ h.waiting, fun id c ho hn hs => (adjustNlink_bestWid _ _ _).trans (h.aimed id c (hv ▸ ho) hn hs),
    fun ino' w hw => ?_, fun ino' hno => ?_⟩
  · simp only [adjustNlink, setOwners, hring] at hm
    refine h.sent a' b' ino' ?_
    split_ifs at hm with hab
    · rw [hab.1, hab.2, hr]
      exact mem_cons_of_mem _ hm
    · exact hm
  · have hold := h.held ino' w hw
    simp only [adjustNlink, setOwners, hring, update_apply, true_and]
    by_cases hi : ino' = ino
    · subst hi
      obtain rfl := h.inv.held_unique hw hheld
      rw [hr, count_cons_self] at hold
      rw [if_pos rfl, if_pos rfl]
      omega
    · rw [if_neg hi, hold]
      split_ifs with hw'
      · rw [hw', hr, count_cons_of_ne (by simpa using Ne.symm hi)]
      · rfl
  · simp only [adjustNlink, setOwners, hv] at hno
    have hi : ino' ≠ ino := by
      rintro rfl
      exact hno b hheld
    simp only [adjustNlink, setOwners, update_of_ne hi]
    exact h.moving ino' hno

/-! ## All steps -/

theorem ownerUnlinkInode_cases (h : s.ownerUnlinkInode w ino = some s') : s' = s.adjustNlink ino ∨
      (s.inodeData ino).nlink = 1 ∧ (s.adjustNlink ino).ownerDeallocResources w ino = some s' := by
  unfold Unlinks.ownerUnlinkInode at h
  dsimp only at h
  split_ifs at h with hneg hz
  · refine .inr ⟨?_, h⟩
    simp only [adjustNlink, update_self] at hz
    exact sub_eq_zero.1 hz
  · cases h
    exact .inl rfl

theorem Unlinking.unlinked_inode (h : Unlinking inodes (s.adjustNlink ino)) (hu : s.ownerUnlinkInode w ino = some s')
    (hheld : ino ∈ (view s.owners).held w) (hset : (s.inodeData ino).nlink = 1 → Moves s w ino → Settled s w ino) :
      Unlinking inodes s' := by
  rcases ownerUnlinkInode_cases hu with rfl | ⟨hn, hd⟩
  · exact h
  · refine h.dealloc hd hheld ?_
    rintro ⟨happ, best, hb, hne⟩
    rw [adjustNlink_bestWid] at hb
    exact hset hn ⟨happ, best, hb, hne⟩

theorem Inv.owner_of_not_underWay {o : Owners} (h : Inv inodes (view o)) (hin : ino ∈ inodes) (hno : ¬ UnderWay o ino) :
    (∀ id c, ¬ Open (view o) ino id c) ∧ ∃ w : ℕ, o.getInodeOwner ino = w ∧ ino ∈ (view o).held w := by
  have hopen (id : ℕ) (c : Ctx) (ho : Open (view o) ino id c) : False := hno ⟨id, c, ho⟩
  refine ⟨hopen, ?_⟩
  cases h.placed ino hin with
  | settled opens held mngWid owner => exact ⟨_, owner, (held _).2 rfl⟩
  | requested opens => exact (hopen _ _ ((opens _ _).2 ⟨rfl, rfl⟩)).elim
  | importing opens => exact (hopen _ _ ((opens _ _).2 ⟨rfl, rfl⟩)).elim
  | imported opens => exact (hopen _ _ ((opens _ _).2 ⟨rfl, rfl⟩)).elim
  | again opens => exact (hopen _ _ ((opens _ _).2 (.inl ⟨rfl, rfl⟩))).elim

section

variable (h : Unlinking inodes s)

include h

section

variable (hk : ino ∈ (s.owners.worker kMasterWidConst).inodeMap ∨ ino ∈ s.owners.unsafeReassignedInodes)

include hk

theorem Unlinking.known : ino ∈ inodes := by
  by_contra hn
  rcases hk with hk | hk
  · exact (h.inv.absent ino hn).2 _ hk
  · exact hn (h.away ino hk)

theorem Unlinking.unlink (hund : Undisturbed (.unlink ino) s) (hs : s.primaryHandoffToOwner ino = some s') :
    Unlinking inodes s' := by
  obtain ⟨hopen, w, hw, hheld⟩ := h.inv.owner_of_not_underWay (h.known hk) hund.1
  unfold Unlinks.primaryHandoffToOwner at hs
  rw [hw] at hs
  by_cases hm : (w : ℤ) = kMasterWidConst
  · rw [if_pos hm] at hs
    rw [Nat.cast_inj.1 hm] at hheld
    exact (h.here ino).unlinked_inode hs hheld fun hn hmv => hund.2 (hw.trans hm) hn hmv
  · rw [if_neg hm, if_neg (by omega)] at hs
    cases hs
    exact h.send hopen hheld

end

theorem Unlinking.took_dealloc {s₂ : Unlinks} {c : Ctx} (hr : s.owners.ring a b = .kReassignment id :: rest)
    (hc : s.owners.ctx id = some c) (hd : c.deleted = false) (hst : c.state = .kNewOwnerImport)
    (hn : c.newOwnerCallback = some .ownerDeallocResources)
    (hs : (s.setOwners ((s.owners.setRing a b rest).importExported b id c)).ownerDeallocResources b
      c.exportedInode.ino = some s₂) : Unlinking inodes (s₂.setOwners (s₂.owners.notifyImported b id c)) := by
  have hmem : id ∈ (view s.owners).queue a b := by simp [view, hr, ctxOf]
  have hroute := h.inv.queues.route_of_mem hmem hc
  rw [route, hst] at hroute
  have hb : c.exportedInode.importerWid = b := (Prod.mk.inj hroute).2
  have hbest := h.aimed id c ⟨hc, hd, rfl, by simp [hst]⟩ hn (Or.inr hst)
  rw [hb] at hbest
  rcases ownerDeallocResources_cases hs with hstays | ⟨best, o', -, hb', hne, -⟩
  · obtain ⟨hworker, hminode, hring, -⟩ := importExported_fields (s.owners.setRing a b rest) b id c
    have hheld : c.exportedInode.ino ∈ (view s₂.owners).held b := by
      rw [hstays.view]
      refine (congrArg (fun f => c.exportedInode.ino ∈ (f b).inodeMap) hworker).mpr ?_
      rw [update_self]
      exact Finset.mem_insert_self _ _
    refine h.took hr hc hd ?_ ?_ ?_ (fun w x hx => ?_) hstays.inodeData hstays.removed hstays.unlinked
    · rw [← view_setRing]
      exact view_notifyImported hst hstays.view
    · exact (Appends.of_eq (hstays.ring.trans hring)).trans (appends_notifyImported s₂.owners b id c)
    · refine (hstays.fds ?_).congr (fun _ => ⟨rfl, rfl⟩) fun _ => rfl
      refine Fds.processed (o := s.owners) h.fds (w := b) (c := c) ?_ fun i => ?_
      · exact hworker.trans (if_pos hst).symm
      · exact congrArg (fun m => (m i).appFdMap) hminode
    · rcases hstays.requests w x hx with hx | ⟨rfl, hi⟩
      · exact Or.inl hx
      · refine Or.inr ?_
        rw [hi]
        exact hheld
  · exact absurd (Option.some.inj (hb'.symm.trans hbest)) hne

theorem Unlinking.process (hund : Undisturbed (.process a b) s) (hs : s.process a b = some s') :
    Unlinking inodes s' := by
  obtain ⟨⟨msg, o1⟩, hrecv, hs⟩ := bind_eq_some_iff.1 hs
  obtain ⟨rest, hr, -, rfl⟩ := recvMessage_eq_some hrecv
  cases msg with
  | kOwnerUnlinkInode ino =>
    dsimp only at hs
    split_ifs at hs with hin
    refine (h.received hr).unlinked_inode hs ?_ fun hn hmv => ?_
    · exact hin
    · obtain ⟨hno, hreq⟩ := hund ino rest hr hn hmv
      obtain ⟨rfl, -⟩ := h.sent a b ino (hr ▸ mem_cons_self)
      refine ⟨?_, hreq⟩
      rw [setOwners, setRing_ring, if_pos ⟨rfl, rfl⟩]
      exact hno
  | kReassignment id =>
    obtain ⟨c, hc, hs'⟩ := bind_eq_some_iff.1 hs
    have hc' : s.owners.ctx id = some c := hc
    split_ifs at hs' with hcb
    · obtain ⟨hd, hst, hn⟩ := hcb
      obtain ⟨s2, hs2, rfl⟩ := map_eq_some_iff.1 hs'
      exact h.took_dealloc hr hc' hd hst hn hs2
    · obtain ⟨o', ho', rfl⟩ := map_eq_some_iff.1 hs'
      have hproc : s.owners.process (fun _ _ o => o) a b = some o' := by
        rw [Owners.process, hrecv]
        exact ho'
      obtain ⟨id', rest', d, hq, hctx, hd, hv⟩ := process_view (fun _ _ _ => rfl) hproc
      have hq' : (view s.owners).queue a b = id :: rest.filterMap ctxOf := by simp [view, hr, ctxOf]
      obtain ⟨rfl, rfl⟩ := List.cons.inj (hq.symm.trans hq')
      obtain ⟨hw, hi, -, happ⟩ := process_fields hc ho'
      exact h.took hr hctx hd hv happ (h.fds.processed hw hi) (fun _ _ hx => .inl hx) rfl rfl rfl

theorem Unlinking.resume {k : ℕ} (hund : Undisturbed (.resume w k) s) (hs : s.resume w k = some s') :
    Unlinking inodes s' := by
  obtain ⟨x, hx, hs⟩ := bind_eq_some_iff.1 hs
  have hmem : x ∈ s.genericRequests w := mem_of_getElem? hx
  have hrel : Unlinking inodes (s.releaseFsReq w k x.2) := by
    refine h.kept rfl h.fds rfl (fun w' y hy => .inl ?_) (fun _ _ => rfl) rfl rfl
    simp only [releaseFsReq, update_apply] at hy
    split_ifs at hy with hw
    · rw [hw]
      exact mem_of_mem_eraseIdx hy
    · exact hy
  refine hrel.dealloc hs (h.waiting w x hmem) fun hmv => ?_
  obtain ⟨hno, hreq⟩ := hund x hx hmv
  refine ⟨hno, fun y hy => hreq y ?_⟩
  simpa only [releaseFsReq, update_self] using hy

theorem Unlinking.closeFd {q : ℕ × ℕ} (hund : Undisturbed (.closeFd w q) s) (hs : s.processClose w q = some s') :
    Unlinking inodes s' := by
  obtain ⟨ino, hq, hs⟩ := bind_eq_some_iff.1 hs
  have hheld := (h.fds w q ino hq).1
  have hv : view (s.owners.delFdMappingOnClose w ino q) = view s.owners := view_setFds rfl rfl
  have hclosed : Unlinking inodes (s.setOwners (s.owners.delFdMappingOnClose w ino q)) :=
    h.kept hv (h.fds.delFdMappingOnClose (fun w' hw' => h.inv.held_unique hw' hheld) q) rfl (fun _ _ hx => .inl hx)
      (fun _ _ => rfl) rfl rfl
  dsimp only at hs
  split_ifs at hs with hc
  · refine hclosed.dealloc hs ?_ fun hmv => hund ino hq hc.1 hmv
    rw [setOwners, hv]
    exact hheld
  · cases hs
    exact hclosed

theorem Unlinking.step {l : Unlinks.Label} (hund : Undisturbed l s) (hs : Unlinks.step l s = some s') :
    Unlinking inodes s' := by
  cases l with
  | reassign w ino dst called =>
    simp only [Unlinks.step] at hs
    split_ifs at hs with hidle hcalled
    all_goals
      obtain ⟨o', ho', rfl⟩ := map_eq_some_iff.1 hs
      exact h.exported ho' hund (by simp)
  | process a b => exact h.process hund hs
  | unlink ino =>
    simp only [Unlinks.step] at hs
    split_ifs at hs with hk
    exact h.unlink hk.2 hund hs
  | resume w k =>
    simp only [Unlinks.step] at hs
    split_ifs at hs
    exact h.resume hund hs
  | openFd w ino q =>
    simp only [Unlinks.step] at hs
    split_ifs at hs with hw
    cases hs
    exact h.kept (view_setFds rfl rfl) (h.fds.addFdMappingOnOpen hw.2 q) rfl (fun _ _ hx => .inl hx)
      (fun _ _ => rfl) rfl rfl
  | closeFd w q =>
    simp only [Unlinks.step] at hs
    split_ifs at hs
    exact h.closeFd hund hs
  | modify w ino d onClose =>
    simp only [Unlinks.step] at hs
    split_ifs at hs with hw
    cases hs
    refine h.kept rfl h.fds rfl (fun _ _ hx => .inl hx) (fun ino' hno => ?_) rfl rfl
    have hne : ino' ≠ ino := by
      rintro rfl
      exact hno w hw.2
    simp only [bestWid, Unlinks.modify, update_of_ne hne]

theorem Unlinking.atOwner {l : Unlinks.Label} (hund : Undisturbed l s) : AtOwner l s := by
  cases l with
  | unlink ino =>
    intro hk
    obtain ⟨-, w, hw, hheld⟩ := h.inv.owner_of_not_underWay (h.known hk) hund.1
    rw [hw]
    refine ⟨by omega, fun hm => ?_⟩
    rw [Nat.cast_inj.1 hm] at hheld
    exact hheld
  | process a b => exact fun ino rest hr => (h.sent a b ino (hr ▸ mem_cons_self)).2.2
  | resume w k => exact fun x hx => h.waiting w x (mem_of_getElem? hx)
  | _ => trivial

end

/-! ## Every removed link is unlinked -/

/-- Messages were only added. -/
def Grows (o o' : Owners) : Prop := ∀ a b, ∃ added, o'.ring a b = o.ring a b ++ added

theorem Appends.grows {o o' : Owners} (h : Appends o o') : Grows o o' := fun a b => (h a b).imp' _ fun _ h => h

theorem appends_dealloc (h : s.ownerDeallocResources w ino = some s') : Appends s.owners s'.owners := by
  rcases ownerDeallocResources_cases h with hst | ⟨best, o', -, -, -, he, rfl⟩
  · exact .of_eq hst.ring
  · exact (export_fields he).2.2.2

theorem counts_dealloc (h : s.ownerDeallocResources w ino = some s') :
    s'.removed = s.removed ∧ s'.unlinked = s.unlinked := by
  rcases ownerDeallocResources_cases h with hst | ⟨best, o', -, -, -, -, rfl⟩
  · exact ⟨hst.removed, hst.unlinked⟩
  · exact ⟨rfl, rfl⟩

theorem ownerUnlinkInode_counts (h : s.ownerUnlinkInode w ino = some s') :
    Appends s.owners s'.owners ∧ s'.removed = s.removed ∧ s'.unlinked = update s.unlinked ino (s.unlinked ino + 1) := by
  rcases ownerUnlinkInode_cases h with rfl | ⟨-, hd⟩
  · exact ⟨.of_eq rfl, rfl, rfl⟩
  · have happ := appends_dealloc hd
    obtain ⟨hr, hu⟩ := counts_dealloc hd
    exact ⟨happ, hr, hu⟩

theorem processReassignmentCtx_counts (h : s.processReassignmentCtx w id = some s') :
    Appends s.owners s'.owners ∧ s'.removed = s.removed ∧ s'.unlinked = s.unlinked := by
  obtain ⟨c, hc, h⟩ := bind_eq_some_iff.1 h
  split_ifs at h
  · obtain ⟨s2, hs2, rfl⟩ := map_eq_some_iff.1 h
    have happ := appends_dealloc hs2
    obtain ⟨hr, hu⟩ := counts_dealloc hs2
    refine ⟨?_, hr, hu⟩
    refine Appends.trans (Appends.trans (.of_eq ?_) happ) (appends_notifyImported s2.owners w id c)
    exact (importExported_fields s.owners w id c).2.2.1
  · obtain ⟨o', ho', rfl⟩ := map_eq_some_iff.1 h
    exact ⟨(process_fields hc ho').2.2.2, rfl, rfl⟩

theorem process_counts (h : s.process a b = some s') :
    ∃ msg rest, s.owners.ring a b = msg :: rest ∧ Appends (s.owners.setRing a b rest) s'.owners ∧
      s'.removed = s.removed ∧ match msg with
        | .kReassignment _ => s'.unlinked = s.unlinked
        | .kOwnerUnlinkInode ino => s'.unlinked = update s.unlinked ino (s.unlinked ino + 1) := by
  obtain ⟨⟨msg, o1⟩, hrecv, h⟩ := bind_eq_some_iff.1 h
  obtain ⟨rest, hr, -, rfl⟩ := recvMessage_eq_some hrecv
  refine ⟨msg, rest, hr, ?_⟩
  cases msg with
  | kReassignment id =>
    exact processReassignmentCtx_counts (s := s.setOwners (s.owners.setRing a b rest)) h
  | kOwnerUnlinkInode ino =>
    dsimp only at h
    split_ifs at h
    exact ownerUnlinkInode_counts h

theorem le_update_succ (f : ℕ → ℕ) (ino ino' : ℕ) : f ino' ≤ update f ino (f ino + 1) ino' := by
  rw [update_apply]
  split_ifs with hi
  · rw [hi]
    exact Nat.le_succ _
  · exact le_rfl

theorem step_counts {l : Unlinks.Label} (h : Unlinks.step l s = some s') (hl : ∀ a b, l ≠ .process a b) :
    Grows s.owners s'.owners ∧
      (∀ ino, s.removed ino ≤ s'.removed ino) ∧ ∀ ino, s.unlinked ino ≤ s'.unlinked ino := by
  have hsame {s1 s2 : Unlinks} (ha : Appends s1.owners s2.owners) (hr : s2.removed = s1.removed)
      (hu : s2.unlinked = s1.unlinked) : Grows s1.owners s2.owners ∧
        (∀ ino, s1.removed ino ≤ s2.removed ino) ∧ ∀ ino, s1.unlinked ino ≤ s2.unlinked ino :=
    ⟨ha.grows, fun ino => (congrFun hr ino).ge, fun ino => (congrFun hu ino).ge⟩
  cases l with
  | process a b => exact absurd rfl (hl a b)
  | reassign w ino dst called =>
    simp only [Unlinks.step] at h
    split_ifs at h
    all_goals
      obtain ⟨o', ho', rfl⟩ := map_eq_some_iff.1 h
      exact hsame (export_fields ho').2.2.2 rfl rfl
  | unlink ino =>
    simp only [Unlinks.step] at h
    split_ifs at h
    unfold Unlinks.primaryHandoffToOwner at h
    dsimp only at h
    split_ifs at h
    · obtain ⟨ha, hr, hu⟩ := ownerUnlinkInode_counts h
      exact ⟨ha.grows, fun i => hr ▸ le_update_succ _ _ i, fun i => hu ▸ le_update_succ _ _ i⟩
    · cases h
      refine ⟨fun a b => ?_, fun i => le_update_succ _ _ i, fun i => le_rfl⟩
      rw [setOwners, Owners.sendMessage, setRing_ring]
      split_ifs with hab
      · exact ⟨_, by rw [hab.1, hab.2]⟩
      · exact ⟨[], (append_nil _).symm⟩
  | resume w k =>
    simp only [Unlinks.step] at h
    split_ifs at h
    obtain ⟨x, -, h⟩ := bind_eq_some_iff.1 h
    have ha := appends_dealloc h
    obtain ⟨hr, hu⟩ := counts_dealloc h
    exact hsame ha hr hu
  | openFd w ino q =>
    simp only [Unlinks.step] at h
    split_ifs at h
    cases h
    exact hsame (.of_eq rfl) rfl rfl
  | closeFd w q =>
    simp only [Unlinks.step] at h
    split_ifs at h
    obtain ⟨ino, -, h⟩ := bind_eq_some_iff.1 h
    dsimp only at h
    split_ifs at h
    · have ha := appends_dealloc h
      obtain ⟨hr, hu⟩ := counts_dealloc h
      exact hsame ha hr hu
    · cases h
      exact hsame (.of_eq rfl) rfl rfl
  | modify w ino d onClose =>
    simp only [Unlinks.step] at h
    split_ifs at h
    cases h
    exact hsame (.of_eq rfl) rfl rfl

theorem counts_mono {l : Unlinks.Label} (h : Unlinks.step l s = some s')
    (ino : ℕ) : s.removed ino ≤ s'.removed ino ∧ s.unlinked ino ≤ s'.unlinked ino := by
  by_cases hp : ∃ a b, l = .process a b
  · obtain ⟨a, b, rfl⟩ := hp
    obtain ⟨msg, rest, -, -, hr, hu⟩ := process_counts h
    refine ⟨(congrFun hr ino).ge, ?_⟩
    cases msg with
    | kReassignment id => exact (congrFun hu ino).ge
    | kOwnerUnlinkInode i =>
      rw [hu]
      exact le_update_succ _ _ _
  · obtain ⟨-, hr, hu⟩ := step_counts h fun a b he => hp ⟨a, b, he⟩
    exact ⟨hr ino, hu ino⟩

section

variable {inodes : Finset ℕ} {s : ℕ → Unlinks} {l : ℕ → Option Unlinks.Label}
  (hexec : Execution Unlinks.step s l) (hinv : ∀ t, Unlinking inodes (s t))

include hexec hinv

omit hinv in
theorem ring_of_execution (a b : ℕ) : Queue (fun t => (s t).owners.ring a b) (fun t => l t = some (.process a b)) := by
  intro t
  dsimp only
  cases hl : l t with
  | none =>
    refine Or.inr ⟨by simp, [], ?_⟩
    rw [hexec.waits hl, append_nil]
  | some lab =>
    have hs := hexec.steps hl
    by_cases hp : ∃ x y, lab = .process x y
    · obtain ⟨x, y, rfl⟩ := hp
      obtain ⟨msg, rest, hr, happ, -⟩ := process_counts hs
      obtain ⟨ids, hids⟩ := happ a b
      rw [setRing_ring] at hids
      by_cases hab : a = x ∧ b = y
      · obtain ⟨rfl, rfl⟩ := hab
        rw [if_pos ⟨rfl, rfl⟩] at hids
        exact Or.inl ⟨rfl, msg, rest, _, hr, hids⟩
      · rw [if_neg hab] at hids
        refine Or.inr ⟨fun h => hab ?_, _, hids⟩
        cases h
        exact ⟨rfl, rfl⟩
    · have hne (x y : ℕ) : lab ≠ .process x y := fun h => hp ⟨x, y, h⟩
      obtain ⟨added, hadd⟩ := (step_counts hs hne).1 a b
      exact Or.inr ⟨fun h => hne a b (Option.some.inj h), added, hadd⟩

omit hinv in
theorem counts_of_execution {t t' : ℕ} (hle : t ≤ t') (ino : ℕ) :
    (s t).removed ino ≤ (s t').removed ino ∧ (s t).unlinked ino ≤ (s t').unlinked ino := by
  induction t', hle using Nat.le_induction with
  | base => exact ⟨le_rfl, le_rfl⟩
  | succ n _ ih =>
    cases hl : l n with
    | none =>
      rw [hexec.waits hl]
      exact ih
    | some lab =>
      obtain ⟨hr, hu⟩ := counts_mono (hexec.steps hl) ino
      exact ⟨ih.1.trans hr, ih.2.trans hu⟩

theorem unlinked_of_fair (hfair : ∀ a b t, (s t).owners.ring a b ≠ [] → ∃ t' ≥ t, l t' = some (.process a b))
    (t ino : ℕ) : ∃ t' ≥ t, (s t).removed ino ≤ (s t').unlinked ino := by
  refine exists_le_of_grows (f := fun t' => (s t').unlinked ino) fun t' hle hlt => ?_
  obtain ⟨w, -, hcount⟩ := (hinv t').unlinkedOnce ino
  have hpos : 0 < ((s t').owners.ring kMasterWidConst w).count (.kOwnerUnlinkInode ino) := by
    have := (counts_of_execution hexec hle ino).1
    omega
  obtain ⟨t1, hle1, hl, rest, hr⟩ := (ring_of_execution hexec kMasterWidConst w).served (hfair kMasterWidConst w)
    (count_pos_iff.1 hpos)
  refine ⟨t1 + 1, Nat.le_succ_of_le hle1, ?_⟩
  obtain ⟨msg, rest', hr', -, -, hu⟩ := process_counts (hexec.steps hl)
  obtain ⟨rfl, -⟩ := List.cons.inj (hr.symm.trans hr')
  have hmono := (counts_of_execution hexec hle1 ino).2
  rw [hu, update_self]
  omega

end

/-! ## The result -/

/-- Every inode is with the primary, with no descriptor. -/
def unlinksStart (inodes : Finset ℕ) (inodeData : ℕ → CfsDinode) : Unlinks :=
  Unlinks.start (Owners.start inodes (fun _ => ∅) fun _ => none) inodeData

theorem unlinking_start (inodes : Finset ℕ) (inodeData : ℕ → CfsDinode) :
    Unlinking inodes (unlinksStart inodes inodeData) := by
  obtain ⟨hinv, -⟩ := inv_start inodes (fun _ => ∅) fun _ => none
  refine ⟨hinv, fun w q ino hq => ?_, fun ino hi => ?_, fun a w ino hm => ?_, fun w x hx => ?_, fun id c ho => ?_,
    fun ino w hw => rfl, fun ino hno => rfl⟩
  · have hnone : ((unlinksStart inodes inodeData).owners.worker w).ownerAppFdMap q = none := by
      simp only [unlinksStart, Unlinks.start, Owners.start]
      split_ifs <;> rfl
    rw [hnone] at hq
    cases hq
  · exact absurd hi (Finset.notMem_empty ino)
  · exact absurd hm not_mem_nil
  · exact absurd hx not_mem_nil
  · cases ho.1

/-- Where no reassignment disturbs an unlink, every unlink goes to a worker and is done on the one that has
the inode, also when it waited for bitmap blocks; every removed link is unlinked once, or its unlink is on
its way; and it is unlinked in every execution in which the rings are read. -/
theorem unlink_reaches_owner (inodes : Finset ℕ) (inodeData : ℕ → CfsDinode) :
    (∀ ls, Along Unlinks.step Undisturbed ls (unlinksStart inodes inodeData) →
      Along Unlinks.step AtOwner ls (unlinksStart inodes inodeData) ∧
        ∀ s, run Unlinks.step ls (unlinksStart inodes inodeData) = some s → UnlinkedOnce s) ∧
      ∀ s l, s 0 = unlinksStart inodes inodeData → Execution Unlinks.step s l →
        (∀ t a, l t = some a → Undisturbed a (s t)) →
        (∀ a b t, (s t).owners.ring a b ≠ [] → ∃ t' ≥ t, l t' = some (.process a b)) →
        ∀ t ino, ∃ t' ≥ t, (s t).removed ino ≤ (s t').unlinked ino := by
  have h0 := unlinking_start inodes inodeData
  refine ⟨fun ls hal => ⟨?_, fun s hrun => ?_⟩, fun s l hs hexec hund hfair => ?_⟩
  · exact along_inv (fun _ _ h hu => h.atOwner hu) (fun _ _ _ h hu hs => h.step hu hs) hal h0
  · exact (run_inv (fun _ _ _ h hu hs => h.step hu hs) hrun hal h0).unlinkedOnce
  · have hinv (t : ℕ) : Unlinking inodes (s t) := by
      induction t with
      | zero => exact hs ▸ h0
      | succ t ih =>
        cases hl : l t with
        | none => exact hexec.waits hl ▸ ih
        | some a => exact ih.step (hund t a hl) (hexec.steps hl)
    exact unlinked_of_fair hexec hinv hfair

/-- An inode with one link and one block, of the first bitmap block of the primary. -/
def oneBlock : CfsDinode :=
  { CfsDinode.zero with nlink := 1, size := 4096, extArray := fun _ => ⟨0, 1, 0⟩ }

/-- The primary hands an inode with two links to worker 1, and unlinks it after. -/
theorem unlink_reaches_owner_moved : ∃ ls, Along Unlinks.step Undisturbed ls
    (unlinksStart {1} fun _ => { oneBlock with nlink := 2 }) ∧
      Along Unlinks.step AtOwner ls (unlinksStart {1} fun _ => { oneBlock with nlink := 2 }) ∧
      ∃ s, run Unlinks.step ls (unlinksStart {1} fun _ => { oneBlock with nlink := 2 }) = some s ∧
        s.unlinked 1 = 1 ∧ UnlinkedOnce s := by
  have hal : Along Unlinks.step Undisturbed [.reassign 0 1 1 true, .process 0 0, .process 0 1, .process 1 0,
      .process 0 0, .unlink 1, .process 0 1] (unlinksStart {1} fun _ => { oneBlock with nlink := 2 }) := by
    refine ⟨⟨List.not_mem_nil, fun _ h => absurd h List.not_mem_nil⟩, fun _ _ h => ?_, fun _ _ h => ?_,
      fun _ _ h => ?_, fun _ _ h => ?_, ⟨?_, fun h => absurd h (by decide)⟩, fun ino rest h hn => ?_, trivial⟩
    · cases h
    · cases h
    · cases h
    · cases h
    · rintro ⟨id, c, hc, hd, -⟩
      rcases id with _ | id
      · cases hc
        cases hd
      · cases hc
    · cases h
      exact absurd hn (by decide)
  obtain ⟨hat, honce⟩ := (unlink_reaches_owner _ _).1 _ hal
  exact ⟨_, hal, hat, _, rfl, rfl, honce _ rfl⟩

/-- The primary is told to unlink an inode that it is handing to worker 1: it has no worker to send to. The
unlink is on its way to worker 1, which exports the inode. And the inode is exported while its
deallocation waits for a bitmap block. -/
theorem unlink_in_transfer : (∃ s, run Unlinks.step [.reassign 0 1 1 true, .process 0 0]
      (unlinksStart {1} fun _ => oneBlock) = some s ∧ s.owners.Idle 0 ∧ ¬ AtOwner (.unlink 1) s) ∧
    (∃ s, run Unlinks.step [.reassign 0 1 1 true, .process 0 0, .process 0 1, .process 1 0, .process 0 0,
      .unlink 1, .reassign 1 1 0 true]
      (unlinksStart {1} fun _ => oneBlock) = some s ∧ ¬ AtOwner (.process 0 1) s) ∧
    ∃ s, run Unlinks.step [.unlink 1, .reassign 0 1 1 true, .process 0 0]
      (unlinksStart {1} fun _ => oneBlock) = some s ∧ ¬ AtOwner (.resume 0 0) s := by
  refine ⟨⟨_, rfl, rfl, fun h => ?_⟩, ⟨_, rfl, fun h => ?_⟩, ?_⟩
  · exact absurd (h (Or.inr (by decide))).1 (by decide)
  · exact absurd (h 1 _ rfl) (by decide)
  · have hrun : (run Unlinks.step [.unlink 1, .reassign 0 1 1 true, .process 0 0]
        (unlinksStart {1} fun _ => oneBlock)).map
          (fun s => ((s.genericRequests 0)[0]?.map Prod.fst, decide (1 ∈ (s.owners.worker 0).inodeMap))) =
        some (some 1, false) := by decide +kernel
    obtain ⟨s, hs, hp⟩ := Option.map_eq_some_iff.1 hrun
    obtain ⟨hx, hw⟩ := Prod.mk.inj hp
    obtain ⟨x, hx, hino⟩ := Option.map_eq_some_iff.1 hx
    exact ⟨s, hs, fun h => absurd (hino ▸ h x hx) (by simpa using hw)⟩

end Ufs.Proof.Ownership
