import Ufs.Impl.Descriptors
import Ufs.Proof.Ownership.Ends
import Ufs.Proof.Ownership.Fds

/-!
# An open descriptor is found

A request with a descriptor finds its inode as long as the client goes where it is sent. The primary
forgets a descriptor when it has told the client where the inode is, so it has to be one client with
one request at a time; and between the export of an inode by another worker and the moment the
primary hears of it, nobody knows the descriptor (`Orderly`). The invariant is `Traceable`: where an
inode is held, its descriptors are in the map of that worker, and the client goes there or the
primary has an entry for the descriptor.
-/

namespace Ufs.Proof.Ownership

open Impl ReassignmentOp
open Function (update update_of_ne update_self update_apply)
open Option

variable {inodes : Finset ℕ} {s : Descriptors} {q : ℕ × ℕ} {ino w : ℕ} {o' : Owners}

/-! ## The condition and what is to hold -/

/-- The descriptor is in a worker's table, or in an inode on its way. -/
def IsOpen (o : Owners) (q : ℕ × ℕ) : Prop :=
  (∃ w ino, (o.worker w).ownerAppFdMap q = some ino) ∨
    ∃ ino id, InFlight o ino id ∧ q ∈ (o.minode ino).appFdMap

/-- The inode of the descriptor was exported, and the primary was not yet told. -/
def Unheard (o : Owners) (q : ℕ × ℕ) : Prop :=
  ∃ id c, o.ctx id = some c ∧ c.deleted = false ∧ c.state = .kPrimaryRequestNewOwnerImport ∧
    q ∈ (o.minode c.exportedInode.ino).appFdMap

/-- A request goes where the last answer sent the client, and does not come to the primary before it was told
of an export; a descriptor is not used after it was closed, and a worker opens less than ten million
of them for a process. -/
def Orderly : Descriptors.Label → Descriptors → Prop
  | .reassign _, _ => True
  | .openFd w _ pid, s => s.fdIncr pid w < updateFdIncrByWid (w + 1)
  | .request q w _, s =>
    (IsOpen s.owners q → w = s.fdWidMap q ∧ (w = kMasterWidConst → ¬ Unheard s.owners q)) ∧
      (¬ IsOpen s.owners q → w = kMasterWidConst → s.owners.recentlyReassignedAppFdToInodes q = none)

/-- An open descriptor is not bad, the primary does not send a client to itself, and a descriptor that is
given out is not open already. -/
def Answered : Descriptors.Label → Descriptors → Prop
  | .reassign _, _ => True
  | .openFd w _ pid, s => ¬ IsOpen s.owners (pid, s.fdIncr pid w)
  | .request q w _, s =>
    (IsOpen s.owners q → (s.owners.ownerProcessFdReq w q).1 ≠ .ebadf) ∧
      (w = kMasterWidConst → s.owners.getFileObjForFd w q = none →
        s.owners.getRecentlyReassignedInodeFromFd q ≠ 0 →
          s.owners.getInodeOwner (s.owners.getRecentlyReassignedInodeFromFd q) ≠ kMasterWidConst)

/-! ## The invariant -/

/-- The primary has heard of every reassignment of the inode. -/
def Heard (v : View) (ino : ℕ) : Prop := ∀ id c, Open v ino id c → c.state ≠ .kPrimaryRequestNewOwnerImport

/-- The invariant behind the descriptors' way: what the owners keep, and that the client's map, the
table of the recently reassigned or the primary leads to the worker that has the inode. -/
structure Traceable (inodes : Finset ℕ) (s : Descriptors) : Prop where
  inv : Inv inodes (view s.owners)
  fds : Fds s.owners
  mapped : ∀ w ino q, ino ∈ (s.owners.worker w).inodeMap → q ∈ (s.owners.minode ino).appFdMap →
    (s.owners.worker w).ownerAppFdMap q = some ino
  unique : ∀ q ino ino', q ∈ (s.owners.minode ino).appFdMap → q ∈ (s.owners.minode ino').appFdMap → ino = ino'
  known : ∀ q ino, q ∈ (s.owners.minode ino).appFdMap → ino ∈ inodes ∧ ino ≠ 0
  counted : ∀ pid n ino, (pid, n) ∈ (s.owners.minode ino).appFdMap →
    ∃ w, updateFdIncrByWid w ≤ n ∧ n < s.fdIncr pid w
  bounded : ∀ pid w, updateFdIncrByWid w ≤ s.fdIncr pid w ∧ s.fdIncr pid w ≤ updateFdIncrByWid (w + 1)
  there : ∀ q ino w, q ∈ (s.owners.minode ino).appFdMap → Heard (view s.owners) ino →
    ino ∈ (s.owners.worker w).inodeMap →
      s.fdWidMap q = w ∨ w = kMasterWidConst ∨ s.owners.recentlyReassignedAppFdToInodes q = some ino
  away : ∀ q ino, q ∈ (s.owners.minode ino).appFdMap → Heard (view s.owners) ino →
    (∀ w, ino ∉ (s.owners.worker w).inodeMap) → s.owners.recentlyReassignedAppFdToInodes q = some ino

theorem Agree.heard {v v' : View} (h : Agree v v' ino) (hh : Heard v' ino) : Heard v ino :=
  fun id c ho => hh id c ((h.opens id c).2 ho)

theorem heard_of_advance {v : View} {b id : ℕ} {c : Ctx} (hc : v.ctx id = some c)
    (hs : c.state ≠ .kPrimaryRequestNewOwnerImport) (hh : Heard (v.advance b id c) ino) : Heard v ino := by
  intro id' c' ho
  by_cases hid : id' = id
  · subst hid
    cases hc.symm.trans ho.1
    exact hs
  · refine hh id' c' ⟨?_, ho.2⟩
    rw [advance_ctx, update_of_ne hid]
    exact ho.1

theorem request_cases (s : Descriptors) (q : ℕ × ℕ) (w : ℕ) (close : Bool) : s.request q w close = s ∨
    (∃ ino, (s.owners.worker w).ownerAppFdMap q = some ino ∧
      s.request q w close = { s with owners := s.owners.delFdMappingOnClose w ino q }) ∨
    ((s.owners.worker w).ownerAppFdMap q = none ∧ w ≠ kMasterWidConst ∧
      s.request q w close = { s with fdWidMap := update s.fdWidMap q kMasterWidConst }) ∨
    (s.owners.worker w).ownerAppFdMap q = none ∧ w = kMasterWidConst ∧
      s.owners.getInodeOwner (s.owners.getRecentlyReassignedInodeFromFd q) ≠ -1 ∧
      s.request q w close = { s with
        owners := s.owners.delRecentlyReassignedInodeEntries q
        fdWidMap := update s.fdWidMap q (s.owners.getInodeOwner
          (s.owners.getRecentlyReassignedInodeFromFd q)).toNat } := by
  unfold Descriptors.request Owners.ownerProcessFdReq Owners.getFileObjForFd
  cases hobj : (s.owners.worker w).ownerAppFdMap q with
  | some ino =>
    cases close with
    | true => exact .inr (.inl ⟨ino, rfl, rfl⟩)
    | false => exact .inl rfl
  | none =>
    simp only [Owners.primaryHandleUnknownFdReq, Owners.primaryRouteToOwner]
    by_cases hw : w = kMasterWidConst
    · rw [if_pos hw]
      by_cases hz : s.owners.getRecentlyReassignedInodeFromFd q = 0
      · rw [if_pos hz]
        exact .inl rfl
      · rw [if_neg hz]
        by_cases ho : s.owners.getInodeOwner (s.owners.getRecentlyReassignedInodeFromFd q) = -1
        · rw [if_pos ho]
          exact .inl rfl
        · rw [if_neg ho]
          exact .inr (.inr (.inr ⟨trivial, hw, ho, rfl⟩))
    · rw [if_neg hw]
      exact .inr (.inr (.inl ⟨trivial, hw, rfl⟩))

variable {pid : ℕ}

section

variable (h : Traceable inodes s)

include h

theorem Traceable.isOpen_iff (q : ℕ × ℕ) : IsOpen s.owners q ↔ ∃ ino, q ∈ (s.owners.minode ino).appFdMap := by
  constructor
  · rintro (⟨w, ino, hq⟩ | ⟨ino, id, -, hq⟩)
    · exact ⟨ino, (h.fds w q ino hq).2⟩
    · exact ⟨ino, hq⟩
  · rintro ⟨ino, hq⟩
    rcases (h.inv.placed ino (h.known q ino hq).1).exclusive with ⟨w, hw, -⟩ | ⟨⟨id, hid, -⟩, -⟩
    · exact .inl ⟨w, ino, h.mapped w ino q ((hw w).2 rfl) hq⟩
    · exact .inr ⟨ino, id, hid, hq⟩

theorem unheard_iff (hq : q ∈ (s.owners.minode ino).appFdMap) : ¬ Unheard s.owners q ↔ Heard (view s.owners) ino := by
  constructor
  · intro hn id c ho hst
    exact hn ⟨id, c, ho.1, ho.2.1, hst, ho.2.2.1 ▸ hq⟩
  · rintro hh ⟨id, c, hc, hd, hst, hq'⟩
    exact hh id c ⟨hc, hd, h.unique q _ _ hq' hq, by simp [hst]⟩ hst

/-! ## Answers -/

theorem Traceable.openFd_fresh (hlt : s.fdIncr pid w < updateFdIncrByWid (w + 1)) (ino : ℕ) :
    (pid, s.fdIncr pid w) ∉ (s.owners.minode ino).appFdMap := by
  intro hq
  obtain ⟨w', hle', hlt'⟩ := h.counted _ _ _ hq
  obtain ⟨hle, -⟩ := h.bounded pid w
  obtain ⟨-, hmax⟩ := h.bounded pid w'
  obtain rfl : w = w' := by
    simp only [updateFdIncrByWid] at *
    omega
  omega

theorem Traceable.entry (hq : q ∈ (s.owners.minode ino).appFdMap) (hwid : s.fdWidMap q = kMasterWidConst)
    (hheard : Heard (view s.owners) ino) (hno : s.owners.getFileObjForFd kMasterWidConst q = none) :
    s.owners.recentlyReassignedAppFdToInodes q = some ino ∧ s.owners.getInodeOwner ino ≠ kMasterWidConst := by
  have hmaster : ino ∉ (s.owners.worker kMasterWidConst).inodeMap := by
    intro hm
    rw [Owners.getFileObjForFd, h.mapped _ _ _ hm hq] at hno
    cases hno
  constructor
  · by_cases hw : ∃ w, ino ∈ (s.owners.worker w).inodeMap
    · obtain ⟨w, hw⟩ := hw
      rcases h.there q ino w hq hheard hw with hp | hp | hp
      · exact absurd (hwid.symm.trans hp ▸ hw) hmaster
      · exact absurd (hp ▸ hw) hmaster
      · exact hp
    · exact h.away q ino hq hheard fun w hm => hw ⟨w, hm⟩
  · intro howner
    obtain ⟨w, hw, hh⟩ := (h.inv.placed ino (h.known q ino hq).1).named (by
      intro hneg
      have := howner.symm.trans hneg
      simp [kMasterWidConst] at this)
    obtain rfl : kMasterWidConst = w := Int.ofNat_inj.1 (howner.symm.trans hw)
    rcases hh with hh | ⟨id, c, ho, hst, -⟩
    · exact hmaster hh
    · exact hheard id c ho hst

variable {l : Descriptors.Label}

theorem Traceable.answered (hl : Orderly l s) : Answered l s := by
  cases l with
  | reassign l => trivial
  | openFd w ino pid =>
    rintro hopen
    obtain ⟨ino', hq⟩ := (h.isOpen_iff _).1 hopen
    exact h.openFd_fresh hl ino' hq
  | request q w close =>
    -- what an open descriptor has at the primary
    have hentry {ino : ℕ} (hq : q ∈ (s.owners.minode ino).appFdMap) (hw : w = kMasterWidConst)
      (hno : s.owners.getFileObjForFd w q = none) :
        s.owners.recentlyReassignedAppFdToInodes q = some ino ∧ s.owners.getInodeOwner ino ≠ kMasterWidConst := by
      obtain ⟨hwid, hun⟩ := hl.1 ((h.isOpen_iff q).2 ⟨ino, hq⟩)
      subst hw
      exact h.entry hq hwid.symm ((unheard_iff h hq).1 (hun rfl)) hno
    refine ⟨fun hopen => ?_, fun hw hno hz => ?_⟩
    · obtain ⟨ino, hq⟩ := (h.isOpen_iff q).1 hopen
      unfold Owners.ownerProcessFdReq
      cases hobj : s.owners.getFileObjForFd w q with
      | some i => simp
      | none =>
        simp only [Owners.primaryHandleUnknownFdReq]
        split_ifs with hw hz
        · obtain ⟨he, -⟩ := hentry hq hw hobj
          simp only [Owners.getRecentlyReassignedInodeFromFd, he, getD_some] at hz
          exact absurd hz (h.known q ino hq).2
        · simp only [Owners.primaryRouteToOwner]
          split_ifs <;> simp
        · simp
    · by_cases hopen : IsOpen s.owners q
      · obtain ⟨ino, hq⟩ := (h.isOpen_iff q).1 hopen
        obtain ⟨he, howner⟩ := hentry hq hw hno
        simpa only [Owners.getRecentlyReassignedInodeFromFd, he, getD_some] using howner
      · simp only [Owners.getRecentlyReassignedInodeFromFd, hl.2 hopen hw, getD_none] at hz
        exact absurd rfl hz

/-! ## Reassignments -/

/-- A step of a reassignment leaves an inode where it is, with its descriptors, or the descriptors are found
after it too. -/
theorem Traceable.moved (hinv : Inv inodes (view o')) (hfds : Fds o')
    (happ : ∀ i, (o'.minode i).appFdMap = (s.owners.minode i).appFdMap)
    (hmapped : ∀ w ino q, ino ∈ (o'.worker w).inodeMap → q ∈ (s.owners.minode ino).appFdMap →
      (o'.worker w).ownerAppFdMap q = some ino)
    (hmove : ∀ q ino, q ∈ (s.owners.minode ino).appFdMap → Heard (view o') ino →
      o'.recentlyReassignedAppFdToInodes q = some ino ∨
        Heard (view s.owners) ino ∧ (∀ w, ino ∈ (o'.worker w).inodeMap ↔ ino ∈ (s.owners.worker w).inodeMap) ∧
          o'.recentlyReassignedAppFdToInodes q = s.owners.recentlyReassignedAppFdToInodes q) :
            Traceable inodes { s with owners := o' } where
  inv := hinv
  fds := hfds
  mapped w ino q hin hq := hmapped w ino q hin (happ ino ▸ hq)
  unique q ino ino' hq hq' := h.unique q ino ino' (happ ino ▸ hq) (happ ino' ▸ hq')
  known q ino hq := h.known q ino (happ ino ▸ hq)
  counted pid n ino hq := h.counted pid n ino (happ ino ▸ hq)
  bounded := h.bounded
  there q ino w hq hh hin := by
    rw [happ] at hq
    rcases hmove q ino hq hh with ht | ⟨hh', hheld, ht⟩
    · exact .inr (.inr ht)
    · have := h.there q ino w hq hh' ((hheld w).1 hin)
      rwa [← ht] at this
  away q ino hq hh hno := by
    rw [happ] at hq
    rcases hmove q ino hq hh with ht | ⟨hh', hheld, ht⟩
    · exact ht
    · exact ht.trans (h.away q ino hq hh' fun w hw => hno w ((hheld w).2 hw))

theorem Traceable.exported {dst : ℕ} {old new : Option CallbackFn}
    (he : s.owners.ownerExportThroughPrimary w ino dst old new = some o') :
    Traceable inodes { s with owners := o' } := by
  obtain ⟨hheld, hv⟩ := export_view he
  obtain ⟨hworker, happ, htable, -⟩ := export_fields he
  have hinv' : Inv inodes (view o') := h.inv.step (hv ▸ .start hheld rfl rfl rfl rfl)
  -- the primary has not heard of this export
  have hopen : Open (view o') ino (view s.owners).nextCtx
      ⟨.kPrimaryRequestNewOwnerImport, old, new, Owners.exportedInode (s.owners.worker w) w ino dst, false⟩ := by
    rw [hv]
    exact (open_startExport h.inv.queues rfl rfl rfl _ _).2 (.inr ⟨rfl, rfl⟩)
  have hagree {i : ℕ} (hi : i ≠ ino) : Agree (view s.owners) (view o') i := by
    rw [hv]
    exact agree_startExport h.inv.queues rfl hi
  refine h.moved hinv' (h.fds.exported he) happ (fun w' i q hin hq => ?_) fun q i hq hh => ?_
  · have hne : i ≠ ino := by
      rintro rfl
      exact hinv'.not_held hopen (.inl rfl) w' hin
    have hold := h.mapped w' i q (((hagree hne).held w').1 hin) hq
    rw [hworker, update_apply]
    split_ifs with hw
    · subst hw
      simp only [Owners.withoutInode, Owners.delExportedInodeFdMappings]
      rw [if_neg fun hq' => hne (h.unique q i ino hq hq')]
      exact hold
    · exact hold
  · have hne : i ≠ ino := by
      rintro rfl
      exact hh _ _ hopen rfl
    exact .inr ⟨(hagree hne).heard hh, (hagree hne).held, congrFun htable q⟩

theorem Traceable.processed {a b : ℕ} (hp : s.owners.process (fun _ _ o => o) a b = some o') :
    Traceable inodes { s with owners := o' } := by
  obtain ⟨id, rest, c, hr, hc, hd, hv, hworker', happ, htable'⟩ := process_taken hp
  have hq : (view s.owners).queue a b = id :: rest.filterMap ctxOf := by simp [view, hr, ctxOf]
  have hinv' : Inv inodes (view o') := h.inv.step (hv ▸ .take hq hc hd)
  have hagree {i : ℕ} (hi : ¬ (c.exportedInode.ino = i ∧ c.state ≠ .kOldOwnerExportSuccessNotification)) :
    Agree (view s.owners) (view o') i := by
    rw [hv]
    exact agree_advance hq hc hi
  refine h.moved hinv' (h.fds.processed hworker' happ) happ (fun w i q hin hfd => ?_) fun q i hfd hh => ?_
  · -- the new owner has the descriptors of the inode
    rw [hworker', workersAfter] at hin ⊢
    split_ifs at hin ⊢ with hst
    · rw [update_apply] at hin ⊢
      split_ifs at hin ⊢ with hw
      · simp only [Owners.withInode, Owners.addImportedInodeFdMappings] at hin ⊢
        split_ifs with hq'
        · obtain rfl := h.unique q i _ hfd hq'
          cases hold : (s.owners.worker b).ownerAppFdMap q with
          | none => rfl
          | some i' => rw [getD_some, h.unique q i' _ (h.fds b q i' hold).2 hq']
        · refine h.mapped b i q ((Finset.mem_insert.1 hin).resolve_left ?_) hfd
          rintro rfl
          exact hq' hfd
      · exact h.mapped w i q hin hfd
    · exact h.mapped w i q hin hfd
  · have hheld (hst : c.state ≠ .kNewOwnerImport) (w : ℕ) : i ∈ (o'.worker w).inodeMap ↔
      i ∈ (s.owners.worker w).inodeMap := by
      rw [hworker', workersAfter, if_neg hst]
    have hsame (hst : c.state ≠ .kPrimaryRequestNewOwnerImport) :
        o'.recentlyReassignedAppFdToInodes q = s.owners.recentlyReassignedAppFdToInodes q := by
      rw [htable', tableAfter, if_neg hst]
    have hheard (hst : c.state ≠ .kPrimaryRequestNewOwnerImport) : Heard (view s.owners) i := by
      rw [hv] at hh
      exact heard_of_advance (v := (view s.owners).setQueue a b (rest.filterMap ctxOf)) hc hst hh
    cases hst : c.state with
    | kPrimaryRequestNewOwnerImport =>
      rw [htable', tableAfter, if_pos hst]
      by_cases hi : c.exportedInode.ino = i
      · subst hi
        exact .inl (if_pos hfd)
      · have hag := hagree (i := i) fun hn => hi hn.1
        refine .inr ⟨hag.heard hh, hag.held, if_neg fun hq' => ?_⟩
        exact hi (h.unique q _ _ hq' hfd)
    | kNewOwnerImport =>
      by_cases hi : c.exportedInode.ino = i
      · subst hi
        left
        have hopen : Open (view s.owners) c.exportedInode.ino id c := ⟨hc, hd, rfl, by simp [hst]⟩
        rw [hsame (by simp [hst])]
        exact h.away q _ hfd (hheard (by simp [hst])) (h.inv.not_held hopen (.inr hst))
      · have hag := hagree (i := i) fun hn => hi hn.1
        exact .inr ⟨hag.heard hh, hag.held, hsame (by simp [hst])⟩
    | kPrimaryImportSuccessNotification =>
      exact .inr ⟨hheard (by simp [hst]), hheld (by simp [hst]), hsame (by simp [hst])⟩
    | kOldOwnerExportSuccessNotification =>
      exact .inr ⟨hheard (by simp [hst]), hheld (by simp [hst]), hsame (by simp [hst])⟩

/-! ## Opens and requests -/

theorem Traceable.opened (hin : ino ∈ (s.owners.worker w).inodeMap) (hz : ino ≠ 0)
    (hlt : s.fdIncr pid w < updateFdIncrByWid (w + 1)) : Traceable inodes (s.openFd w ino pid) := by
  have hfresh := h.openFd_fresh hlt
  have hv : view (s.openFd w ino pid).owners = view s.owners := view_setFds rfl rfl
  have hmem : ino ∈ inodes := by
    by_contra hn
    exact (h.inv.absent ino hn).2 w hin
  -- the descriptors of an inode are the old ones, and the new one for `ino`
  have hfds (q : ℕ × ℕ) (i : ℕ) (hq : q ∈ ((s.openFd w ino pid).owners.minode i).appFdMap) :
      q = (pid, s.fdIncr pid w) ∧ i = ino ∨ q ≠ (pid, s.fdIncr pid w) ∧ q ∈ (s.owners.minode i).appFdMap := by
    rw [Descriptors.openFd, addFdMappingOnOpen_appFdMap] at hq
    split_ifs at hq with hi
    · rcases Finset.mem_insert.1 hq with rfl | hq
      · exact .inl ⟨rfl, hi⟩
      · refine .inr ⟨?_, hq⟩
        rintro rfl
        exact hfresh i hq
    · refine .inr ⟨?_, hq⟩
      rintro rfl
      exact hfresh i hq
  have hincr (pid' w' : ℕ) : s.fdIncr pid' w' ≤ (s.openFd w ino pid).fdIncr pid' w' ∧
    ((s.openFd w ino pid).fdIncr pid' w' = s.fdIncr pid' w' ∨
        pid' = pid ∧ w' = w ∧ (s.openFd w ino pid).fdIncr pid' w' = s.fdIncr pid w + 1) := by
    simp only [Descriptors.openFd, update_apply]
    split_ifs with hp
    · subst hp
      rw [update_apply]
      split_ifs with hw
      · subst hw
        exact ⟨Nat.le_succ _, .inr ⟨rfl, rfl, rfl⟩⟩
      · exact ⟨le_rfl, .inl rfl⟩
    · exact ⟨le_rfl, .inl rfl⟩
  have hwid {q : ℕ × ℕ} (hq : q ≠ (pid, s.fdIncr pid w)) : (s.openFd w ino pid).fdWidMap q = s.fdWidMap q :=
    update_of_ne hq _ _
  refine ⟨hv ▸ h.inv, h.fds.addFdMappingOnOpen hin _, fun w' i q hi hq => ?_, fun q i i' hq hq' => ?_,
    fun q i hq => ?_, fun pid' n i hq => ?_, fun pid' w' => ?_, fun q i w' hq hh hi => ?_, fun q i hq hh hno => ?_⟩
  · rw [Descriptors.openFd, addFdMappingOnOpen_inodeMap] at hi
    rw [Descriptors.openFd, addFdMappingOnOpen_ownerAppFdMap]
    rcases hfds q i hq with ⟨rfl, rfl⟩ | ⟨hne, hq⟩
    · obtain rfl := h.inv.held_unique hi hin
      rw [if_pos ⟨rfl, rfl⟩]
      cases hold : (s.owners.worker w').ownerAppFdMap (pid, s.fdIncr pid w') with
      | none => rfl
      | some i' => exact absurd (h.fds _ _ _ hold).2 (hfresh i')
    · rw [if_neg fun hn => hne hn.2]
      exact h.mapped w' i q hi hq
  · rcases hfds q i hq with ⟨he, rfl⟩ | ⟨hne, hq⟩ <;> rcases hfds q i' hq' with ⟨he', rfl⟩ | ⟨hne', hq'⟩
    · rfl
    · exact absurd he hne'
    · exact absurd he' hne
    · exact h.unique q i i' hq hq'
  · rcases hfds q i hq with ⟨-, rfl⟩ | ⟨-, hq⟩
    · exact ⟨hmem, hz⟩
    · exact h.known q i hq
  · rcases hfds _ i hq with ⟨hq, -⟩ | ⟨-, hq⟩
    · obtain ⟨rfl, rfl⟩ := Prod.mk.inj hq
      refine ⟨w, (h.bounded pid' w).1, ?_⟩
      simp [Descriptors.openFd]
    · obtain ⟨w', hle, hn⟩ := h.counted pid' n i hq
      exact ⟨w', hle, hn.trans_le (hincr pid' w').1⟩
  · obtain ⟨hle, hle'⟩ := h.bounded pid' w'
    obtain ⟨hmono, heq | ⟨rfl, rfl, heq⟩⟩ := hincr pid' w'
    · rw [heq]
      exact ⟨hle, hle'⟩
    · rw [heq]
      exact ⟨by omega, hlt⟩
  · rw [hv] at hh
    rw [Descriptors.openFd, addFdMappingOnOpen_inodeMap] at hi
    rcases hfds q i hq with ⟨rfl, rfl⟩ | ⟨hne, hq⟩
    · left
      obtain rfl := h.inv.held_unique hi hin
      exact update_self _ _ _
    · rw [hwid hne]
      exact h.there q i w' hq hh hi
  · rw [hv] at hh
    have hno' (w' : ℕ) : i ∉ (s.owners.worker w').inodeMap := by
      have := hno w'
      rwa [Descriptors.openFd, addFdMappingOnOpen_inodeMap] at this
    rcases hfds q i hq with ⟨rfl, rfl⟩ | ⟨hne, hq⟩
    · exact absurd hin (hno' w)
    · exact h.away q i hq hh hno'

theorem Traceable.closed (hobj : (s.owners.worker w).ownerAppFdMap q = some ino) :
    Traceable inodes { s with owners := s.owners.delFdMappingOnClose w ino q } := by
  obtain ⟨hin, hfd⟩ := h.fds w q ino hobj
  have hv : view (s.owners.delFdMappingOnClose w ino q) = view s.owners := view_setFds rfl rfl
  have hfds (q' : ℕ × ℕ) (i : ℕ) (hq : q' ∈ ((s.owners.delFdMappingOnClose w ino q).minode i).appFdMap) :
      q' ≠ q ∧ q' ∈ (s.owners.minode i).appFdMap := by
    rw [delFdMappingOnClose_appFdMap] at hq
    split_ifs at hq with hi
    · exact Finset.mem_erase.1 hq
    · refine ⟨?_, hq⟩
      rintro rfl
      exact hi (h.unique _ _ _ hq hfd)
  refine ⟨hv ▸ h.inv, h.fds.delFdMappingOnClose (fun w' hw' => h.inv.held_unique hw' hin) q,
    fun w' i q' hi hq => ?_, fun q' i i' hq hq' => ?_, fun q' i hq => h.known q' i (hfds q' i hq).2,
    fun pid n i hq => h.counted pid n i (hfds _ i hq).2, h.bounded, fun q' i w' hq hh hi => ?_,
    fun q' i hq hh hno => ?_⟩
  · obtain ⟨hne, hq⟩ := hfds q' i hq
    rw [delFdMappingOnClose_inodeMap] at hi
    rw [delFdMappingOnClose_ownerAppFdMap, if_neg fun hn => hne hn.2]
    exact h.mapped w' i q' hi hq
  · exact h.unique q' i i' (hfds q' i hq).2 (hfds q' i' hq').2
  · rw [delFdMappingOnClose_inodeMap] at hi
    exact h.there q' i w' (hfds q' i hq).2 (hv ▸ hh) hi
  · refine h.away q' i (hfds q' i hq).2 (hv ▸ hh) fun w' => ?_
    have := hno w'
    rwa [delFdMappingOnClose_inodeMap] at this

theorem Traceable.redirected {wid : ℕ} (hview : view o' = view s.owners) (hworker : o'.worker = s.owners.worker)
    (hminode : o'.minode = s.owners.minode) (htable : ∀ q' ≠ q,
      o'.recentlyReassignedAppFdToInodes q' = s.owners.recentlyReassignedAppFdToInodes q')
    (hthere : ∀ ino w, q ∈ (s.owners.minode ino).appFdMap → Heard (view s.owners) ino →
      ino ∈ (s.owners.worker w).inodeMap →
        wid = w ∨ w = kMasterWidConst ∨ o'.recentlyReassignedAppFdToInodes q = some ino)
    (haway : ∀ ino, q ∈ (s.owners.minode ino).appFdMap → Heard (view s.owners) ino →
      (∀ w, ino ∉ (s.owners.worker w).inodeMap) → o'.recentlyReassignedAppFdToInodes q = some ino) :
    Traceable inodes { s with owners := o', fdWidMap := update s.fdWidMap q wid } := by
  refine ⟨hview ▸ h.inv, fun w q' i => ?_, fun w i q' => ?_, fun q' i i' => ?_, fun q' i => ?_,
    fun pid n i => ?_, h.bounded, fun q' i w hq hh hi => ?_, fun q' i hq hh hno => ?_⟩
  · rw [hworker, hminode]
    exact h.fds w q' i
  · rw [hworker, hminode]
    exact h.mapped w i q'
  · rw [hminode]
    exact h.unique q' i i'
  · rw [hminode]
    exact h.known q' i
  · rw [hminode]
    exact h.counted pid n i
  · rw [hminode] at hq
    rw [hview] at hh
    rw [hworker] at hi
    dsimp only
    by_cases hqq : q' = q
    · subst hqq
      rw [update_self]
      exact hthere i w hq hh hi
    · rw [update_of_ne hqq, htable q' hqq]
      exact h.there q' i w hq hh hi
  · rw [hminode] at hq
    rw [hview] at hh
    rw [hworker] at hno
    by_cases hqq : q' = q
    · subst hqq
      exact haway i hq hh hno
    · rw [htable q' hqq]
      exact h.away q' i hq hh hno

theorem Traceable.requested {close : Bool} (hl : Orderly (.request q w close) s) :
    Traceable inodes (s.request q w close) := by
  have hasked {ino : ℕ} (hq : q ∈ (s.owners.minode ino).appFdMap) := hl.1 ((h.isOpen_iff q).2 ⟨ino, hq⟩)
  rcases request_cases s q w close with he | ⟨ino, hobj, he⟩ | ⟨hobj, hw, he⟩ | ⟨hobj, rfl, hne, he⟩ <;> rw [he]
  · exact h
  · exact h.closed hobj
  · refine h.redirected rfl rfl rfl (fun _ _ => rfl) (fun ino w' hq hh hi => ?_) fun ino hq hh hno => ?_
    · rcases h.there q ino w' hq hh hi with hp | hp | hp
      · -- the worker that was asked is the one that has the inode
        rw [(hasked hq).1, hp, h.mapped w' ino q hi hq] at hobj
        cases hobj
      · exact .inl hp.symm
      · exact .inr (.inr hp)
    · exact h.away q ino hq hh hno
  · -- an open descriptor is with the owner that the primary names
    have hheld {ino : ℕ} (hq : q ∈ (s.owners.minode ino).appFdMap) (hh : Heard (view s.owners) ino) :
      ino ∈ (s.owners.worker
          (s.owners.getInodeOwner (s.owners.getRecentlyReassignedInodeFromFd q)).toNat).inodeMap := by
      obtain ⟨ht, -⟩ := h.entry hq (hasked hq).1.symm hh hobj
      have hino : s.owners.getRecentlyReassignedInodeFromFd q = ino := by
        rw [Owners.getRecentlyReassignedInodeFromFd, ht, getD_some]
      rw [hino] at hne ⊢
      obtain ⟨w', hw', hin | ⟨id, c, ho, hst, -⟩⟩ := (h.inv.placed ino (h.known q ino hq).1).named hne
      · have : s.owners.getInodeOwner ino = w' := hw'
        rw [this]
        exact hin
      · exact absurd hst (hh id c ho)
    refine h.redirected rfl rfl rfl (fun q' hqq => update_of_ne hqq _ _) (fun ino w' hq hh hi => ?_)
      fun ino hq hh hno => ?_
    · exact .inl (h.inv.held_unique (hheld hq hh) hi)
    · exact absurd (hheld hq hh) (hno _)

/-! ## The result -/

theorem Traceable.step {s' : Descriptors}
    (hl : Orderly l s) (hs : Descriptors.step l s = some s') : Traceable inodes s' := by
  cases l with
  | reassign l =>
    obtain ⟨o', ho', rfl⟩ := map_eq_some_iff.1 hs
    cases l with
    | start w ino dst old new =>
      simp only [Owners.step] at ho'
      split_ifs at ho'
      exact h.exported ho'
    | process a b => exact h.processed ho'
  | openFd w ino pid =>
    simp only [Descriptors.step] at hs
    split_ifs at hs with hw
    cases hs
    exact h.opened hw.2.1 hw.2.2 hl
  | request q w close =>
    simp only [Descriptors.step] at hs
    split_ifs at hs
    cases hs
    exact h.requested hl

end

theorem traceable_start (inodes : Finset ℕ) : Traceable inodes (Descriptors.start inodes) := by
  obtain ⟨hinv, -⟩ := inv_start inodes (fun _ => ∅) fun _ => none
  have hno (q : ℕ × ℕ) (ino : ℕ) : q ∉ ((Descriptors.start inodes).owners.minode ino).appFdMap :=
    Finset.notMem_empty q
  refine ⟨hinv, fun w q ino hq => ?_, fun w ino q _ hq => absurd hq (hno q ino),
    fun q ino ino' hq => absurd hq (hno q ino), fun q ino hq => absurd hq (hno q ino),
    fun pid n ino hq => absurd hq (hno _ ino), fun pid w => ⟨le_rfl, ?_⟩,
    fun q ino w hq => absurd hq (hno q ino), fun q ino hq => absurd hq (hno q ino)⟩
  · have hnone : ((Descriptors.start inodes).owners.worker w).ownerAppFdMap q = none := by
      simp only [Descriptors.start, Owners.start]
      split_ifs <;> rfl
    rw [hnone] at hq
    cases hq
  · simp only [Descriptors.start, updateFdIncrByWid]
    omega

/-- Where clients go where they are sent, a request for an open descriptor is never answered with `EBADF`, the
primary never routes to itself, and no descriptor is given out twice. -/
theorem descriptor_found (inodes : Finset ℕ) (ls : List Descriptors.Label)
    (h : Along Descriptors.step Orderly ls (Descriptors.start inodes)) :
    Along Descriptors.step Answered ls (Descriptors.start inodes) :=
  along_inv (fun _ _ ht hl => ht.answered hl) (fun _ _ _ ht hl hs => ht.step hl hs) h (traceable_start inodes)

/-- The inode goes from the primary to worker 1. -/
def moveTo1 (ino : ℕ) : List Descriptors.Label :=
  [.reassign (.start 0 ino 1 none none), .reassign (.process 0 0), .reassign (.process 0 1),
    .reassign (.process 1 0), .reassign (.process 0 0)]

/-- Process 7 opens an inode on the primary, and uses the descriptor when the inode is on worker 1. -/
theorem descriptor_found_moved : ∃ s, run Descriptors.step (.openFd 0 1 7 :: moveTo1 1 ++ [.request (7, 100000) 0 false,
        .request (7, 100000) 1 true]) (Descriptors.start {1}) = some s ∧
      Along Descriptors.step Answered (.openFd 0 1 7 :: moveTo1 1 ++ [.request (7, 100000) 0 false,
        .request (7, 100000) 1 true]) (Descriptors.start {1}) := by
  refine ⟨_, rfl, descriptor_found {1} _ ?_⟩
  have hfew : updateFdIncrByWid 0 < updateFdIncrByWid 1 := by decide
  refine ⟨hfew, trivial, trivial, trivial, trivial, trivial, ⟨fun _ => ⟨rfl, fun _ => ?_⟩, fun hno => ?_⟩,
    ⟨fun _ => ⟨rfl, fun hw => ?_⟩, fun hno => ?_⟩, trivial⟩
  · rintro ⟨id, c, hc, hd, -⟩
    rcases id with _ | id
    · cases hc
      cases hd
    · cases hc
  · exact absurd (Or.inl ⟨1, 1, rfl⟩) hno
  · cases hw
  · exact absurd (Or.inl ⟨1, 1, rfl⟩) hno

theorem run_opens (hidle : s.owners.Idle 0) (hin : ino ∈ (s.owners.worker 0).inodeMap) (hz : ino ≠ 0) (k : ℕ) :
    ∃ s', run Descriptors.step (List.replicate k (.openFd 0 ino pid)) s = some s' ∧
      s'.fdIncr pid 0 = s.fdIncr pid 0 + k ∧ s'.owners.worker 1 = s.owners.worker 1 := by
  induction k generalizing s with
  | zero => exact ⟨s, rfl, rfl, rfl⟩
  | succ k ih =>
    have hstep : Descriptors.step (.openFd 0 ino pid) s = some (s.openFd 0 ino pid) :=
      if_pos ⟨hidle, hin, hz⟩
    have hin' : ino ∈ ((s.openFd 0 ino pid).owners.worker 0).inodeMap := by
      rw [Descriptors.openFd, addFdMappingOnOpen_inodeMap]
      exact hin
    obtain ⟨s', hrun, hincr, hworker⟩ := ih (s := s.openFd 0 ino pid) hidle hin'
    refine ⟨s', run_cons_eq_some.2 ⟨_, hstep, hrun⟩, ?_, ?_⟩
    · rw [hincr]
      simp only [Descriptors.openFd, update_self]
      omega
    · rw [hworker, Descriptors.openFd, Owners.addFdMappingOnOpen, setWorker_worker, if_neg (by decide)]
      rfl

theorem run_opens_both (k : ℕ) : ∃ s, run Descriptors.step
    (moveTo1 2 ++ .openFd 1 2 7 :: List.replicate k (.openFd 0 1 7)) (Descriptors.start {1, 2}) = some s ∧
      s.fdIncr 7 0 = 100000 + k ∧ (s.owners.worker 1).ownerAppFdMap (7, 10100000) = some 2 := by
  have hbefore : ∃ s, run Descriptors.step (moveTo1 2 ++ [.openFd 1 2 7]) (Descriptors.start {1, 2}) = some s ∧
      s.owners.Idle 0 ∧ 1 ∈ (s.owners.worker 0).inodeMap ∧ s.fdIncr 7 0 = 100000 ∧
      (s.owners.worker 1).ownerAppFdMap (7, 10100000) = some 2 := ⟨_, rfl, rfl, by decide, rfl, rfl⟩
  obtain ⟨s, hrun, hidle, hin, hincr, hfd⟩ := hbefore
  obtain ⟨s', hrun', hincr', hworker⟩ := @run_opens s 1 7 hidle hin (by decide) k
  refine ⟨s', ?_, by rw [hincr', hincr], by rw [hworker, hfd]⟩
  rw [List.append_cons, run_append, hrun, bind_some, hrun']

/-- Worker 1 exports an inode, and the primary is asked for its descriptor before it hears of it. A second
request comes to the primary after it has sent the client on. A descriptor is used after it was closed on the
primary, where its inode had come back. And the primary gives out a descriptor that worker 1 gave out before. -/
theorem descriptor_lost : (∃ s, run Descriptors.step (.openFd 0 1 7 :: moveTo1 1 ++ [.request (7, 100000) 0 false,
        .reassign (.start 1 1 0 none none), .request (7, 100000) 1 false]) (Descriptors.start {1}) = some s ∧
      ¬ Answered (.request (7, 100000) 0 false) s) ∧ (∃ s, run Descriptors.step
        (.openFd 0 1 7 :: moveTo1 1 ++ [.request (7, 100000) 0 false])
        (Descriptors.start {1}) = some s ∧ ¬ Answered (.request (7, 100000) 0 false) s) ∧
    (∃ s, run Descriptors.step (.openFd 0 1 7 :: moveTo1 1 ++ [.reassign (.start 1 1 0 none none),
        .reassign (.process 1 0), .reassign (.process 0 0), .reassign (.process 0 0),
        .request (7, 100000) 0 true]) (Descriptors.start {1}) = some s ∧ ¬ Answered (.request (7, 100000) 0 false) s) ∧
    ∃ s, run Descriptors.step (moveTo1 2 ++ .openFd 1 2 7 :: List.replicate 10000000 (.openFd 0 1 7))
        (Descriptors.start {1, 2}) = some s ∧ ¬ Answered (.openFd 0 1 7) s := by
  refine ⟨⟨_, rfl, fun h => ?_⟩, ⟨_, rfl, fun h => ?_⟩, ⟨_, rfl, fun h => ?_⟩, ?_⟩
  · refine h.1 (Or.inr ⟨1, 1, ⟨_, rfl, rfl, rfl, Or.inl rfl⟩, by decide⟩) rfl
  · exact h.1 (Or.inl ⟨1, 1, rfl⟩) rfl
  · exact h.2 rfl rfl (by decide) rfl
  · obtain ⟨s, hrun, hincr, hfd⟩ := run_opens_both 10000000
    refine ⟨s, hrun, fun h => h (Or.inl ⟨1, 2, ?_⟩)⟩
    rw [hincr]
    exact hfd

end Ufs.Proof.Ownership
