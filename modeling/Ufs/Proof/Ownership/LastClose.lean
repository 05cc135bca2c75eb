import Ufs.Impl.FdTables

/-!
# An unlinked file is freed once, after its last close

`Settled` says of an inode how far it is: it has a link, it waits for its last close, or its
resources were given back or will be, once. `Tables` ties the two kinds of descriptor tables and
`ref` together, and `Links` the link count and the directory entries. They are kept by steps that
are `Orderly`: a file without links is not opened, while the workers handle the exit of a process it
opens nothing and no inode with one of its descriptors moves, and an unlink finds the inode at the
worker it is sent to.
-/

namespace Ufs.Proof.LastClose

open Impl FdTables
open Function (update update_of_ne update_self update_eq_self update_idem)
open List
open InodePlace (owned)

variable {s s' : FdTables} {env : DeallocEnv} {w ino j : ℕ} {q : ℕ × ℕ}

/-! ## Where an inode stands -/

/-- The deallocations that are under way: generic requests, and the callback of an inode in flight. -/
def pending (s : FdTables) (ino : ℕ) : ℕ :=
  s.generic.countP (fun x => x.2 = ino) + match s.place ino with
    | .inFlight _ true => 1
    | _ => 0

/-- The inode has no link and no descriptor, and was not yet freed. -/
structure Ready (s : FdTables) (ino : ℕ) : Prop where
  nlink : (s.inode ino).nlink = 0
  closed : (s.inode ino).appFdMap = ∅
  none : s.deallocs ino + pending s ino = 0

/-- Where an inode is: linked, open without a link, or freed once. -/
inductive Settled (s : FdTables) (ino : ℕ) : Prop where
  | linked (nlink : 0 < (s.inode ino).nlink) (flag : (s.inode ino).unlinkDeallocResourcesOnClose = false)
      (none : s.deallocs ino + pending s ino = 0)
  | opened (nlink : (s.inode ino).nlink = 0) (fds : (s.inode ino).appFdMap ≠ ∅)
      (flag : (s.inode ino).unlinkDeallocResourcesOnClose = true) (none : s.deallocs ino + pending s ino = 0)
  | freed (nlink : (s.inode ino).nlink = 0) (closed : (s.inode ino).appFdMap = ∅)
      (once : s.deallocs ino + pending s ino = 1)

/-- The reference count is the number of descriptors. -/
def Counted (s : FdTables) : Prop := ∀ ino, (s.inode ino).ref = (s.inode ino).appFdMap.card

theorem Counted.ref_eq_zero (h : Counted s) : (s.inode ino).ref = 0 ↔ (s.inode ino).appFdMap = ∅ := by
  rw [h ino, Int.natCast_eq_zero, Finset.card_eq_zero]

theorem Settled.congr (h : Settled s j) (hinode : s'.inode j = s.inode j) (hd : s'.deallocs j = s.deallocs j)
    (hp : pending s' j = pending s j) : Settled s' j := by
  cases h with
  | linked hn hf h0 => exact .linked (hinode ▸ hn) (hinode ▸ hf) (by rw [hd, hp]; exact h0)
  | opened hn hq hf h0 => exact .opened (hinode ▸ hn) (hinode ▸ hq) (hinode ▸ hf) (by rw [hd, hp]; exact h0)
  | freed hn hq h1 => exact .freed (hinode ▸ hn) (hinode ▸ hq) (by rw [hd, hp]; exact h1)

/-! ## Giving the resources back -/

/-- What `OwnerDeallocResources` does with an inode that has no descriptors: it gives the resources
back or starts to. -/
structure Deallocs (s s' : FdTables) (ino : ℕ) : Prop where
  inode : s'.inode = s.inode
  tables : s'.ownerAppFdMap = s.ownerAppFdMap
  used : s'.usedFds = s.usedFds
  exited : s'.exited = s.exited
  place : ∀ j, j ≠ ino → s'.place j = s.place j
  pendings : ∀ j, j ≠ ino → pending s' j = pending s j
  others : ∀ j, j ≠ ino → s'.deallocs j = s.deallocs j
  once : s'.deallocs ino + pending s' ino = s.deallocs ino + pending s ino + 1

theorem deallocs_local (s : FdTables) (w ino : ℕ) (inMem : Bool) : Deallocs s (s.deallocLocal w ino inMem) ino := by
  unfold FdTables.deallocLocal
  split
  · refine ⟨rfl, rfl, rfl, rfl, fun _ _ => rfl, fun _ _ => rfl, fun j hj => update_of_ne hj .., ?_⟩
    change update s.deallocs ino (s.deallocs ino + 1) ino + pending s ino = _
    rw [update_self]
    omega
  · refine ⟨rfl, rfl, rfl, rfl, fun _ _ => rfl, fun j hj => ?_, fun _ _ => rfl, ?_⟩
    · unfold pending
      rw [countP_cons_of_neg (by simpa using hj.symm)]
    · unfold pending
      rw [countP_cons_of_pos (by simp)]
      dsimp only
      omega

theorem deallocs_export (hempty : (s.inode ino).appFdMap = ∅) {best : ℕ}
    (h : s.ownerExport w ino best true = some s') : Deallocs s s' ino := by
  unfold FdTables.ownerExport at h
  split at h
  · next hplace =>
    cases h
    have hpend : ∀ j, j ≠ ino → update s.place ino (.inFlight best true) j = s.place j :=
      fun j hj => update_of_ne hj ..
    refine ⟨rfl, ?_, rfl, rfl, hpend, fun j hj => ?_, fun _ _ => rfl, ?_⟩
    · rw [hempty, filter_eq_self.2 fun x _ => by simp, update_eq_self]
    · unfold pending
      dsimp only
      rw [hpend j hj]
    · unfold pending
      dsimp only
      rw [update_self, hplace]
      dsimp only
      omega
  · cases h

theorem deallocs_of_empty (hc : Counted s) (hempty : (s.inode ino).appFdMap = ∅)
    (h : s.ownerDeallocResources env w ino = some s') : Deallocs s s' ino := by
  unfold FdTables.ownerDeallocResources at h
  rw [if_pos (hc.ref_eq_zero.2 hempty)] at h
  split at h
  · split at h
    · cases h
      exact deallocs_local ..
    · exact deallocs_export hempty h
  · cases h
    exact deallocs_local ..

theorem Ready.freed (h : Ready s ino) (hd : Deallocs s s' ino) : Settled s' ino := by
  refine .freed (hd.inode ▸ h.nlink) (hd.inode ▸ h.closed) ?_
  rw [hd.once, h.none]

/-! ## The tables -/

/-- The tables of the workers are those of the inodes they have. -/
structure Tables (s : FdTables) : Prop where
  counted : Counted s
  tabled : ∀ w q ino, (q, ino) ∈ s.ownerAppFdMap w ↔ s.place ino = .owned w ∧ q ∈ (s.inode ino).appFdMap
  used : ∀ ino, ∀ q ∈ (s.inode ino).appFdMap, q ∈ s.usedFds
  unique : ∀ ino ino' q, q ∈ (s.inode ino).appFdMap → q ∈ (s.inode ino').appFdMap → ino = ino'
  -- a descriptor of a process that exits is with a worker that has not handled the exit
  exits : ∀ ino, ∀ q ∈ (s.inode ino).appFdMap, s.exited q.1 ≠ [] → ∃ w, s.place ino = .owned w ∧ w ∉ s.exited q.1

theorem Tables.keep (h : Tables s) (hinode : ∀ j, (s'.inode j).appFdMap = (s.inode j).appFdMap ∧
    (s'.inode j).ref = (s.inode j).ref)
    (htables : s'.ownerAppFdMap = s.ownerAppFdMap) (hused : s'.usedFds = s.usedFds) (hexited : s'.exited = s.exited)
    (hplace : ∀ j, (s.inode j).appFdMap ≠ ∅ → s'.place j = s.place j) : Tables s' := by
  have hfds (j : ℕ) : (s'.inode j).appFdMap = (s.inode j).appFdMap := (hinode j).1
  have hsame {j : ℕ} {q : ℕ × ℕ} (hq : q ∈ (s.inode j).appFdMap) : s'.place j = s.place j :=
    hplace j (Finset.ne_empty_of_mem hq)
  refine ⟨fun j => ?_, fun w q j => ?_, fun j q hq => ?_, fun j j' q hq hq' => ?_, fun j q hq hne => ?_⟩
  · rw [(hinode j).2, hfds j]
    exact h.counted j
  · rw [htables, h.tabled, hfds j]
    exact ⟨fun hx => ⟨hsame hx.2 ▸ hx.1, hx.2⟩, fun hx => ⟨hsame hx.2 ▸ hx.1, hx.2⟩⟩
  · rw [hused]
    exact h.used j q (hfds j ▸ hq)
  · exact h.unique j j' q (hfds j ▸ hq) (hfds j' ▸ hq')
  · rw [hfds j] at hq
    rw [hsame hq, hexited]
    exact h.exits j q hq (hexited ▸ hne)

theorem Tables.dealloc (h : Tables s) (hd : Deallocs s s' ino) (hempty : (s.inode ino).appFdMap = ∅) : Tables s' := by
  refine h.keep (fun j => by rw [hd.inode]; exact ⟨rfl, rfl⟩) hd.tables hd.used hd.exited fun j hj => hd.place j ?_
  rintro rfl
  exact hj hempty

/-- The invariant: the tables agree, and each inode is settled. -/
structure Freed (s : FdTables) : Prop where
  tables : Tables s
  settled : ∀ ino, Settled s ino

theorem Freed.ofDeallocs (hd : Deallocs s s' ino) (htables : Tables s) (hothers : ∀ j, j ≠ ino → Settled s j)
    (hready : Ready s ino) : Freed s' := by
  refine ⟨htables.dealloc hd hready.closed, fun j => ?_⟩
  rcases eq_or_ne j ino with rfl | hj
  · exact hready.freed hd
  · exact (hothers j hj).congr (by rw [hd.inode]) (hd.others j hj) (hd.pendings j hj)

theorem Freed.ofReady (h : s.ownerDeallocResources env w ino = some s') (htables : Tables s)
    (hothers : ∀ j, j ≠ ino → Settled s j) (hready : Ready s ino) : Freed s' :=
  Freed.ofDeallocs (deallocs_of_empty htables.counted hready.closed h) htables hothers hready

/-! ## Closing descriptors -/

/-- An inode that lost a descriptor: what `deallocOnClose` finds. -/
inductive Due (s : FdTables) (ino : ℕ) : Prop where
  | settled (h : Settled s ino)
      (hnot : ¬ ((s.inode ino).unlinkDeallocResourcesOnClose = true ∧ (s.inode ino).appFdMap = ∅))
  | ready (h : Ready s ino) (flag : (s.inode ino).unlinkDeallocResourcesOnClose = true)

theorem Settled.due (h : Settled s ino) (hsome : (s.inode ino).appFdMap ≠ ∅)
    (hn : (s'.inode ino).nlink = (s.inode ino).nlink)
    (hf : (s'.inode ino).unlinkDeallocResourcesOnClose = (s.inode ino).unlinkDeallocResourcesOnClose)
    (hd : s'.deallocs ino + pending s' ino = s.deallocs ino + pending s ino) : Due s' ino := by
  cases h with
  | linked hnlink hflag h0 =>
    refine .settled (.linked (by rw [hn]; exact hnlink) (by rw [hf]; exact hflag) (by rw [hd]; exact h0)) fun hx => ?_
    rw [hf, hflag] at hx
    cases hx.1
  | opened hnlink _ hflag h0 =>
    by_cases hempty : (s'.inode ino).appFdMap = ∅
    · exact .ready ⟨hn.trans hnlink, hempty, hd.trans h0⟩ (hf.trans hflag)
    · exact .settled (.opened (hn.trans hnlink) hempty (hf.trans hflag) (hd.trans h0)) fun hx => hempty hx.2
  | freed _ hclosed _ => exact absurd hclosed hsome

theorem deallocOnClose_cases (hc : Counted s) (hdue : Due s ino) (h : s.deallocOnClose env w ino = some s') :
    s' = s ∧ Settled s ino ∨ Deallocs s s' ino ∧ Ready s ino := by
  unfold FdTables.deallocOnClose at h
  split at h
  · next hx =>
    cases hdue with
    | settled _ hnot => exact absurd ⟨hx.1, hc.ref_eq_zero.1 hx.2⟩ hnot
    | ready hready _ => exact .inr ⟨deallocs_of_empty hc hready.closed h, hready⟩
  · next hx =>
    cases h
    cases hdue with
    | settled hs _ => exact .inl ⟨rfl, hs⟩
    | ready hready hflag => exact absurd ⟨hflag, hc.ref_eq_zero.2 hready.closed⟩ hx

theorem Freed.ofDue (htables : Tables s) (hothers : ∀ j, j ≠ ino → Settled s j) (hdue : Due s ino)
    (h : s.deallocOnClose env w ino = some s') : Freed s' := by
  rcases deallocOnClose_cases htables.counted hdue h with ⟨rfl, hs⟩ | ⟨hd, hready⟩
  · refine ⟨htables, fun j => ?_⟩
    rcases eq_or_ne j ino with rfl | hj
    · exact hs
    · exact hothers j hj
  · exact Freed.ofDeallocs hd htables hothers hready

theorem delFd_counted {d : FdInode} (h : d.ref = d.appFdMap.card) (q : ℕ × ℕ) :
    (d.delFd q).ref = (d.delFd q).appFdMap.card := by
  unfold FdInode.delFd
  dsimp only
  by_cases hq : q ∈ d.appFdMap
  · have hpos := Finset.card_pos.2 ⟨q, hq⟩
    rw [if_pos hq, Finset.card_erase_of_mem hq, h]
    omega
  · rw [if_neg hq, Finset.erase_eq_of_notMem hq, h]

theorem Counted.setDelFd (h : Counted s) (ino : ℕ) (q : ℕ × ℕ) : Counted (s.setInode ino ((s.inode ino).delFd q)) := by
  intro j
  change (update s.inode ino ((s.inode ino).delFd q) j).ref =
    (update s.inode ino ((s.inode ino).delFd q) j).appFdMap.card
  rcases eq_or_ne j ino with rfl | hj
  · rw [update_self]
    exact delFd_counted (h j) q
  · rw [update_of_ne hj]
    exact h j

theorem Tables.remove (h : Tables s) (R : ℕ × ℕ → Prop) (hcounted : Counted s')
    (hfds : ∀ j q, q ∈ (s'.inode j).appFdMap ↔ q ∈ (s.inode j).appFdMap ∧ ¬ R q)
    (htab : ∀ w q j, (q, j) ∈ s'.ownerAppFdMap w ↔ (q, j) ∈ s.ownerAppFdMap w ∧ ¬ R q) (hused : s'.usedFds = s.usedFds)
    (hplace : ∀ j, (s'.inode j).appFdMap ≠ ∅ → s'.place j = s.place j)
    (hexits : ∀ j, ∀ q ∈ (s'.inode j).appFdMap, s'.exited q.1 ≠ [] → ∃ w, s.place j = .owned w ∧
      w ∉ s'.exited q.1) : Tables s' := by
  have hsame {j : ℕ} {q : ℕ × ℕ} (hq : q ∈ (s'.inode j).appFdMap) : s'.place j = s.place j :=
    hplace j (Finset.ne_empty_of_mem hq)
  refine ⟨hcounted, fun w q j => ?_, fun j q hq => ?_, fun j j' q hq hq' => ?_, fun j q hq hne => ?_⟩
  · rw [htab, h.tabled]
    constructor
    · rintro ⟨⟨hp, hq⟩, hR⟩
      have hq' := (hfds j q).2 ⟨hq, hR⟩
      exact ⟨(hsame hq').trans hp, hq'⟩
    · rintro ⟨hp, hq'⟩
      obtain ⟨hq, hR⟩ := (hfds j q).1 hq'
      exact ⟨⟨(hsame hq').symm.trans hp, hq⟩, hR⟩
  · rw [hused]
    exact h.used j q ((hfds j q).1 hq).1
  · exact h.unique j j' q ((hfds j q).1 hq).1 ((hfds j' q).1 hq').1
  · rw [hsame hq]
    exact hexits j q hq hne

theorem Freed.closeFd (h : Freed s) (hin : (q, ino) ∈ s.ownerAppFdMap w)
    (hstep : s.processClose env w q ino = some s') : Freed s' := by
  obtain ⟨hplace, hq⟩ := (h.tables.tabled w q ino).1 hin
  have hfds (j : ℕ) (q' : ℕ × ℕ) : q' ∈ ((s.delFdMappingOnClose w ino q).inode j).appFdMap ↔
    q' ∈ (s.inode j).appFdMap ∧ ¬ q' = q := by
    change q' ∈ (update s.inode ino ((s.inode ino).delFd q) j).appFdMap ↔ _
    rcases eq_or_ne j ino with rfl | hj
    · rw [update_self]
      exact Finset.mem_erase.trans and_comm
    · rw [update_of_ne hj]
      refine ⟨fun hq' => ⟨hq', ?_⟩, fun hq' => hq'.1⟩
      rintro rfl
      exact hj (h.tables.unique j ino q' hq' hq)
  have hcounted : Counted (s.delFdMappingOnClose w ino q) := h.tables.counted.setDelFd ino q
  have htables : Tables (s.delFdMappingOnClose w ino q) := by
    refine h.tables.remove (· = q) hcounted hfds (fun w' q' j => ?_) rfl (fun _ _ => rfl) fun j q' hq' hne => ?_
    · change (q', j) ∈ update s.ownerAppFdMap w _ w' ↔ _
      rcases eq_or_ne w' w with rfl | hw
      · rw [update_self, mem_filter, decide_eq_true_iff]
      · rw [update_of_ne hw]
        refine ⟨fun hx => ⟨hx, ?_⟩, fun hx => hx.1⟩
        rintro rfl
        obtain ⟨hp, hqj⟩ := (h.tables.tabled w' q' j).1 hx
        obtain rfl := h.tables.unique j ino q' hqj hq
        exact hw (owned.inj (hp.symm.trans hplace))
    · exact h.tables.exits j q' ((hfds j q').1 hq').1 hne
  have hinode : (s.delFdMappingOnClose w ino q).inode ino = (s.inode ino).delFd q := update_self ..
  refine Freed.ofDue htables (fun j hj => (h.settled j).congr (update_of_ne hj ..) rfl rfl) ?_ hstep
  exact (h.settled ino).due (Finset.ne_empty_of_mem hq) (by rw [hinode]; rfl) (by rw [hinode]; rfl) rfl

/-! ## The exit of a process -/

section Exit

variable {xs : List ((ℕ × ℕ) × ℕ)}

theorem delFds_eq (s : FdTables) (xs : List ((ℕ × ℕ) × ℕ)) : s.delFds xs = { s with inode := (s.delFds xs).inode } := by
  induction xs generalizing s with
  | nil => rfl
  | cons x xs ih => exact ih _

theorem delFds_cons (s : FdTables) (x : (ℕ × ℕ) × ℕ) (xs : List ((ℕ × ℕ) × ℕ)) :
    s.delFds (x :: xs) = (s.setInode x.2 ((s.inode x.2).delFd x.1)).delFds xs := rfl

theorem mem_delFds (s : FdTables) (xs : List ((ℕ × ℕ) × ℕ)) (j : ℕ) (q : ℕ × ℕ) :
    q ∈ ((s.delFds xs).inode j).appFdMap ↔ q ∈ (s.inode j).appFdMap ∧ (q, j) ∉ xs := by
  induction xs generalizing s with
  | nil => exact ⟨fun hq => ⟨hq, not_mem_nil⟩, fun hq => hq.1⟩
  | cons x xs ih =>
    obtain ⟨q0, ino⟩ := x
    rw [delFds_cons, ih, mem_cons, not_or]
    change q ∈ (update s.inode ino ((s.inode ino).delFd q0) j).appFdMap ∧ _ ↔ _
    rcases eq_or_ne j ino with rfl | hj
    · rw [update_self]
      change q ∈ (s.inode j).appFdMap.erase q0 ∧ _ ↔ _
      rw [Finset.mem_erase, Prod.mk.injEq, and_iff_left rfl]
      tauto
    · have hne : (q, j) ≠ (q0, ino) := fun heq => hj (Prod.mk.inj heq).2
      rw [update_of_ne hj]
      tauto

theorem delFds_counted (h : Counted s) (xs : List ((ℕ × ℕ) × ℕ)) : Counted (s.delFds xs) := by
  induction xs generalizing s with
  | nil => exact h
  | cons x xs ih =>
    rw [delFds_cons]
    exact ih (h.setDelFd x.2 x.1)

theorem delFds_links (s : FdTables) (xs : List ((ℕ × ℕ) × ℕ)) (j : ℕ) :
    ((s.delFds xs).inode j).nlink = (s.inode j).nlink ∧
      ((s.delFds xs).inode j).unlinkDeallocResourcesOnClose = (s.inode j).unlinkDeallocResourcesOnClose := by
  induction xs generalizing s with
  | nil => exact ⟨rfl, rfl⟩
  | cons x xs ih =>
    rw [delFds_cons, (ih _).1, (ih _).2]
    change (update s.inode x.2 ((s.inode x.2).delFd x.1) j).nlink = _ ∧
      (update s.inode x.2 ((s.inode x.2).delFd x.1) j).unlinkDeallocResourcesOnClose = _
    rcases eq_or_ne j x.2 with rfl | hj
    · rw [update_self]
      exact ⟨rfl, rfl⟩
    · rw [update_of_ne hj]
      exact ⟨rfl, rfl⟩

theorem Due.congr (h : Due s j) (hinode : s'.inode j = s.inode j) (hd : s'.deallocs j = s.deallocs j)
    (hp : pending s' j = pending s j) : Due s' j := by
  cases h with
  | settled hs hnot => exact .settled (hs.congr hinode hd hp) (by rw [hinode]; exact hnot)
  | ready hr hflag =>
    exact .ready ⟨hinode ▸ hr.nlink, hinode ▸ hr.closed, by rw [hd, hp]; exact hr.none⟩ (hinode ▸ hflag)

theorem deallocAll_settled {inos : List ℕ} (hc : Counted s) (hnodup : inos.Nodup) (hdue : ∀ j ∈ inos, Due s j)
    (hrest : ∀ j, j ∉ inos → Settled s j) (h : s.deallocAll env w inos = some s') :
    s'.inode = s.inode ∧ s'.ownerAppFdMap = s.ownerAppFdMap ∧ s'.usedFds = s.usedFds ∧ s'.exited = s.exited ∧
      (∀ j, (s.inode j).appFdMap ≠ ∅ → s'.place j = s.place j) ∧ ∀ j, Settled s' j := by
  induction inos generalizing s with
  | nil =>
    cases h
    exact ⟨rfl, rfl, rfl, rfl, fun _ _ => rfl, fun j => hrest j not_mem_nil⟩
  | cons ino inos ih =>
    obtain ⟨s1, h1, h2⟩ := Option.bind_eq_some_iff.1 h
    obtain ⟨hnot, hnodup⟩ := nodup_cons.1 hnodup
    have hother {j : ℕ} (hj : j ∈ inos) : j ≠ ino := fun heq => hnot (heq ▸ hj)
    rcases deallocOnClose_cases hc (hdue ino mem_cons_self) h1 with ⟨rfl, hs⟩ | ⟨hd, hready⟩
    · refine ih hc hnodup (fun j hj => hdue j (mem_cons_of_mem _ hj)) (fun j hj => ?_) h2
      rcases eq_or_ne j ino with rfl | hne
      · exact hs
      · exact hrest j (not_mem_cons_of_ne_of_not_mem hne hj)
    · have hinode (j : ℕ) : s1.inode j = s.inode j := by rw [hd.inode]
      obtain ⟨hi, ht, hu, he, hp, hset⟩ := ih (fun j => by rw [hinode]; exact hc j) hnodup
        (fun j hj => (hdue j (mem_cons_of_mem _ hj)).congr (hinode j) (hd.others j (hother hj))
          (hd.pendings j (hother hj)))
        (fun j hj => by
          rcases eq_or_ne j ino with rfl | hne
          · exact hready.freed hd
          · exact (hrest j (not_mem_cons_of_ne_of_not_mem hne hj)).congr (hinode j) (hd.others j hne)
              (hd.pendings j hne))
        h2
      refine ⟨hi.trans hd.inode, ht.trans hd.tables, hu.trans hd.used, he.trans hd.exited, fun j hj => ?_, hset⟩
      have hne : j ≠ ino := by
        rintro rfl
        exact hj hready.closed
      exact (hp j (by rw [hinode]; exact hj)).trans (hd.place j hne)

end Exit

theorem Freed.exit (h : Freed s) {pid : ℕ} (hflight : ∀ ino w' b, s.place ino = .inFlight w' b →
    ∀ q ∈ (s.inode ino).appFdMap, q.1 ≠ pid)
    (hstep : s.closeAllFileDescriptors env w pid = some s') : Freed s' := by
  have hmine (q : ℕ × ℕ) (j : ℕ) : (q, j) ∈ s.fdsOf w pid ↔ (q, j) ∈ s.ownerAppFdMap w ∧ q.1 = pid := by
    unfold FdTables.fdsOf
    rw [mem_filter, decide_eq_true_iff]
  obtain ⟨s2, hloop, rfl⟩ := Option.map_eq_some_iff.1 hstep
  have hframe := delFds_eq s (s.fdsOf w pid)
  generalize hs1 : s.delFds (s.fdsOf w pid) = s1 at hloop hframe
  have hmem (j : ℕ) (q : ℕ × ℕ) : q ∈ (s1.inode j).appFdMap ↔ q ∈ (s.inode j).appFdMap ∧ (q, j) ∉ s.fdsOf w pid := by
    rw [← hs1]
    exact mem_delFds ..
  have hlinks (j : ℕ) := delFds_links s (s.fdsOf w pid) j
  rw [hs1] at hlinks
  have hcounted : Counted s1 := hs1 ▸ delFds_counted h.tables.counted _
  have hplace1 : s1.place = s.place := by rw [hframe]
  have htable1 : s1.ownerAppFdMap = s.ownerAppFdMap := by rw [hframe]
  have hused1 : s1.usedFds = s.usedFds := by rw [hframe]
  have hexited1 : s1.exited = s.exited := by rw [hframe]
  have hdone1 (j : ℕ) : s1.deallocs j + pending s1 j = s.deallocs j + pending s j := by
    rw [hframe]
    rfl
  have htouched (j : ℕ) : j ∈ ((s.fdsOf w pid).map (·.2)).dedup ↔ ∃ q, (q, j) ∈ s.fdsOf w pid := by
    rw [mem_dedup, mem_map]
    exact ⟨fun ⟨x, hx, heq⟩ => ⟨x.1, heq ▸ hx⟩, fun ⟨q, hq⟩ => ⟨(q, j), hq, rfl⟩⟩
  obtain ⟨hi, ht, hu, he, hp, hset⟩ := deallocAll_settled hcounted (nodup_dedup _) (fun j hj => by
      obtain ⟨q, hq⟩ := (htouched j).1 hj
      have hqj := ((h.tables.tabled w q j).1 ((hmine q j).1 hq).1).2
      exact (h.settled j).due (Finset.ne_empty_of_mem hqj) (hlinks j).1 (hlinks j).2 (hdone1 j))
    (fun j hj => by
      have hsame : (s1.inode j).appFdMap = (s.inode j).appFdMap := by
        ext q
        rw [hmem]
        exact ⟨fun hq => hq.1, fun hq => ⟨hq, fun hx => hj ((htouched j).2 ⟨q, hx⟩)⟩⟩
      cases h.settled j with
      | linked hn hf h0 => exact .linked ((hlinks j).1 ▸ hn) ((hlinks j).2.trans hf) ((hdone1 j).trans h0)
      | opened hn hq hf h0 =>
        exact .opened ((hlinks j).1.trans hn) (hsame ▸ hq) ((hlinks j).2.trans hf) ((hdone1 j).trans h0)
      | freed hn hq h1 => exact .freed ((hlinks j).1.trans hn) (hsame.trans hq) ((hdone1 j).trans h1))
    hloop
  -- What is removed are the descriptors of the process in the table of the worker.
  have hfds (j : ℕ) (q : ℕ × ℕ) : q ∈ (s2.inode j).appFdMap ↔ q ∈ (s.inode j).appFdMap ∧
    ¬ (q.1 = pid ∧ ∃ j', (q, j') ∈ s.ownerAppFdMap w) := by
    rw [hi, hmem, hmine]
    refine and_congr_right fun hq => not_congr ⟨fun hx => ⟨hx.2, j, hx.1⟩, fun ⟨hpid, j', hx⟩ => ?_⟩
    obtain rfl := h.tables.unique j' j q ((h.tables.tabled w q j').1 hx).2 hq
    exact ⟨hx, hpid⟩
  refine ⟨h.tables.remove (fun q => q.1 = pid ∧ ∃ j, (q, j) ∈ s.ownerAppFdMap w) (fun j => ?_) hfds (fun w' q j => ?_)
    (hu.trans hused1) (fun j hj => ?_) (fun j q hq hne => ?_), fun j => (hset j).congr rfl rfl rfl⟩
  · rw [hi]
    exact hcounted j
  · dsimp only
    rw [ht, htable1]
    rcases eq_or_ne w' w with rfl | hw
    · rw [update_self, mem_filter, decide_eq_true_iff]
      exact and_congr_right fun hx => not_congr ⟨fun hpid => ⟨hpid, j, hx⟩, fun hR => hR.1⟩
    · rw [update_of_ne hw]
      refine ⟨fun hx => ⟨hx, ?_⟩, fun hx => hx.1⟩
      rintro ⟨-, j', hx'⟩
      obtain ⟨hpj, hqj⟩ := (h.tables.tabled w' q j).1 hx
      obtain ⟨hpj', hqj'⟩ := (h.tables.tabled w q j').1 hx'
      obtain rfl := h.tables.unique j j' q hqj hqj'
      exact hw (owned.inj (hpj.symm.trans hpj'))
  · rw [hp j (hi ▸ hj), hplace1]
  · obtain ⟨hqs, hR⟩ := (hfds j q).1 hq
    dsimp only at hne ⊢
    rw [he, hexited1] at hne ⊢
    by_cases hpid : q.1 = pid
    · cases hpl : s.place j with
      | inFlight w' b => exact absurd hpid (hflight j w' b hpl q hqs)
      | owned w' =>
        refine ⟨w', rfl, ?_⟩
        rw [hpid, update_self, mem_cons, not_or]
        refine ⟨?_, fun hold => ?_⟩
        · rintro rfl
          exact hR ⟨hpid, j, (h.tables.tabled w' q j).2 ⟨hpl, hqs⟩⟩
        · obtain ⟨w'', hpl', hnot⟩ := h.tables.exits j q hqs (by rw [hpid]; exact ne_nil_of_mem hold)
          obtain rfl := owned.inj (hpl.symm.trans hpl')
          exact hnot (hpid ▸ hold)
    · rw [update_of_ne hpid] at hne ⊢
      exact h.tables.exits j q hqs hne

/-! ## Links and moves -/

theorem Freed.unlink (h : Freed s) (hstep : s.ownerUnlinkInode env w ino = some s') : Freed s' := by
  unfold FdTables.ownerUnlinkInode at hstep
  cases hn : (s.inode ino).nlink with
  | zero =>
    rw [hn] at hstep
    cases hstep
  | succ n =>
    rw [hn] at hstep
    dsimp only at hstep
    have hlinked : (s.inode ino).unlinkDeallocResourcesOnClose = false ∧ s.deallocs ino + pending s ino = 0 := by
      cases h.settled ino with
      | linked _ hf h0 => exact ⟨hf, h0⟩
      | opened h0 _ _ _ => omega
      | freed h0 _ _ => omega
    have hset (d : FdInode) : (s.setInode ino d).inode ino = d := update_self ..
    have hother (d : FdInode) (j : ℕ) (hj : j ≠ ino) : (s.setInode ino d).inode j = s.inode j :=
      update_of_ne hj ..
    have hkeep (d : FdInode) (hd : d.appFdMap = (s.inode ino).appFdMap ∧ d.ref = (s.inode ino).ref) :
      Tables (s.setInode ino d) := by
      refine h.tables.keep (fun j => ?_) rfl rfl rfl fun _ _ => rfl
      rcases eq_or_ne j ino with rfl | hj
      · rw [hset]
        exact hd
      · rw [hother d j hj]
        exact ⟨rfl, rfl⟩
    have hsettled (d : FdInode) (j : ℕ) (hj : j ≠ ino) : Settled (s.setInode ino d) j :=
      (h.settled j).congr (hother d j hj) rfl rfl
    split at hstep
    · next hzero =>
      subst hzero
      by_cases hempty : (s.inode ino).appFdMap = ∅
      · refine Freed.ofReady hstep (hkeep _ ⟨rfl, rfl⟩) (hsettled _) ⟨?_, ?_, hlinked.2⟩
        · rw [hset]
        · rw [hset]
          exact hempty
      · -- The file is open: it is left to the last close.
        unfold FdTables.ownerDeallocResources at hstep
        rw [hset, if_neg fun href => hempty (h.tables.counted.ref_eq_zero.1 href)] at hstep
        cases hstep
        have heq (d d' : FdInode) : (s.setInode ino d).setInode ino d' = s.setInode ino d' := by
          unfold FdTables.setInode
          rw [update_idem]
        rw [heq]
        refine ⟨hkeep _ ⟨rfl, rfl⟩, fun j => ?_⟩
        rcases eq_or_ne j ino with rfl | hj
        · refine .opened ?_ ?_ ?_ hlinked.2
          · rw [hset]
          · rw [hset]
            exact hempty
          · rw [hset]
        · exact hsettled _ j hj
    · next hpos =>
      cases hstep
      refine ⟨hkeep _ ⟨rfl, rfl⟩, fun j => ?_⟩
      rcases eq_or_ne j ino with rfl | hj
      · refine .linked ?_ ?_ hlinked.2
        · rw [hset]
          exact Nat.pos_of_ne_zero hpos
        · rw [hset]
          exact hlinked.1
      · exact hsettled _ j hj

theorem Freed.openFd (h : Freed s) (hplace : s.place ino = .owned w) (hfresh : q ∉ s.usedFds)
    (hlink : 0 < (s.inode ino).nlink) (hexited : s.exited q.1 = []) : Freed (s.addFdMappingOnOpen w ino q) := by
  have hnew (j : ℕ) : q ∉ (s.inode j).appFdMap := fun hq => hfresh (h.tables.used j q hq)
  have hself : (s.addFdMappingOnOpen w ino q).inode ino = (s.inode ino).addFd q := update_self ..
  have hother (j : ℕ) (hj : j ≠ ino) : (s.addFdMappingOnOpen w ino q).inode j = s.inode j := update_of_ne hj ..
  have hfds (j : ℕ) (q' : ℕ × ℕ) : q' ∈ ((s.addFdMappingOnOpen w ino q).inode j).appFdMap ↔
    q' ∈ (s.inode j).appFdMap ∨ q' = q ∧ j = ino := by
    rcases eq_or_ne j ino with rfl | hj
    · rw [hself, and_iff_left rfl]
      exact Finset.mem_insert.trans or_comm
    · rw [hother j hj]
      exact ⟨.inl, fun hx => hx.resolve_right fun heq => hj heq.2⟩
  refine ⟨⟨fun j => ?_, fun w' q' j => ?_, fun j q' hq' => ?_, fun j j' q' hq hq' => ?_, fun j q' hq' hne => ?_⟩,
    fun j => ?_⟩
  · rcases eq_or_ne j ino with rfl | hj
    · rw [hself]
      unfold FdInode.addFd
      rw [if_neg (hnew j), Finset.card_insert_of_notMem (hnew j), h.tables.counted j]
      exact (Int.natCast_succ _).symm
    · rw [hother j hj]
      exact h.tables.counted j
  · rw [hfds]
    change (q', j) ∈ update s.ownerAppFdMap w _ w' ↔ s.place j = .owned w' ∧ _
    rcases eq_or_ne w' w with rfl | hw
    · rw [update_self, mem_cons, h.tables.tabled, Prod.mk.injEq]
      constructor
      · rintro (⟨rfl, rfl⟩ | ⟨hp, hq'⟩)
        · exact ⟨hplace, .inr ⟨rfl, rfl⟩⟩
        · exact ⟨hp, .inl hq'⟩
      · rintro ⟨hp, hq' | ⟨rfl, rfl⟩⟩
        · exact .inr ⟨hp, hq'⟩
        · exact .inl ⟨rfl, rfl⟩
    · rw [update_of_ne hw, h.tables.tabled]
      refine and_congr_right fun hp => ⟨.inl, fun hx => hx.resolve_right fun heq => ?_⟩
      rw [heq.2, hplace] at hp
      exact hw (owned.inj hp).symm
  · rcases (hfds j q').1 hq' with hq' | ⟨rfl, -⟩
    · exact Finset.mem_insert_of_mem (h.tables.used j q' hq')
    · exact Finset.mem_insert_self ..
  · rcases (hfds j q').1 hq with hold | ⟨rfl, rfl⟩
    · rcases (hfds j' q').1 hq' with hold' | ⟨rfl, -⟩
      · exact h.tables.unique j j' q' hold hold'
      · exact absurd hold (hnew j)
    · rcases (hfds j' q').1 hq' with hold' | ⟨-, rfl⟩
      · exact absurd hold' (hnew j')
      · rfl
  · rcases (hfds j q').1 hq' with hq' | ⟨rfl, -⟩
    · exact h.tables.exits j q' hq' hne
    · exact absurd hexited hne
  · rcases eq_or_ne j ino with rfl | hj
    · cases h.settled j with
      | linked hn hf h0 =>
        refine .linked ?_ ?_ h0
        · rw [hself]
          exact hn
        · rw [hself]
          exact hf
      | opened h0 _ _ _ => omega
      | freed h0 _ _ => omega
    · exact (h.settled j).congr (hother j hj) rfl rfl

theorem Freed.reassign (h : Freed s) {importerWid : ℕ} (hexits : ∀ q ∈ (s.inode ino).appFdMap, s.exited q.1 = [])
    (hstep : s.ownerExport w ino importerWid false = some s') : Freed s' := by
  unfold FdTables.ownerExport at hstep
  split at hstep
  · next hplace =>
    cases hstep
    have hother (j : ℕ) (hj : j ≠ ino) : update s.place ino (.inFlight importerWid false) j = s.place j :=
      update_of_ne hj ..
    refine ⟨⟨h.tables.counted, fun w' q j => ?_, h.tables.used, h.tables.unique, fun j q hq hne => ?_⟩, fun j => ?_⟩
    · dsimp only
      rcases eq_or_ne j ino with rfl | hj
      · rw [update_self]
        refine ⟨fun hx => ?_, fun hx => InodePlace.noConfusion hx.1⟩
        rcases eq_or_ne w' w with rfl | hw
        · rw [update_self, mem_filter, decide_eq_true_iff] at hx
          exact absurd ((h.tables.tabled w' q j).1 hx.1).2 hx.2
        · rw [update_of_ne hw, h.tables.tabled, hplace] at hx
          exact absurd (owned.inj hx.1).symm hw
      · rw [hother j hj, ← h.tables.tabled]
        rcases eq_or_ne w' w with rfl | hw
        · rw [update_self, mem_filter, decide_eq_true_iff]
          refine and_iff_left_of_imp fun hx hq => hj ?_
          exact h.tables.unique j ino q ((h.tables.tabled w' q j).1 hx).2 hq
        · rw [update_of_ne hw]
    · rcases eq_or_ne j ino with rfl | hj
      · exact absurd (hexits q hq) hne
      · dsimp only
        rw [hother j hj]
        exact h.tables.exits j q hq hne
    · refine (h.settled j).congr rfl rfl ?_
      unfold pending
      dsimp only
      rcases eq_or_ne j ino with rfl | hj
      · rw [update_self, hplace]
      · rw [hother j hj]
  · cases hstep

theorem Settled.pending_pos (h : Settled s ino) (hpos : 0 < pending s ino) :
    (s.inode ino).nlink = 0 ∧ (s.inode ino).appFdMap = ∅ ∧ s.deallocs ino = 0 ∧ pending s ino = 1 := by
  cases h with
  | linked _ _ h0 => omega
  | opened _ _ _ h0 => omega
  | freed hn hq h1 => exact ⟨hn, hq, by omega, by omega⟩

theorem Freed.importInode (h : Freed s) {fds : List (ℕ × ℕ)} (hall : fds.toFinset = (s.inode ino).appFdMap)
    (hstep : s.importInode env ino fds = some s') : Freed s' := by
  unfold FdTables.importInode at hstep
  split at hstep
  · cases hstep
  · next w dealloc hplace =>
    have hother (j : ℕ) (hj : j ≠ ino) : update s.place ino (.owned w) j = s.place j :=
      update_of_ne hj ..
    have htables : Tables { s with
        place := update s.place ino (.owned w)
        ownerAppFdMap := update s.ownerAppFdMap w (fds.map (·, ino) ++ s.ownerAppFdMap w) } := by
      refine ⟨h.tables.counted, fun w' q j => ?_, h.tables.used, h.tables.unique, fun j q hq hne => ?_⟩
      · dsimp only
        rcases eq_or_ne j ino with rfl | hj
        · have hold (w' : ℕ) : (q, j) ∉ s.ownerAppFdMap w' := fun hx => by
            have hp := ((h.tables.tabled w' q j).1 hx).1
            rw [hplace] at hp
            cases hp
          rw [update_self, owned.injEq]
          rcases eq_or_ne w' w with rfl | hw
          · rw [update_self, mem_append, or_iff_left (hold w'), mem_map, and_iff_right rfl, ← hall, mem_toFinset]
            exact ⟨fun ⟨_, hx, heq⟩ => (Prod.mk.inj heq).1 ▸ hx, fun hx => ⟨q, hx, rfl⟩⟩
          · rw [update_of_ne hw]
            exact ⟨fun hx => absurd hx (hold w'), fun hx => absurd hx.1.symm hw⟩
        · rw [hother j hj, ← h.tables.tabled]
          rcases eq_or_ne w' w with rfl | hw
          · rw [update_self, mem_append]
            refine or_iff_right fun hx => ?_
            obtain ⟨_, -, heq⟩ := mem_map.1 hx
            exact hj (Prod.mk.inj heq).2.symm
          · rw [update_of_ne hw]
      · obtain ⟨w', hp, hnot⟩ := h.tables.exits j q hq hne
        have hj : j ≠ ino := by
          rintro rfl
          rw [hplace] at hp
          cases hp
        dsimp only
        rw [hother j hj]
        exact ⟨w', hp, hnot⟩
    have hpend (j : ℕ) (hj : j ≠ ino) : pending { s with
        place := update s.place ino (.owned w)
        ownerAppFdMap := update s.ownerAppFdMap w (fds.map (·, ino) ++ s.ownerAppFdMap w) } j = pending s j := by
      unfold pending
      dsimp only
      rw [hother j hj]
    cases dealloc with
    | true =>
      rw [if_pos rfl] at hstep
      obtain ⟨hn, hq, hd, hone⟩ := (h.settled ino).pending_pos (by unfold pending; rw [hplace]; exact Nat.succ_pos _)
      refine Freed.ofReady hstep htables (fun j hj => (h.settled j).congr rfl rfl (hpend j hj)) ⟨hn, hq, ?_⟩
      unfold pending at hone ⊢
      dsimp only
      rw [update_self]
      rw [hplace] at hone
      dsimp only at hone ⊢
      omega
    | false =>
      rw [if_neg Bool.false_ne_true] at hstep
      cases hstep
      refine ⟨htables, fun j => (h.settled j).congr rfl rfl ?_⟩
      rcases eq_or_ne j ino with rfl | hj
      · unfold pending
        dsimp only
        rw [update_self, hplace]
      · exact hpend j hj

theorem Freed.resume (h : Freed s) (hin : (w, ino) ∈ s.generic)
    (hstep : { s with generic := s.generic.erase (w, ino) }.ownerDeallocResources env w ino = some s') : Freed s' := by
  have hcount (j : ℕ) := countP_erase (fun x : ℕ × ℕ => decide (x.2 = j)) s.generic (w, ino)
  have hpos : 0 < s.generic.countP (fun x => decide (x.2 = ino)) :=
    countP_pos_iff.2 ⟨(w, ino), hin, decide_eq_true rfl⟩
  obtain ⟨hn, hq, hd, hone⟩ := (h.settled ino).pending_pos (by unfold pending; omega)
  refine Freed.ofReady hstep (h.tables.keep (fun _ => ⟨rfl, rfl⟩) rfl rfl rfl fun _ _ => rfl) (fun j hj => ?_)
    ⟨hn, hq, ?_⟩
  · refine (h.settled j).congr rfl rfl ?_
    unfold pending
    rw [hcount j, if_neg fun hx => hj (of_decide_eq_true hx.2).symm, Nat.sub_zero]
  · unfold pending at hone ⊢
    dsimp only
    rw [hcount ino, if_pos ⟨hin, decide_eq_true rfl⟩, hd]
    omega

/-! ## Links and directory entries -/

/-- The links of an inode are its directory entries and those whose removal its owner has not heard of. -/
def Links (s : FdTables) : Prop :=
  ∀ ino, (s.inode ino).nlink = s.dentries ino + s.unlinkMsgs.countP (fun m => m.2 = ino)

/-- No link and no directory entry was taken, and no message about one sent or received. -/
structure SameLinks (s s' : FdTables) : Prop where
  nlink : ∀ j, (s'.inode j).nlink = (s.inode j).nlink
  dentries : s'.dentries = s.dentries
  msgs : s'.unlinkMsgs = s.unlinkMsgs

theorem SameLinks.refl (s : FdTables) : SameLinks s s := ⟨fun _ => rfl, rfl, rfl⟩

theorem SameLinks.trans {s'' : FdTables} (h : SameLinks s s') (h' : SameLinks s' s'') : SameLinks s s'' :=
  ⟨fun j => (h'.nlink j).trans (h.nlink j), h'.dentries.trans h.dentries, h'.msgs.trans h.msgs⟩

theorem Links.congr (h : Links s) (hsame : SameLinks s s') : Links s' := fun ino => by
  rw [hsame.nlink, hsame.dentries, hsame.msgs]
  exact h ino

theorem sameLinks_setInode {d : FdInode} (hd : d.nlink = (s.inode ino).nlink) : SameLinks s (s.setInode ino d) := by
  refine ⟨fun j => ?_, rfl, rfl⟩
  rcases eq_or_ne j ino with rfl | hj
  · exact (congrArg FdInode.nlink (update_self ..)).trans hd
  · exact congrArg FdInode.nlink (update_of_ne hj ..)

theorem sameLinks_ownerExport {importerWid : ℕ} {dealloc : Bool}
    (h : s.ownerExport w ino importerWid dealloc = some s') : SameLinks s s' := by
  unfold FdTables.ownerExport at h
  split at h <;> cases h
  exact ⟨fun _ => rfl, rfl, rfl⟩

theorem sameLinks_deallocLocal (inMem : Bool) : SameLinks s (s.deallocLocal w ino inMem) := by
  unfold FdTables.deallocLocal
  split <;> exact ⟨fun _ => rfl, rfl, rfl⟩

theorem sameLinks_ownerDeallocResources (h : s.ownerDeallocResources env w ino = some s') : SameLinks s s' := by
  unfold FdTables.ownerDeallocResources at h
  split at h
  · split at h
    · split at h
      · cases h
        exact sameLinks_deallocLocal _
      · exact sameLinks_ownerExport h
    · cases h
      exact sameLinks_deallocLocal _
  · cases h
    exact sameLinks_setInode rfl

theorem sameLinks_deallocOnClose (h : s.deallocOnClose env w ino = some s') : SameLinks s s' := by
  unfold FdTables.deallocOnClose at h
  split at h
  · exact sameLinks_ownerDeallocResources h
  · cases h
    exact .refl _

theorem sameLinks_deallocAll {inos : List ℕ} (h : s.deallocAll env w inos = some s') : SameLinks s s' := by
  induction inos generalizing s with
  | nil =>
    cases h
    exact .refl _
  | cons ino inos ih =>
    obtain ⟨s1, h1, h2⟩ := Option.bind_eq_some_iff.1 h
    exact (sameLinks_deallocOnClose h1).trans (ih h2)

theorem sameLinks_delFds (xs : List ((ℕ × ℕ) × ℕ)) : SameLinks s (s.delFds xs) := by
  refine ⟨fun j => (delFds_links s xs j).1, ?_, ?_⟩
  all_goals rw [delFds_eq]

theorem sameLinks_exit {pid : ℕ} (h : s.closeAllFileDescriptors env w pid = some s') : SameLinks s s' := by
  obtain ⟨s1, h1, rfl⟩ := Option.map_eq_some_iff.1 h
  exact ((sameLinks_delFds _).trans (sameLinks_deallocAll h1)).trans ⟨fun _ => rfl, rfl, rfl⟩

theorem sameLinks_importInode {fds : List (ℕ × ℕ)} (h : s.importInode env ino fds = some s') : SameLinks s s' := by
  unfold FdTables.importInode at h
  split at h
  · cases h
  · dsimp only at h
    split at h
    · have hsame := sameLinks_ownerDeallocResources h
      exact ⟨hsame.nlink, hsame.dentries, hsame.msgs⟩
    · cases h
      exact ⟨fun _ => rfl, rfl, rfl⟩

theorem Links.primaryHandoffToOwner (h : Links s) {wid : ℕ} (hstep :
    s.primaryHandoffToOwner (some wid) ino = some s') : Links s' := by
  unfold FdTables.primaryHandoffToOwner at hstep
  split at hstep
  · cases hstep
  · next n hn =>
    cases hstep
    intro j
    have hj := h j
    rcases eq_or_ne j ino with rfl | hne
    · simp only [update_self, countP_cons, decide_true, if_true]
      omega
    · simp only [update_of_ne hne, countP_cons, decide_eq_true_eq, if_neg hne.symm]
      omega

/-- The owner takes the link, and its message is gone. -/
theorem Links.receiveUnlink (h : Links s) (hmem : (w, ino) ∈ s.unlinkMsgs) (hplace : s.place ino = .owned w)
    (hstep : s.receiveUnlink env w ino = some s') : Links s' := by
  have hcount (j : ℕ) := countP_erase (fun m : ℕ × ℕ => decide (m.2 = j)) s.unlinkMsgs (w, ino)
  have hpos : 0 < s.unlinkMsgs.countP (fun m => decide (m.2 = ino)) :=
    countP_pos_iff.2 ⟨(w, ino), hmem, decide_eq_true rfl⟩
  simp only [FdTables.receiveUnlink, hplace, if_true, FdTables.ownerUnlinkInode] at hstep
  split at hstep
  · cases hstep
  · next n hn =>
    have hlinks : Links ({ s with unlinkMsgs := s.unlinkMsgs.erase (w, ino) }.setInode ino { s.inode ino with nlink := n }) := by
      intro j
      have hj := h j
      simp only [FdTables.setInode, hcount]
      rcases eq_or_ne j ino with rfl | hne
      · rw [update_self, if_pos ⟨hmem, decide_eq_true rfl⟩]
        dsimp only
        omega
      · rw [update_of_ne hne, if_neg fun hx => hne (of_decide_eq_true hx.2).symm]
        omega
    split at hstep
    · exact hlinks.congr (sameLinks_ownerDeallocResources hstep)
    · cases hstep
      exact hlinks

/-! ## Runs -/

/-- The condition on a step. A file is opened while it has a link, by a process whose exit no worker has
handled. When a worker handles the exit of a process, no inode in flight has one of its descriptors, and
an inode that has one is not exported after that. The primary's map has an owner for the inode of an
unlink, and that worker still has the inode when it receives the message. -/
def Orderly : FdTables.Label → FdTables → Prop
  | .openFd _ ino q, s => 0 < (s.inode ino).nlink ∧ s.exited q.1 = []
  | .exit _ _ pid, s => ∀ ino w b, s.place ino = .inFlight w b → ∀ q ∈ (s.inode ino).appFdMap, q.1 ≠ pid
  | .reassign _ ino _, s => ∀ q ∈ (s.inode ino).appFdMap, s.exited q.1 = []
  | .unlink ownerWid _, _ => ownerWid ≠ none
  | .receiveUnlink _ w ino, s => s.place ino = .owned w
  | .closeFd .., _ | .importInode .., _ | .resume .., _ => True

theorem Links.step {l : FdTables.Label} (h : Links s) (ho : Orderly l s) (hstep : FdTables.step l s = some s') :
    Links s' := by
  unfold FdTables.step at hstep
  cases l with
  | openFd w ino q =>
    dsimp only at hstep
    split at hstep <;> cases hstep
    have hsame : SameLinks s (s.setInode ino ((s.inode ino).addFd q)) := sameLinks_setInode rfl
    exact h.congr ⟨hsame.nlink, rfl, rfl⟩
  | closeFd env w q ino =>
    dsimp only at hstep
    split at hstep
    · have hset : SameLinks s (s.setInode ino ((s.inode ino).delFd q)) := sameLinks_setInode rfl
      have hdel : SameLinks s (s.delFdMappingOnClose w ino q) := ⟨hset.nlink, rfl, rfl⟩
      exact h.congr (hdel.trans (sameLinks_deallocOnClose hstep))
    · cases hstep
  | exit env w pid => exact h.congr (sameLinks_exit hstep)
  | unlink ownerWid ino =>
    obtain ⟨wid, rfl⟩ := Option.ne_none_iff_exists'.1 ho
    exact h.primaryHandoffToOwner hstep
  | receiveUnlink env w ino =>
    dsimp only at hstep
    split at hstep
    · next hmem => exact h.receiveUnlink hmem ho hstep
    · cases hstep
  | reassign w ino importerWid => exact h.congr (sameLinks_ownerExport hstep)
  | importInode env ino fds =>
    dsimp only at hstep
    split at hstep
    · exact h.congr (sameLinks_importInode hstep)
    · cases hstep
  | resume env w ino =>
    dsimp only at hstep
    split at hstep
    · have hsame := sameLinks_ownerDeallocResources hstep
      exact h.congr ⟨hsame.nlink, hsame.dentries, hsame.msgs⟩
    · cases hstep

theorem Freed.setLinks (h : Freed s) (msgs : List (ℕ × ℕ)) (dentries : ℕ → ℕ) :
    Freed { s with unlinkMsgs := msgs, dentries } :=
  ⟨h.tables.keep (fun _ => ⟨rfl, rfl⟩) rfl rfl rfl fun _ _ => rfl, fun j => (h.settled j).congr rfl rfl rfl⟩

theorem Freed.step {l : FdTables.Label} (h : Freed s) (ho : Orderly l s) (hstep : FdTables.step l s = some s') :
    Freed s' := by
  unfold FdTables.step at hstep
  cases l with
  | openFd w ino q =>
    dsimp only at hstep
    split at hstep
    · next hx =>
      cases hstep
      exact h.openFd hx.1 hx.2 ho.1 ho.2
    · cases hstep
  | closeFd env w q ino =>
    dsimp only at hstep
    split at hstep
    · next hx => exact h.closeFd hx hstep
    · cases hstep
  | exit env w pid => exact h.exit ho hstep
  | unlink ownerWid ino =>
    simp only [FdTables.primaryHandoffToOwner] at hstep
    split at hstep <;> cases hstep
    exact h.setLinks _ _
  | receiveUnlink env w ino =>
    simp only [FdTables.receiveUnlink] at hstep
    split at hstep
    · split at hstep
      · exact (h.setLinks _ _).unlink hstep
      · cases hstep
        exact h.setLinks _ _
    · cases hstep
  | reassign w ino importerWid => exact h.reassign ho hstep
  | importInode env ino fds =>
    dsimp only at hstep
    split at hstep
    · next hx => exact h.importInode hx hstep
    · cases hstep
  | resume env w ino =>
    dsimp only at hstep
    split at hstep
    · next hx => exact h.resume hx hstep
    · cases hstep

theorem freed_start (owner links : ℕ → ℕ) : Freed (start owner links) := by
  refine ⟨⟨fun _ => rfl, fun w q ino => ?_, fun _ _ hq => ?_, fun _ _ _ hq _ => ?_, fun _ _ hq _ => ?_⟩, fun ino => ?_⟩
  · exact ⟨fun hx => absurd hx not_mem_nil, fun hx => absurd hx.2 (Finset.notMem_empty q)⟩
  · exact absurd hq (Finset.notMem_empty _)
  · exact absurd hq (Finset.notMem_empty _)
  · exact absurd hq (Finset.notMem_empty _)
  · exact .linked (Nat.succ_pos _) rfl rfl

/-- What is right about the tables. `ref` counts the descriptors of an inode, and a worker's table has
the descriptors of the inodes it owns. Only an inode without directory entries, links and descriptors was
freed, and at most once; one without them, of which no unlink and no deallocation is under way, was. When
every worker with an inode has handled the exit of a process, no inode has a descriptor of it. -/
structure Right (s : FdTables) : Prop where
  ref : ∀ ino, (s.inode ino).ref = (s.inode ino).appFdMap.card
  tables : ∀ w q ino, (q, ino) ∈ s.ownerAppFdMap w ↔ s.place ino = .owned w ∧ q ∈ (s.inode ino).appFdMap
  never : ∀ ino, 0 < s.deallocs ino → s.dentries ino = 0 ∧ (s.inode ino).nlink = 0 ∧ (s.inode ino).appFdMap = ∅
  once : ∀ ino, s.deallocs ino ≤ 1
  done : ∀ ino, s.dentries ino = 0 → (∀ w, (w, ino) ∉ s.unlinkMsgs) → (s.inode ino).appFdMap = ∅ →
    pending s ino = 0 → s.deallocs ino = 1
  exits : ∀ pid, s.exited pid ≠ [] → (∀ ino w, s.place ino = .owned w → w ∈ s.exited pid) →
    ∀ ino, ∀ q ∈ (s.inode ino).appFdMap, q.1 ≠ pid

theorem Freed.right (h : Freed s) (hlinks : Links s) : Right s := by
  refine ⟨h.tables.counted, h.tables.tabled, fun ino hpos => ?_, fun ino => ?_, fun ino hdentries hmsgs hq hp => ?_,
    fun pid hne hall ino q hq => ?_⟩
  · cases h.settled ino with
    | linked _ _ h0 => omega
    | opened _ _ _ h0 => omega
    | freed hn hq _ =>
      have := hlinks ino
      exact ⟨by omega, hn, hq⟩
  · cases h.settled ino with
    | linked _ _ h0 => omega
    | opened _ _ _ h0 => omega
    | freed _ _ h1 => omega
  · have hnlink := hlinks ino
    rw [hdentries, countP_eq_zero.2 fun m hm hx => hmsgs m.1 (of_decide_eq_true hx ▸ hm)] at hnlink
    cases h.settled ino with
    | linked hpos _ _ => omega
    | opened _ hne _ _ => exact absurd hq hne
    | freed _ _ h1 => omega
  · rintro rfl
    obtain ⟨w, hp, hnot⟩ := h.tables.exits ino q hq hne
    exact hnot (hall ino w hp)

/-- **An unlinked file is freed exactly once, after its last close**, in every run of orderly steps. -/
theorem last_close {owner links : ℕ → ℕ} {ls : List FdTables.Label}
    (hrun : run FdTables.step ls (start owner links) = some s)
    (halong : Along FdTables.step Orderly ls (start owner links)) : Right s := by
  obtain ⟨hfreed, hlinks⟩ : Freed s ∧ Links s :=
    run_inv (P := Orderly) (I := fun s => Freed s ∧ Links s)
      (fun _ _ _ h ho hstep => ⟨h.1.step ho hstep, h.2.step ho hstep⟩) hrun halong
      ⟨freed_start owner links, fun _ => rfl⟩
  exact hfreed.right hlinks

/-- The resources are where the inode is, and the bitmap blocks are in memory. -/
def here : DeallocEnv := ⟨fun _ => none, fun _ => true⟩

/-- A file is opened, unlinked and closed. -/
def openUnlinkClose : List FdTables.Label :=
  [.openFd 0 5 (7, 100), .unlink (some 0) 5, .receiveUnlink here 0 5, .closeFd here 0 (7, 100) 5]

theorem last_close_once : ∃ s, run FdTables.step openUnlinkClose (start (fun _ => 0) fun _ => 0) = some s ∧
    s.deallocs 5 = 1 ∧ Right s := by
  have hmap : (run FdTables.step openUnlinkClose (start (fun _ => 0) fun _ => 0)).map (·.deallocs 5) = some 1 := by
    decide +kernel
  obtain ⟨s, hrun, hone⟩ := Option.map_eq_some_iff.mp hmap
  have halong : Along FdTables.step Orderly openUnlinkClose (start (fun _ => 0) fun _ => 0) := by
    refine (along_cons_some rfl).mpr ⟨⟨Nat.one_pos, rfl⟩, (along_cons_some rfl).mpr ⟨Option.some_ne_none _, ?_⟩⟩
    refine (along_cons_some rfl).mpr ⟨rfl, along_of_mem (fun l hl s => ?_) _⟩
    rw [mem_singleton.1 hl]
    trivial
  exact ⟨s, hrun, hone, last_close hrun halong⟩

/-- Both workers handle the exit of process 7 while an inode with one of its descriptors is on its
way from one to the other. -/
def exitInFlight : List FdTables.Label :=
  [.openFd 0 5 (7, 100), .reassign 0 5 1, .exit here 0 7, .exit here 1 7, .importInode here 5 [(7, 100)]]

/-- The file is unlinked while its inode is in flight: the primary has no owner for it, or sent the message before. -/
def unlinkInFlight : List (List FdTables.Label) :=
  [[.reassign 0 5 1, .unlink none 5, .importInode here 5 []],
    [.unlink (some 0) 5, .reassign 0 5 1, .receiveUnlink here 0 5, .importInode here 5 []]]

/-- **The descriptor of a process outlives it**: all workers have handled the exit, and the inode
that was in flight has the descriptor. **And an unlinked file is never freed**: its last directory
entry is gone, no message is under way, nothing is open, and its inode still has the link. -/
theorem descriptor_outlives_process : (∃ s, run FdTables.step exitInFlight (start (fun _ => 0) fun _ => 0) = some s ∧
      s.exited 7 = [1, 0] ∧ s.place 5 = .owned 1 ∧ (7, 100) ∈ (s.inode 5).appFdMap) ∧
    ∀ ls ∈ unlinkInFlight, ∃ s, run FdTables.step ls (start (fun _ => 0) fun _ => 0) = some s ∧ s.dentries 5 = 0 ∧
      s.unlinkMsgs = [] ∧ (s.inode 5).appFdMap = ∅ ∧ pending s 5 = 0 ∧ s.deallocs 5 = 0 ∧ (s.inode 5).nlink = 1 := by
  constructor
  · have hmap : (run FdTables.step exitInFlight (start (fun _ => 0) fun _ => 0)).map
        (fun s => (s.exited 7, s.place 5, decide ((7, 100) ∈ (s.inode 5).appFdMap))) = some
          ([1, 0], .owned 1, true) := by
      decide +kernel
    obtain ⟨s, hrun, heq⟩ := Option.map_eq_some_iff.mp hmap
    obtain ⟨hexited, heq⟩ := Prod.mk.inj heq
    obtain ⟨hplace, hfd⟩ := Prod.mk.inj heq
    exact ⟨s, hrun, hexited, hplace, of_decide_eq_true hfd⟩
  · refine forall_mem_cons.2 ⟨⟨_, rfl, rfl, rfl, rfl, rfl, rfl, rfl⟩,
      forall_mem_singleton.2 ⟨_, rfl, rfl, rfl, rfl, rfl, rfl, rfl⟩⟩

end Ufs.Proof.LastClose
