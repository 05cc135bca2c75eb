import Ufs.Proof.Ownership.View

/-!
# The ownership protocol

Every context that is not deleted is once in the ring that follows from its state (`route`,
`Queues`). An inode is settled on a worker, or one context has it, and a second one may be on its
way to the primary behind a context that tells of its last import (`Placed`). `Step.inv`: a step of
the protocol keeps `Queues`, leaves every other inode where it is and moves its own inode to the
next place.
-/

namespace Ufs.Proof.Ownership

open Impl ReassignmentOp
open Function (update update_apply update_of_ne update_self)
open View (setQueue_queue setCtx_ctx_of_ne setCtx_ctx_self advance logIf)
open List

variable {a b x y w : ℕ} {rest : List ℕ} {v : View}

/-! ## Where the contexts are -/

/-- The ring that a context's message is in. -/
def route (c : Ctx) : ℕ × ℕ :=
  match c.state with
  | .kPrimaryRequestNewOwnerImport => (c.exportedInode.exporterWid, kMasterWidConst)
  | .kNewOwnerImport => (kMasterWidConst, c.exportedInode.importerWid)
  | .kPrimaryImportSuccessNotification => (c.exportedInode.importerWid, kMasterWidConst)
  | .kOldOwnerExportSuccessNotification => (kMasterWidConst, c.exportedInode.exporterWid)

/-- Context `id` has its message in the ring from `a` to `b`. -/
def Sent (v : View) (a b id : ℕ) : Prop := ∃ c, v.ctx id = some c ∧ c.deleted = false ∧ route c = (a, b)

/-- Every context that is not deleted is once in the ring of its route, and in no other. -/
structure Queues (v : View) : Prop where
  fresh : ∀ id, v.nextCtx ≤ id → v.ctx id = none
  nodup : ∀ a b, (v.queue a b).Nodup
  mem : ∀ a b id, id ∈ v.queue a b ↔ Sent v a b id

/-- The queues when the message of `id` was taken out and not yet handled. -/
structure Popped (v : View) (id : ℕ) : Prop where
  fresh : ∀ id', v.nextCtx ≤ id' → v.ctx id' = none
  known : id < v.nextCtx
  nodup : ∀ a b, (v.queue a b).Nodup
  mem : ∀ a b id', id' ∈ v.queue a b ↔ id' ≠ id ∧ Sent v a b id'

section

variable (h : Queues v) {id : ℕ} {c : Ctx}

include h

theorem Queues.lt (hc : v.ctx id = some c) : id < v.nextCtx := by
  by_contra hn
  rw [h.fresh id (by omega)] at hc
  cases hc

theorem Queues.route_of_mem (hm : id ∈ v.queue a b) (hc : v.ctx id = some c) : route c = (a, b) := by
  obtain ⟨c', hc', -, hr⟩ := (h.mem a b id).1 hm
  cases hc.symm.trans hc'
  exact hr

theorem Queues.popped (hq : v.queue a b = id :: rest) (hc : v.ctx id = some c) : Popped (v.setQueue a b rest) id := by
  have hnd := h.nodup a b
  rw [hq, nodup_cons] at hnd
  have hr := h.route_of_mem (hq ▸ mem_cons_self) hc
  refine ⟨h.fresh, h.lt hc, fun a' b' => ?_, fun a' b' id' => ?_⟩
  · rw [setQueue_queue]
    split_ifs
    · exact hnd.2
    · exact h.nodup a' b'
  · rw [setQueue_queue]
    split_ifs with hab
    · obtain ⟨rfl, rfl⟩ := hab
      have hmem := h.mem a' b' id'
      rw [hq, mem_cons] at hmem
      constructor
      · intro hin
        exact ⟨fun he => hnd.1 (he ▸ hin), hmem.1 (.inr hin)⟩
      · rintro ⟨hne, hs⟩
        exact (hmem.2 hs).resolve_left hne
    · rw [h.mem a' b' id']
      refine ⟨fun hs => ⟨?_, hs⟩, fun hs => hs.2⟩
      rintro rfl
      obtain ⟨c', hc', -, hr'⟩ := hs
      cases hc.symm.trans hc'
      rw [hr, Prod.mk.injEq] at hr'
      exact hab ⟨hr'.1.symm, hr'.2.symm⟩

end

theorem sent_setCtx_of_ne {id id' : ℕ} {c : Ctx} (h : id' ≠ id) : Sent (v.setCtx id c) a b id' ↔ Sent v a b id' := by
  simp only [Sent, setCtx_ctx_of_ne v h]

theorem Popped.send {id : ℕ} (h : Popped v id) {c : Ctx} (hd : c.deleted = false)
    (hr : route c = (x, y)) : Queues ((v.setCtx id c).send x y id) := by
  have hself : Sent (v.setCtx id c) x y id := ⟨c, setCtx_ctx_self .., hd, hr⟩
  refine ⟨fun id' hid => ?_, fun a b => ?_, fun a b id' => ?_⟩
  · have hne : id' ≠ id := by
      have hle : v.nextCtx ≤ id' := hid
      have := h.known
      omega
    rw [show ((v.setCtx id c).send x y id).ctx id' = v.ctx id' from setCtx_ctx_of_ne v hne c]
    exact h.fresh id' hid
  · rw [View.send, setQueue_queue]
    split_ifs
    · refine nodup_append'.2 ⟨h.nodup x y, nodup_singleton id, ?_⟩
      rw [disjoint_singleton]
      exact fun hin => ((h.mem x y id).1 hin).1 rfl
    · exact h.nodup a b
  · have hsame : Sent ((v.setCtx id c).send x y id) a b id' ↔ Sent (v.setCtx id c) a b id' := Iff.rfl
    have hold : id' ∈ (v.setCtx id c).queue a b ↔ id' ≠ id ∧ Sent v a b id' := h.mem a b id'
    rw [hsame, View.send, setQueue_queue]
    by_cases hid : id' = id
    · subst hid
      split_ifs with hab
      · obtain ⟨rfl, rfl⟩ := hab
        simpa using hself
      · refine ⟨fun hin => absurd rfl (hold.1 hin).1, ?_⟩
        rintro ⟨c', hc', -, hr'⟩
        rw [setCtx_ctx_self] at hc'
        cases hc'
        rw [hr, Prod.mk.injEq] at hr'
        exact absurd ⟨hr'.1.symm, hr'.2.symm⟩ hab
    · rw [sent_setCtx_of_ne hid]
      split_ifs with hab
      · obtain ⟨rfl, rfl⟩ := hab
        rw [mem_append, mem_singleton, hold]
        tauto
      · rw [hold]
        tauto

theorem Popped.done {id : ℕ} (h : Popped v id) {c : Ctx} (hd : c.deleted = true) : Queues (v.setCtx id c) := by
  refine ⟨fun id' hid => ?_, h.nodup, fun a b id' => ?_⟩
  · have hne : id' ≠ id := by
      have hle : v.nextCtx ≤ id' := hid
      have := h.known
      omega
    rw [setCtx_ctx_of_ne v hne]
    exact h.fresh id' hid
  · refine (h.mem a b id').trans ?_
    by_cases hid : id' = id
    · subst hid
      refine ⟨fun hin => absurd rfl hin.1, ?_⟩
      rintro ⟨c', hc', hd', -⟩
      rw [setCtx_ctx_self] at hc'
      cases hc'
      rw [hd] at hd'
      cases hd'
    · rw [sent_setCtx_of_ne hid]
      tauto

theorem Queues.step {v v' : View} (h : Queues v) (hs : v.Step v') : Queues v' := by
  cases hs with
  | @start w ino c _ state _ exporter live =>
    -- the new context is as one that was just taken
    have hp : Popped { v with nextCtx := v.nextCtx + 1 } v.nextCtx :=
      ⟨fun id' hid => h.fresh id' (by have hle : v.nextCtx + 1 ≤ id' := hid; omega), Nat.lt_succ_self _, h.nodup,
        fun a b id' => by
          refine (h.mem a b id').trans ⟨fun hs => ⟨?_, hs⟩, fun hs => hs.2⟩
          rintro rfl
          obtain ⟨c', hc', -⟩ := hs
          rw [h.fresh _ le_rfl] at hc'
          cases hc'⟩
    have hr : route c = (w, kMasterWidConst) := by rw [route, state, exporter]
    have hq := hp.send live hr
    exact ⟨hq.fresh, hq.nodup, hq.mem⟩
  | @take a b id rest c queue ctx live =>
    have hp := h.popped queue ctx
    have hr := h.route_of_mem (queue ▸ mem_cons_self) ctx
    unfold advance
    cases hst : c.state with
    | kPrimaryRequestNewOwnerImport =>
      have hb : kMasterWidConst = b := by
        rw [route, hst] at hr
        exact (Prod.mk.inj hr).2
      have hq := hp.send (c := { c with state := .kNewOwnerImport }) live rfl
      rw [hb] at hq
      exact ⟨hq.fresh, hq.nodup, hq.mem⟩
    | kNewOwnerImport =>
      have hb : c.exportedInode.importerWid = b := by
        rw [route, hst] at hr
        exact (Prod.mk.inj hr).2
      have hq := hp.send (c := { c with state := .kPrimaryImportSuccessNotification }) live rfl
      rw [hb] at hq
      dsimp only [logIf]
      split_ifs <;> exact ⟨hq.fresh, hq.nodup, hq.mem⟩
    | kPrimaryImportSuccessNotification =>
      have hb : kMasterWidConst = b := by
        rw [route, hst] at hr
        exact (Prod.mk.inj hr).2
      have hq := hp.send (c := { c with state := .kOldOwnerExportSuccessNotification }) live rfl
      rw [hb] at hq
      exact ⟨hq.fresh, hq.nodup, hq.mem⟩
    | kOldOwnerExportSuccessNotification =>
      have hq := hp.done (c := { c with state := .kOldOwnerExportSuccessNotification, deleted := true }) rfl
      dsimp only [logIf]
      split_ifs <;> exact ⟨hq.fresh, hq.nodup, hq.mem⟩

/-! ## Where an inode is -/

/-- A context that the old owner was not yet told to drop. -/
def Open (v : View) (ino id : ℕ) (c : Ctx) : Prop :=
  v.ctx id = some c ∧ c.deleted = false ∧ c.exportedInode.ino = ino ∧ c.state ≠ .kOldOwnerExportSuccessNotification

/-- The places of an inode, with what its worker number and the primary's map are there. -/
inductive Placed (v : View) (ino : ℕ) : Prop
  | settled {w : ℕ} (opens : ∀ id c, ¬ Open v ino id c) (held : ∀ w', ino ∈ v.held w' ↔ w' = w)
      (mngWid : v.mngWid ino = w) (owner : v.owner ino = w)
  | requested {id : ℕ} {c : Ctx} (opens : ∀ id' c', Open v ino id' c' ↔ id' = id ∧ c' = c)
      (state : c.state = .kPrimaryRequestNewOwnerImport) (held : ∀ w, ino ∉ v.held w)
      (mngWid : v.mngWid ino = kUnknownManageWorkerId) (owner : v.owner ino = c.exportedInode.exporterWid)
  | importing {id : ℕ} {c : Ctx} (opens : ∀ id' c', Open v ino id' c' ↔ id' = id ∧ c' = c)
      (state : c.state = .kNewOwnerImport) (held : ∀ w, ino ∉ v.held w)
      (mngWid : v.mngWid ino = c.exportedInode.importerWid) (owner : v.owner ino = -1)
  | imported {id : ℕ} {c : Ctx} (opens : ∀ id' c', Open v ino id' c' ↔ id' = id ∧ c' = c)
      (state : c.state = .kPrimaryImportSuccessNotification)
      (held : ∀ w, ino ∈ v.held w ↔ w = c.exportedInode.importerWid)
      (mngWid : v.mngWid ino = c.exportedInode.importerWid) (owner : v.owner ino = -1)
  | again {id₁ id₂ : ℕ} {c₁ c₂ : Ctx}
      (opens : ∀ id c, Open v ino id c ↔ id = id₁ ∧ c = c₁ ∨ id = id₂ ∧ c = c₂)
      (state₁ : c₁.state = .kPrimaryImportSuccessNotification)
      (state₂ : c₂.state = .kPrimaryRequestNewOwnerImport)
      (same : c₂.exportedInode.exporterWid = c₁.exportedInode.importerWid)
      (order : [id₁, id₂].Sublist (v.queue c₁.exportedInode.importerWid kMasterWidConst))
      (held : ∀ w, ino ∉ v.held w) (mngWid : v.mngWid ino = kUnknownManageWorkerId) (owner : v.owner ino = -1)

/-- The two views agree on all that the invariant says about the inode. -/
structure Agree (v v' : View) (ino : ℕ) : Prop where
  opens : ∀ id c, Open v' ino id c ↔ Open v ino id c
  held : ∀ w, ino ∈ v'.held w ↔ ino ∈ v.held w
  mngWid : v'.mngWid ino = v.mngWid ino
  owner : v'.owner ino = v.owner ino
  order : ∀ id₁ id₂ c₁ w, Open v ino id₁ c₁ → [id₁, id₂].Sublist (v.queue w kMasterWidConst) →
    [id₁, id₂].Sublist (v'.queue w kMasterWidConst)

theorem Placed.of_agree {v v' : View} {ino : ℕ} (h : Placed v ino) (ha : Agree v v' ino) : Placed v' ino := by
  have hheld {w : ℕ} (h : ino ∉ v.held w) : ino ∉ v'.held w := fun h' => h ((ha.held w).1 h')
  cases h with
  | settled opens held mngWid owner =>
    exact .settled (fun id c h => opens id c ((ha.opens id c).1 h)) (fun w => (ha.held w).trans (held w))
      (ha.mngWid.trans mngWid) (ha.owner.trans owner)
  | requested opens state held mngWid owner =>
    exact .requested (fun id c => (ha.opens id c).trans (opens id c)) state (fun w => hheld (held w))
      (ha.mngWid.trans mngWid) (ha.owner.trans owner)
  | importing opens state held mngWid owner =>
    exact .importing (fun id c => (ha.opens id c).trans (opens id c)) state (fun w => hheld (held w))
      (ha.mngWid.trans mngWid) (ha.owner.trans owner)
  | imported opens state held mngWid owner =>
    exact .imported (fun id c => (ha.opens id c).trans (opens id c)) state
      (fun w => (ha.held w).trans (held w)) (ha.mngWid.trans mngWid) (ha.owner.trans owner)
  | again opens state1 state2 same order held mngWid owner =>
    exact .again (fun id c => (ha.opens id c).trans (opens id c)) state1 state2 same
      (ha.order _ _ _ _ ((opens _ _).2 (.inl ⟨rfl, rfl⟩)) order) (fun w => hheld (held w))
      (ha.mngWid.trans mngWid) (ha.owner.trans owner)

/-- Every inode of `inodes` is in one of the places, and no worker or open context has another. -/
structure Inv (inodes : Finset ℕ) (v : View) : Prop where
  queues : Queues v
  placed : ∀ ino ∈ inodes, Placed v ino
  absent : ∀ ino ∉ inodes, (∀ id c, ¬ Open v ino id c) ∧ ∀ w, ino ∉ v.held w

variable {inodes : Finset ℕ}

theorem Inv.held_unique (h : Inv inodes v) {ino w' : ℕ} (hw : ino ∈ v.held w) (hw' : ino ∈ v.held w') : w = w' := by
  by_cases hin : ino ∈ inodes
  · cases h.placed ino hin with
    | settled opens held => exact ((held w).1 hw).trans ((held w').1 hw').symm
    | requested opens state held => exact absurd hw (held w)
    | importing opens state held => exact absurd hw (held w)
    | imported opens state held => exact ((held w).1 hw).trans ((held w').1 hw').symm
    | again opens state1 state2 same order held => exact absurd hw (held w)
  · exact absurd hw ((h.absent ino hin).2 w)

theorem Inv.not_held (h : Inv inodes v) {ino id : ℕ} {c : Ctx}
    (ho : Open v ino id c) (hs : c.state = .kPrimaryRequestNewOwnerImport ∨ c.state = .kNewOwnerImport) (w : ℕ) :
      ino ∉ v.held w := by
  by_cases hin : ino ∈ inodes
  · cases h.placed ino hin with
    | settled opens held => exact absurd ho (opens id c)
    | requested opens state held => exact held w
    | importing opens state held => exact held w
    | imported opens state held =>
      obtain ⟨rfl, rfl⟩ := (opens id c).1 ho
      simp [state] at hs
    | again opens state1 state2 same order held => exact held w
  · exact (h.absent ino hin).2 w

/-! ## What a step changes -/

theorem open_setCtx_of_ne {ino id id' : ℕ} {c c' : Ctx} (h : id' ≠ id) :
    Open (v.setCtx id c) ino id' c' ↔ Open v ino id' c' := by
  simp only [Open, setCtx_ctx_of_ne v h]

theorem open_setCtx_self {ino id : ℕ} {c c' : Ctx} : Open (v.setCtx id c) ino id c' ↔ c' = c ∧ c.deleted = false ∧
    c.exportedInode.ino = ino ∧
      c.state ≠ .kOldOwnerExportSuccessNotification := by
  simp only [Open, setCtx_ctx_self, Option.some.injEq]
  constructor
  · rintro ⟨rfl, h⟩
    exact ⟨rfl, h⟩
  · rintro ⟨rfl, h⟩
    exact ⟨rfl, h⟩

theorem open_setCtx_other {ino id : ℕ} {c e : Ctx} (hc : v.ctx id = some c)
    (h : ¬ (c.exportedInode.ino = ino ∧ c.state ≠ .kOldOwnerExportSuccessNotification))
    (h' : ¬ (e.deleted = false ∧ e.exportedInode.ino = ino ∧ e.state ≠ .kOldOwnerExportSuccessNotification))
      (id' : ℕ) (d : Ctx) :
    Open (v.setCtx id e) ino id' d ↔ Open v ino id' d := by
  by_cases hid : id' = id
  · subst hid
    rw [open_setCtx_self]
    refine ⟨fun ho => absurd ho.2 h', fun ho => ?_⟩
    obtain ⟨hd, -, hino⟩ := ho
    cases hc.symm.trans hd
    exact absurd hino h
  · exact open_setCtx_of_ne hid

theorem sublist_of_cons_ne {z : ℕ} {l : List ℕ} (h : [x, y].Sublist (z :: l)) (hne : x ≠ z) : [x, y].Sublist l := by
  rcases sublist_cons_iff.1 h with h | ⟨r, hr, -⟩
  · exact h
  · cases hr
    exact absurd rfl hne

theorem sublist_send {l : List ℕ} {id : ℕ} (h : l.Sublist (v.queue a b)) : l.Sublist ((v.send x y id).queue a b) := by
  rw [View.send, setQueue_queue]
  split_ifs with hab
  · rw [← hab.1, ← hab.2]
    exact h.trans (sublist_append_left _ _)
  · exact h

theorem sublist_take {id k : ℕ} (hq : v.queue a b = id :: rest)
    (hne : x ≠ id) (h : [x, y].Sublist (v.queue w k)) : [x, y].Sublist ((v.setQueue a b rest).queue w k) := by
  rw [setQueue_queue]
  split_ifs with hab
  · rw [hab.1, hab.2, hq] at h
    exact sublist_of_cons_ne h hne
  · exact h

/-- A worker that takes a context of another inode, or one that only the old owner still has to drop,
changes nothing for an inode. -/
theorem agree_advance {id ino : ℕ} {c : Ctx} (hq : v.queue a b = id :: rest) (hc : v.ctx id = some c)
    (h : ¬ (c.exportedInode.ino = ino ∧ c.state ≠ .kOldOwnerExportSuccessNotification)) :
      Agree v ((v.setQueue a b rest).advance b id c) ino := by
  have hne {id1 : ℕ} {c1 : Ctx} (ho : Open v ino id1 c1) : id1 ≠ id := by
    rintro rfl
    obtain ⟨hc1, -, hino⟩ := ho
    cases hc.symm.trans hc1
    exact h hino
  have horder {x y : ℕ} (id1 id2 : ℕ) (c1 : Ctx) (w : ℕ) (ho : Open v ino id1 c1)
    (hs : [id1, id2].Sublist (v.queue w kMasterWidConst)) :
      [id1, id2].Sublist (((v.setQueue a b rest).send x y id).queue w kMasterWidConst) :=
    sublist_send (sublist_take hq (hne ho) hs)
  unfold advance
  cases hst : c.state with
  | kPrimaryRequestNewOwnerImport =>
    rw [hst] at h
    have hino : ino ≠ c.exportedInode.ino := fun he => h ⟨he.symm, by simp⟩
    exact ⟨open_setCtx_other (e := { c with state := .kNewOwnerImport }) hc (by rwa [hst])
        (fun h' => hino h'.2.1.symm), fun _ => Iff.rfl, update_of_ne hino _ _,
      View.setOwner_owner_of_ne v hino _, horder⟩
  | kNewOwnerImport =>
    rw [hst] at h
    have hino : ino ≠ c.exportedInode.ino := fun he => h ⟨he.symm, by simp⟩
    have hheld (w : ℕ) : ino ∈ update v.held b (insert c.exportedInode.ino (v.held b)) w ↔ ino ∈ v.held w := by
      rw [update_apply]
      split_ifs with hw
      · rw [Finset.mem_insert, or_iff_right hino, hw]
      · rfl
    have hopens := open_setCtx_other (e := { c with state := .kPrimaryImportSuccessNotification }) hc
      (by rwa [hst]) (fun h' => hino h'.2.1.symm)
    dsimp only [logIf]
    split_ifs <;> exact ⟨hopens, hheld, rfl, rfl, horder⟩
  | kPrimaryImportSuccessNotification =>
    rw [hst] at h
    have hino : ino ≠ c.exportedInode.ino := fun he => h ⟨he.symm, by simp⟩
    exact ⟨open_setCtx_other (e := { c with state := .kOldOwnerExportSuccessNotification }) hc (by rwa [hst])
        (fun h' => hino h'.2.1.symm), fun _ => Iff.rfl, rfl,
      View.setOwner_owner_of_ne v hino _, horder⟩
  | kOldOwnerExportSuccessNotification =>
    have hopens := @open_setCtx_other _ ino _ _ { c with state := .kOldOwnerExportSuccessNotification, deleted := true } hc h (by simp)
    dsimp only [logIf]
    split_ifs <;> exact ⟨hopens, fun _ => Iff.rfl, rfl, rfl, fun _ _ _ _ ho hs => sublist_take hq (hne ho) hs⟩

theorem agree_startExport (hv : Queues v) {ino ino' : ℕ} {c : Ctx} (hc : c.exportedInode.ino = ino)
    (hne : ino' ≠ ino) : Agree v (v.startExport w ino c) ino' := by
  refine ⟨fun id d => ?_, fun w' => ?_, update_of_ne hne _ _, rfl, fun _ _ _ _ _ hs => sublist_send hs⟩
  · by_cases hid : id = v.nextCtx
    · subst hid
      have hfresh := hv.fresh v.nextCtx le_rfl
      refine Iff.trans (open_setCtx_self (v := v)) ⟨fun ho => ?_, fun ho => ?_⟩
      · exact absurd (ho.2.2.1.symm.trans hc) hne
      · exact absurd (ho.1.symm.trans hfresh) (by simp)
    · exact open_setCtx_of_ne (v := v) hid
  · have : ino' ∈ update v.held w ((v.held w).erase ino) w' ↔ ino' ∈ v.held w' := by
      rw [update_apply]
      split_ifs with hw
      · rw [Finset.mem_erase, and_iff_right hne, hw]
      · rfl
    exact this

/-! ## Where a step takes an inode -/

theorem open_startExport (hv : Queues v) {ino : ℕ} {c : Ctx} (hino : c.exportedInode.ino = ino)
    (hs : c.state = .kPrimaryRequestNewOwnerImport) (hd : c.deleted = false) (id : ℕ) (d : Ctx) :
    Open (v.startExport w ino c) ino id d ↔ Open v ino id d ∨ id = v.nextCtx ∧ d = c := by
  have hold : ¬ Open v ino v.nextCtx d := by
    rintro ⟨hn, -⟩
    rw [hv.fresh _ le_rfl] at hn
    cases hn
  by_cases hid : id = v.nextCtx
  · subst hid
    refine Iff.trans (open_setCtx_self (v := v)) ?_
    simp [hold, hino, hs, hd]
  · refine Iff.trans (open_setCtx_of_ne (v := v) hid) ?_
    simp [hid]

theorem placed_startExport (hv : Queues v) {ino : ℕ} {c : Ctx} (hheld : ino ∈ v.held w)
    (hs : c.state = .kPrimaryRequestNewOwnerImport) (hino : c.exportedInode.ino = ino)
    (hw : c.exportedInode.exporterWid = w) (hd : c.deleted = false) (h : Placed v ino) :
      Placed (v.startExport w ino c) ino := by
  have hopen := open_startExport (w := w) hv hino hs hd
  -- the inode was nowhere else
  have hnone (hone : ∀ w', ino ∈ v.held w' → w' = w) (w' : ℕ) : ino ∉ (v.startExport w ino c).held w' := by
    have : ino ∉ update v.held w ((v.held w).erase ino) w' := by
      rw [update_apply]
      split_ifs with hw'
      · exact Finset.notMem_erase ino _
      · exact fun hin => hw' (hone w' hin)
    exact this
  have hmng (hm : v.mngWid ino = w) : (v.startExport w ino c).mngWid ino = kUnknownManageWorkerId := by
    refine (update_self ino _ v.mngWid).trans (if_pos ?_)
    exact hm
  cases h with
  | settled opens held mngWid owner =>
    obtain rfl := (held w).1 hheld
    refine @Placed.requested _ _ v.nextCtx c (fun id d => ?_) hs (hnone fun w' => (held w').1) (hmng mngWid)
      (owner.trans (by rw [hw]))
    rw [hopen]
    simp [opens]
  | @imported id1 c1 opens state held mngWid owner =>
    obtain rfl := (held w).1 hheld
    obtain ⟨hc1, hlive, -⟩ := (opens id1 c1).2 ⟨rfl, rfl⟩
    have hmem : id1 ∈ v.queue c1.exportedInode.importerWid kMasterWidConst :=
      (hv.mem _ _ _).2 ⟨c1, hc1, hlive, by rw [route, state]⟩
    refine @Placed.again _ _ id1 v.nextCtx c1 c (fun id d => ?_) state hs hw ?_ (hnone fun w' => (held w').1)
      (hmng mngWid) owner
    · rw [hopen, opens]
    · have : (v.startExport c1.exportedInode.importerWid ino c).queue c1.exportedInode.importerWid
          kMasterWidConst = v.queue c1.exportedInode.importerWid kMasterWidConst ++ [v.nextCtx] := by
        refine (setQueue_queue _ _ _ _ _ _).trans (if_pos ⟨rfl, rfl⟩)
      rw [this]
      exact (singleton_sublist.2 hmem).append (List.Sublist.refl [v.nextCtx])
  | requested _ _ held _ _ => exact absurd hheld (held w)
  | importing _ _ held _ _ => exact absurd hheld (held w)
  | again _ _ _ _ _ held _ _ => exact absurd hheld (held w)

section

variable {v : View} {ino id : ℕ} {c : Ctx} (opens : ∀ id' c', Open v ino id' c' ↔ id' = id ∧ c' = c)

include opens

theorem open_setCtx_only {e : Ctx} (hd : e.deleted = false) (hino : e.exportedInode.ino = ino)
    (hs : e.state ≠ .kOldOwnerExportSuccessNotification) (id' : ℕ) (d : Ctx) :
      Open (v.setCtx id e) ino id' d ↔ id' = id ∧ d = e := by
  by_cases hid : id' = id
  · subst hid
    rw [open_setCtx_self]
    simp [hd, hino, hs]
  · rw [open_setCtx_of_ne hid, opens]
    simp [hid]

theorem not_open_setCtx_only {e : Ctx} (hs : e.state = .kOldOwnerExportSuccessNotification) (id' : ℕ) (d : Ctx) :
    ¬ Open (v.setCtx id e) ino id' d := by
  by_cases hid : id' = id
  · subst hid
    rw [open_setCtx_self]
    simp [hs]
  · rw [open_setCtx_of_ne hid, opens]
    simp [hid]

end

theorem not_first_of_order (hv : Queues v) {id₁ id₂ : ℕ}
    (hq : v.queue a b = id₂ :: rest) (h : [id₁, id₂].Sublist (v.queue a b)) (hne : id₁ ≠ id₂) : False := by
  have hnd := hv.nodup a b
  rw [hq] at h hnd
  have := (sublist_of_cons_ne h hne).subset (by simp : id₂ ∈ [id₁, id₂])
  exact (nodup_cons.1 hnd).1 this

section Advance

variable (hv : Queues v) {id : ℕ} {c : Ctx} (hq : v.queue a b = id :: rest) (hc : v.ctx id = some c)
  (hd : c.deleted = false) (h : Placed v c.exportedInode.ino)

include hv hq hc hd h

/-- The primary hears of the export and passes the inode on. -/
theorem placed_advance_requested (hst : c.state = .kPrimaryRequestNewOwnerImport) :
    Placed ((v.setQueue a b rest).advance b id c) c.exportedInode.ino := by
  have hopen : Open v c.exportedInode.ino id c := ⟨hc, hd, rfl, by rw [hst]; simp⟩
  have hr := hv.route_of_mem (hq ▸ mem_cons_self) hc
  unfold advance
  rw [hst]
  cases h with
  | settled opens => exact absurd hopen (opens id c)
  | requested opens state held mngWid owner =>
    obtain ⟨rfl, rfl⟩ := (opens id c).1 hopen
    refine .importing (open_setCtx_only opens (e := { c with state := .kNewOwnerImport }) hd rfl (by simp))
      rfl held ?_ (View.setOwner_owner_self v _ _)
    exact (update_self _ _ v.mngWid).trans (if_pos mngWid)
  | importing opens state =>
    obtain ⟨rfl, rfl⟩ := (opens id c).1 hopen
    rw [state] at hst
    cases hst
  | imported opens state =>
    obtain ⟨rfl, rfl⟩ := (opens id c).1 hopen
    rw [state] at hst
    cases hst
  | @again id1 id2 c1 c2 opens state1 state2 same order =>
    rcases (opens id c).1 hopen with ⟨rfl, rfl⟩ | ⟨rfl, rfl⟩
    · rw [state1] at hst
      cases hst
    · -- the context before it is still there
      rw [route, hst] at hr
      obtain ⟨ha, hb⟩ := Prod.mk.inj hr
      rw [← same, ha, hb] at order
      refine (not_first_of_order hv hq order ?_).elim
      rintro rfl
      have ho := ((opens id1 c1).2 (.inl ⟨rfl, rfl⟩)).1
      cases hc.symm.trans ho
      rw [hst] at state1
      cases state1

/-- The new owner takes the inode. -/
theorem placed_advance_importing (hst : c.state = .kNewOwnerImport) :
    Placed ((v.setQueue a b rest).advance b id c) c.exportedInode.ino := by
  have hopen : Open v c.exportedInode.ino id c := ⟨hc, hd, rfl, by rw [hst]; simp⟩
  have hr := hv.route_of_mem (hq ▸ mem_cons_self) hc
  unfold advance
  rw [hst]
  have hb : c.exportedInode.importerWid = b := by
    rw [route, hst] at hr
    exact (Prod.mk.inj hr).2
  cases h with
  | settled opens => exact absurd hopen (opens id c)
  | requested opens state =>
    obtain ⟨rfl, rfl⟩ := (opens id c).1 hopen
    rw [state] at hst
    cases hst
  | importing opens state held mngWid owner =>
    obtain ⟨rfl, rfl⟩ := (opens id c).1 hopen
    have hheld (w : ℕ) : c.exportedInode.ino ∈ update v.held b (insert c.exportedInode.ino (v.held b)) w ↔
      w = c.exportedInode.importerWid := by
      rw [update_apply, hb]
      split_ifs with hw
      · simp [hw]
      · simp [hw, held]
    have hopens := open_setCtx_only opens (e := { c with state := .kPrimaryImportSuccessNotification }) hd rfl
      (by simp)
    dsimp only [logIf]
    split_ifs <;> exact .imported hopens rfl hheld mngWid owner
  | imported opens state =>
    obtain ⟨rfl, rfl⟩ := (opens id c).1 hopen
    rw [state] at hst
    cases hst
  | again opens state1 state2 =>
    rcases (opens id c).1 hopen with ⟨rfl, rfl⟩ | ⟨rfl, rfl⟩
    · rw [state1] at hst
      cases hst
    · rw [state2] at hst
      cases hst

omit hv in
/-- The primary hears of the import and names the new owner. -/
theorem placed_advance_imported (hst : c.state = .kPrimaryImportSuccessNotification) :
    Placed ((v.setQueue a b rest).advance b id c) c.exportedInode.ino := by
  have hopen : Open v c.exportedInode.ino id c := ⟨hc, hd, rfl, by rw [hst]; simp⟩
  unfold advance
  rw [hst]
  have howner : (v.setOwner c.exportedInode.ino (if c.exportedInode.importerWid = kMasterWidConst then none
      else some (c.exportedInode.importerWid : ℤ))).owner c.exportedInode.ino = c.exportedInode.importerWid := by
    rw [View.setOwner_owner_self]
    split_ifs with hm
    · rw [hm]
      rfl
    · rfl
  cases h with
  | settled opens => exact absurd hopen (opens id c)
  | requested opens state =>
    obtain ⟨rfl, rfl⟩ := (opens id c).1 hopen
    rw [state] at hst
    cases hst
  | importing opens state =>
    obtain ⟨rfl, rfl⟩ := (opens id c).1 hopen
    rw [state] at hst
    cases hst
  | imported opens state held mngWid owner =>
    obtain ⟨rfl, rfl⟩ := (opens id c).1 hopen
    exact .settled (not_open_setCtx_only opens (e :=
      { c with state := .kOldOwnerExportSuccessNotification }) rfl) held mngWid howner
  | @again id1 id2 c1 c2 opens state1 state2 same order held mngWid owner =>
    rcases (opens id c).1 hopen with ⟨rfl, rfl⟩ | ⟨rfl, rfl⟩
    · refine @Placed.requested _ _ id2 c2 (fun id' d => ?_) state2 held mngWid (howner.trans (by rw [same]))
      have hne : id2 ≠ id := by
        rintro rfl
        have ho := ((opens id2 c2).2 (.inr ⟨rfl, rfl⟩)).1
        cases hc.symm.trans ho
        rw [state1] at state2
        cases state2
      by_cases hid : id' = id
      · subst hid
        refine Iff.trans (open_setCtx_self (v := v)) ?_
        simp [Ne.symm hne]
      · refine Iff.trans (open_setCtx_of_ne (v := v) hid) ?_
        rw [opens]
        simp [hid]
    · rw [state2] at hst
      cases hst

theorem placed_advance (hs : c.state ≠ .kOldOwnerExportSuccessNotification) :
    Placed ((v.setQueue a b rest).advance b id c) c.exportedInode.ino := by
  cases hst : c.state with
  | kPrimaryRequestNewOwnerImport => exact placed_advance_requested hv hq hc hd h hst
  | kNewOwnerImport => exact placed_advance_importing hv hq hc hd h hst
  | kPrimaryImportSuccessNotification => exact placed_advance_imported hq hc hd h hst
  | kOldOwnerExportSuccessNotification => exact absurd hst hs

end Advance

theorem Inv.step {v v' : View} (h : Inv inodes v) (hs : v.Step v') : Inv inodes v' := by
  have hq := h.queues.step hs
  -- an inode that no worker has and no open context has keeps it so
  have habsent {ino : ℕ} (hn : ino ∉ inodes) (ha : Agree v v' ino) :
    (∀ id c, ¬ Open v' ino id c) ∧ ∀ w, ino ∉ v'.held w :=
    ⟨fun id c ho => (h.absent ino hn).1 id c ((ha.opens id c).1 ho), fun w hw =>
      (h.absent ino hn).2 w ((ha.held w).1 hw)⟩
  cases hs with
  | @start w ino c held state inode exporter live =>
    refine ⟨hq, fun ino' hin => ?_, fun ino' hn => ?_⟩
    · by_cases he : ino' = ino
      · subst he
        exact placed_startExport h.queues held state inode exporter live (h.placed ino' hin)
      · exact (h.placed ino' hin).of_agree (agree_startExport h.queues inode he)
    · refine habsent hn (agree_startExport h.queues inode ?_)
      rintro rfl
      exact (h.absent ino' hn).2 w held
  | @take a b id rest c queue ctx live =>
    refine ⟨hq, fun ino hin => ?_, fun ino hn => ?_⟩
    · by_cases he : c.exportedInode.ino = ino ∧ c.state ≠ .kOldOwnerExportSuccessNotification
      · obtain ⟨rfl, hst⟩ := he
        exact placed_advance h.queues queue ctx live (h.placed _ hin) hst
      · exact (h.placed ino hin).of_agree (agree_advance queue ctx he)
    · exact habsent hn (agree_advance queue ctx fun he => (h.absent ino hn).1 id c ⟨ctx, live, he⟩)

end Ufs.Proof.Ownership
