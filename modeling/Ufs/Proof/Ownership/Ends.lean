import Ufs.Framework.Fifo
import Ufs.Proof.Ownership.Protocol

/-!
# Every reassignment ends

`Traced` ties the trace of a run to the contexts and to the primary's set of reassigned inodes: the
new owner's callback is called when the inode is imported and the old owner's when the context is
deleted, once each, and the set has the inodes that the primary exported last. When every ring with
a message is read again and again, every context is deleted (`ends_of_fair`): it comes to the front
of its ring, and each time it does it is nearer to its end (`rank`).
-/

namespace Ufs.Proof.Ownership

open Impl ReassignmentOp
open Function (update update_of_ne update_self update_apply)
open List
open Owners (start step)

/-! ## The trace -/

/-- The last export or import of the inode by the primary. -/
def lastAtPrimary (tr : List OwnerEvent) (ino : ℕ) : Option OwnerEvent :=
  tr.find? fun e => decide (e = .exported kMasterWidConst ino ∨ e = .imported kMasterWidConst ino)

/-- The new owner has the inode. -/
def hasImported : State → Bool
  | .kPrimaryRequestNewOwnerImport => false
  | .kNewOwnerImport => false
  | .kPrimaryImportSuccessNotification => true
  | .kOldOwnerExportSuccessNotification => true

/-- The contexts, the reassigned inodes and the trace agree. -/
structure Traced (v : View) : Prop where
  fresh : ∀ id, v.ctx id = none →
    v.trace.count (.newOwnerCallback id) = 0 ∧ v.trace.count (.oldOwnerCallback id) = 0
  new : ∀ id c, v.ctx id = some c →
    v.trace.count (.newOwnerCallback id) = (c.newOwnerCallback.isSome && hasImported c.state).toNat
  old : ∀ id c, v.ctx id = some c →
    v.trace.count (.oldOwnerCallback id) = (c.oldOwnerCallback.isSome && c.deleted).toNat
  deleted : ∀ id c, v.ctx id = some c → c.deleted = true → c.state = .kOldOwnerExportSuccessNotification
  away : ∀ ino, ino ∈ v.away ↔ lastAtPrimary v.trace ino = some (.exported kMasterWidConst ino)

theorem lastAtPrimary_exported (tr : List OwnerEvent) (w ino ino' : ℕ) : lastAtPrimary (.exported w ino :: tr) ino' =
      if w = kMasterWidConst ∧ ino = ino' then some (.exported w ino) else lastAtPrimary tr ino' := by
  unfold lastAtPrimary
  split_ifs with h
  · exact List.find?_cons_of_pos (by simp [h.1, h.2])
  · exact List.find?_cons_of_neg (by simpa using h)

theorem lastAtPrimary_imported (tr : List OwnerEvent) (w ino ino' : ℕ) : lastAtPrimary (.imported w ino :: tr) ino' =
      if w = kMasterWidConst ∧ ino = ino' then some (.imported w ino) else lastAtPrimary tr ino' := by
  unfold lastAtPrimary
  split_ifs with h
  · exact List.find?_cons_of_pos (by simp [h.1, h.2])
  · exact List.find?_cons_of_neg (by simpa using h)

/-- The context after its next message was handled. -/
def forward (c : Ctx) : Ctx :=
  match c.state with
  | .kPrimaryRequestNewOwnerImport => { c with state := .kNewOwnerImport }
  | .kNewOwnerImport => { c with state := .kPrimaryImportSuccessNotification }
  | .kPrimaryImportSuccessNotification => { c with state := .kOldOwnerExportSuccessNotification }
  | .kOldOwnerExportSuccessNotification => { c with deleted := true }

theorem logIf_ctx (v : View) (b : Bool) (e : OwnerEvent) : (v.logIf b e).ctx = v.ctx := by
  unfold View.logIf
  split_ifs <;> rfl

theorem advance_ctx (v : View) (w id : ℕ) (c : Ctx) : (v.advance w id c).ctx = update v.ctx id (some (forward c)) := by
  unfold View.advance forward
  cases hs : c.state with
  | kPrimaryRequestNewOwnerImport => rfl
  | kNewOwnerImport => exact congrArg (update · id _) (logIf_ctx _ _ _)
  | kPrimaryImportSuccessNotification => rfl
  | kOldOwnerExportSuccessNotification => exact congrArg (update · id _) (logIf_ctx _ _ _)

theorem startExport_ctx (v : View) (w ino : ℕ) (c : Ctx) : (v.startExport w ino c).ctx = update v.ctx v.nextCtx
    (some c) := rfl

/-- What handling the context's message adds to the trace. -/
def happens (w id : ℕ) (c : Ctx) : List OwnerEvent :=
  match c.state with
  | .kPrimaryRequestNewOwnerImport => []
  | .kNewOwnerImport =>
    (if c.newOwnerCallback.isSome then [.newOwnerCallback id] else []) ++ [.imported w c.exportedInode.ino]
  | .kPrimaryImportSuccessNotification => []
  | .kOldOwnerExportSuccessNotification => if c.oldOwnerCallback.isSome then [.oldOwnerCallback id] else []

theorem advance_trace (v : View) (w id : ℕ) (c : Ctx) : (v.advance w id c).trace = happens w id c ++ v.trace := by
  unfold View.advance happens View.logIf
  cases hs : c.state <;> dsimp only <;> split_ifs <;> rfl

theorem count_happens_new (w id id' : ℕ) (c : Ctx) : (happens w id c).count (.newOwnerCallback id') =
    if id = id' then (c.newOwnerCallback.isSome && decide (c.state = .kNewOwnerImport)).toNat else 0 := by
  unfold happens
  cases c.state <;> cases c.newOwnerCallback <;> cases c.oldOwnerCallback <;> simp [count_cons]

theorem count_happens_old (w id id' : ℕ) (c : Ctx) : (happens w id c).count (.oldOwnerCallback id') = if id = id' then
      (c.oldOwnerCallback.isSome && decide (c.state = .kOldOwnerExportSuccessNotification)).toNat else 0 := by
  unfold happens
  cases c.state <;> cases c.newOwnerCallback <;> cases c.oldOwnerCallback <;> simp [count_cons]

theorem advance_away (v : View) (w id : ℕ) (c : Ctx) : (v.advance w id c).away =
    if c.state = .kNewOwnerImport ∧ c.exportedInode.importerWid =
      kMasterWidConst then v.away.erase c.exportedInode.ino else v.away := by
  unfold View.advance View.logIf
  cases hs : c.state <;> dsimp only <;> split_ifs <;> simp_all <;> rfl

theorem lastAtPrimary_happens (tr : List OwnerEvent) (w id ino : ℕ) (c : Ctx) :
    lastAtPrimary (happens w id c ++ tr) ino =
      if c.state = .kNewOwnerImport ∧ w = kMasterWidConst ∧ c.exportedInode.ino = ino then some
        (.imported w c.exportedInode.ino)
      else lastAtPrimary tr ino := by
  have hskip {e : OwnerEvent} {l : List OwnerEvent} (h : ¬ (e = .exported kMasterWidConst ino ∨
    e = .imported kMasterWidConst ino)) :
      lastAtPrimary (e :: l) ino = lastAtPrimary l ino := List.find?_cons_of_neg (by simpa using h)
  unfold happens
  cases hs : c.state with
  | kPrimaryRequestNewOwnerImport => simp
  | kNewOwnerImport =>
    dsimp only
    have himp := lastAtPrimary_imported tr w c.exportedInode.ino ino
    split_ifs at himp ⊢ <;> simp_all
  | kPrimaryImportSuccessNotification => simp
  | kOldOwnerExportSuccessNotification =>
    dsimp only
    split_ifs <;> simp_all

theorem Traced.step {v v' : View} (hq : Queues v) (h : Traced v) (hs : v.Step v') : Traced v' := by
  cases hs with
  | @start w ino c held state inode exporter live =>
    have htrace : (v.startExport w ino c).trace = .exported w ino :: v.trace := rfl
    have hnew := hq.fresh v.nextCtx le_rfl
    have hcase {id : ℕ} {c' : Ctx} (hc : (v.startExport w ino c).ctx id = some c') :
      (id = v.nextCtx ∧ c' = c) ∨ v.ctx id = some c' := by
      rw [startExport_ctx] at hc
      by_cases hid : id = v.nextCtx
      · subst hid
        rw [update_self] at hc
        exact .inl ⟨rfl, (Option.some.inj hc).symm⟩
      · rw [update_of_ne hid] at hc
        exact .inr hc
    refine ⟨fun id hid => ?_, fun id c' hc => ?_, fun id c' hc => ?_, fun id c' hc hd => ?_, fun ino' => ?_⟩
    · rw [htrace, count_cons_of_ne (by simp), count_cons_of_ne (by simp)]
      refine h.fresh id ?_
      rw [startExport_ctx, update_apply] at hid
      split_ifs at hid
      exact hid
    · rw [htrace, count_cons_of_ne (by simp)]
      rcases hcase hc with ⟨rfl, rfl⟩ | hc
      · rw [(h.fresh _ hnew).1, state]
        simp [hasImported]
      · exact h.new id c' hc
    · rw [htrace, count_cons_of_ne (by simp)]
      rcases hcase hc with ⟨rfl, rfl⟩ | hc
      · rw [(h.fresh _ hnew).2, live]
        simp
      · exact h.old id c' hc
    · rcases hcase hc with ⟨rfl, rfl⟩ | hc
      · rw [live] at hd
        cases hd
      · exact h.deleted id c' hc hd
    · rw [htrace, lastAtPrimary_exported, show (v.startExport w ino c).away = if w =
        kMasterWidConst then insert ino v.away else v.away from rfl]
      by_cases hw : w = kMasterWidConst
      · by_cases hi : ino = ino'
        · simp [hw, hi]
        · simp [hw, hi, Ne.symm hi, h.away ino']
      · simp [hw, h.away ino']
  | @take a b id rest c queue ctx live =>
    have hr := hq.route_of_mem (queue ▸ mem_cons_self) ctx
    have hcase {id' : ℕ} {c' : Ctx} (hc : ((v.setQueue a b rest).advance b id c).ctx id' = some c') :
        (id' = id ∧ c' = forward c) ∨ (id ≠ id' ∧ v.ctx id' = some c') := by
      rw [advance_ctx] at hc
      by_cases hid : id' = id
      · subst hid
        rw [update_self] at hc
        exact .inl ⟨rfl, (Option.some.inj hc).symm⟩
      · rw [update_of_ne hid] at hc
        exact .inr ⟨Ne.symm hid, hc⟩
    have htr : (v.setQueue a b rest).trace = v.trace := rfl
    refine ⟨fun id' hid => ?_, fun id' c' hc => ?_, fun id' c' hc => ?_, fun id' c' hc hd => ?_, fun ino => ?_⟩
    · rw [advance_ctx, update_apply] at hid
      split_ifs at hid with hne
      have hold := h.fresh id' hid
      rw [advance_trace, count_append, count_append, count_happens_new, count_happens_old,
        if_neg (Ne.symm hne), if_neg (Ne.symm hne), htr, hold.1, hold.2]
      exact ⟨rfl, rfl⟩
    · rw [advance_trace, count_append, count_happens_new, htr]
      rcases hcase hc with ⟨rfl, rfl⟩ | ⟨hne, hc⟩
      · rw [if_pos rfl, h.new _ c ctx, forward]
        cases c.state <;> cases c.newOwnerCallback <;> simp [hasImported]
      · rw [if_neg hne, h.new id' c' hc, Nat.zero_add]
    · rw [advance_trace, count_append, count_happens_old, htr]
      rcases hcase hc with ⟨rfl, rfl⟩ | ⟨hne, hc⟩
      · rw [if_pos rfl, h.old _ c ctx, forward]
        cases c.state <;> cases c.oldOwnerCallback <;> simp [live]
      · rw [if_neg hne, h.old id' c' hc, Nat.zero_add]
    · rcases hcase hc with ⟨rfl, rfl⟩ | ⟨hne, hc⟩
      · unfold forward at hd ⊢
        cases hst : c.state <;> simp_all
      · exact h.deleted id' c' hc hd
    · rw [advance_trace, lastAtPrimary_happens, advance_away, htr]
      -- the importer is the worker that reads the ring
      have hb (hst : c.state = .kNewOwnerImport) : c.exportedInode.importerWid = b := by
        rw [route, hst] at hr
        exact (Prod.mk.inj hr).2
      by_cases hst : c.state = .kNewOwnerImport
      · rw [hb hst]
        by_cases hbm : b = kMasterWidConst
        · by_cases hi : c.exportedInode.ino = ino
          · simp [hst, hbm, hi]
          · simp [hst, hbm, hi, Ne.symm hi, h.away ino, View.setQueue]
        · simp [hbm, h.away ino, View.setQueue]
      · simp [hst, h.away ino, View.setQueue]

/-! ## Contexts end -/

/-- The messages that the context is away from its end. -/
def rank (c : Ctx) : ℕ :=
  if c.deleted then 0
  else match c.state with
    | .kPrimaryRequestNewOwnerImport => 4
    | .kNewOwnerImport => 3
    | .kPrimaryImportSuccessNotification => 2
    | .kOldOwnerExportSuccessNotification => 1

variable {c : Ctx}

theorem rank_forward (h : c.deleted = false) : rank (forward c) < rank c := by
  unfold rank forward
  cases hs : c.state <;> simp [h]

theorem rank_step {v v' : View} (hq : Queues v) (hs : v.Step v') {id : ℕ} (hc : v.ctx id = some c) :
    ∃ c', v'.ctx id = some c' ∧ rank c' ≤ rank c := by
  cases hs with
  | @start w ino d =>
    have hne : id ≠ v.nextCtx := (hq.lt hc).ne
    refine ⟨c, ?_, le_rfl⟩
    rw [startExport_ctx, update_of_ne hne]
    exact hc
  | @take a b id' rest d queue ctx live =>
    by_cases hid : id = id'
    · subst hid
      cases hc.symm.trans ctx
      refine ⟨forward c, ?_, (rank_forward live).le⟩
      rw [advance_ctx, update_self]
    · refine ⟨c, ?_, le_rfl⟩
      rw [advance_ctx, update_of_ne hid]
      exact hc

theorem queue_send (v : View) (a b x y id : ℕ) : ∃ added, (v.send x y id).queue a b = v.queue a b ++ added := by
  rw [View.send, View.setQueue_queue]
  split_ifs with hab
  · exact ⟨[id], by rw [hab.1, hab.2]⟩
  · exact ⟨[], (append_nil _).symm⟩

theorem queue_advance (v : View) (w id a b : ℕ) (c : Ctx) : ∃ added,
    (v.advance w id c).queue a b = v.queue a b ++ added := by
  unfold View.advance View.logIf
  cases hs : c.state with
  | kPrimaryRequestNewOwnerImport => exact queue_send v _ _ _ _ _
  | kNewOwnerImport =>
    dsimp only
    split_ifs <;> exact queue_send v _ _ _ _ _
  | kPrimaryImportSuccessNotification => exact queue_send v _ _ _ _ _
  | kOldOwnerExportSuccessNotification =>
    dsimp only
    split_ifs <;> exact ⟨[], (append_nil _).symm⟩

/-- Every ring that has a message is looked into again. -/
def Fair (s : ℕ → Owners) (l : ℕ → Option Owners.Label) : Prop :=
  ∀ a b t, (s t).ring a b ≠ [] → ∃ t' ≥ t, l t' = some (.process a b)

section

variable {callback : ℕ → Ctx → Owners → Owners} (hcb : ∀ w c s, view (callback w c s) = view s)
  {s : ℕ → Owners} {l : ℕ → Option Owners.Label} (hexec : Execution (Owners.step callback) s l)

include hcb hexec

theorem queue_of_execution (a b : ℕ) : Queue (fun t => (view (s t)).queue a b) fun t => l t = some (.process a b) := by
  intro t
  cases hl : l t with
  | none =>
    refine .inr ⟨fun h => ?_, [], ?_⟩
    · cases hl.symm.trans h
    · simp only [hexec.waits hl, append_nil]
  | some lab =>
    have ht := hexec.steps hl
    cases lab with
    | start w ino dst old new =>
      refine .inr ⟨fun h => ?_, ?_⟩
      · cases hl.symm.trans h
      · simp only [step] at ht
        split_ifs at ht
        simp only [(export_view ht).2]
        exact queue_send (view (s t)) _ _ _ _ _
    | process x y =>
      obtain ⟨id, rest, c, hq, -, -, hv⟩ := process_view hcb ht
      have hadd := queue_advance ((view (s t)).setQueue x y rest) y id a b c
      rw [← hv, View.setQueue_queue] at hadd
      by_cases hab : a = x ∧ b = y
      · obtain ⟨rfl, rfl⟩ := hab
        rw [if_pos ⟨rfl, rfl⟩] at hadd
        obtain ⟨added, hadd⟩ := hadd
        exact .inl ⟨hl, id, rest, added, hq, hadd⟩
      · rw [if_neg hab] at hadd
        refine .inr ⟨fun h => hab ?_, hadd⟩
        cases hl.symm.trans h
        exact ⟨rfl, rfl⟩

theorem rank_execution (hinv : ∀ t, Queues (view (s t))) {t t' id : ℕ} (hle : t ≤ t')
    (hc : (s t).ctx id = some c) : ∃ c', (s t').ctx id = some c' ∧ rank c' ≤ rank c := by
  induction t', hle using Nat.le_induction with
  | base => exact ⟨c, hc, le_rfl⟩
  | succ n _ ih =>
    obtain ⟨c', hc', hr⟩ := ih
    cases hl : l n with
    | none =>
      rw [hexec.waits hl]
      exact ⟨c', hc', hr⟩
    | some lab =>
      obtain ⟨c'', hc'', hr'⟩ := rank_step (hinv n) (step_view hcb (hexec.steps hl)) hc'
      exact ⟨c'', hc'', hr'.trans hr⟩

theorem ends_of_fair (hinv : ∀ t, Queues (view (s t))) (hfair : Fair s l) {t id : ℕ}
    (hc : (s t).ctx id = some c) : ∃ t' ≥ t, ∃ c', (s t').ctx id = some c' ∧ c'.deleted = true := by
  induction hn : rank c using Nat.strong_induction_on generalizing t c with
  | _ n ih =>
  by_cases hd : c.deleted = true
  · exact ⟨t, le_rfl, c, hc, hd⟩
  have hlive : c.deleted = false := by simpa using hd
  have hmem : id ∈ (view (s t)).queue (route c).1 (route c).2 := ((hinv t).mem _ _ _).2 ⟨c, hc, hlive, rfl⟩
  obtain ⟨t', hle, hp, rest, hq⟩ := (queue_of_execution hcb hexec (route c).1 (route c).2).served
    (fun u hu => hfair _ _ u fun hnil => hu (by simp [view, hnil])) hmem
  obtain ⟨c', hc', hr⟩ := rank_execution hcb hexec hinv hle hc
  -- at `t'` the context is taken
  obtain ⟨id', rest', d, hq', hctx, hdl, hv⟩ := process_view hcb (hexec.steps hp)
  obtain ⟨rfl, -⟩ := List.cons.inj (hq.symm.trans hq')
  cases hc'.symm.trans hctx
  have hnext : (s (t' + 1)).ctx id = some (forward c') := by
    have := congrArg (fun v => v.ctx id) hv
    simp only [advance_ctx, update_self] at this
    exact this
  obtain ⟨t'', hle', c'', hc'', hd''⟩ := ih _ (by have := rank_forward hdl; omega) hnext rfl
  exact ⟨t'', by omega, c'', hc'', hd''⟩

end

/-! ## The workers -/

/-- The context has the inode: no worker does. -/
def InFlight (s : Owners) (ino id : ℕ) : Prop :=
  ∃ c, s.ctx id = some c ∧ c.deleted = false ∧ c.exportedInode.ino = ino ∧
    (c.state = .kPrimaryRequestNewOwnerImport ∨ c.state = .kNewOwnerImport)

/-- Who has an inode, and what the primary's map says about it. -/
structure Owned (inodes : Finset ℕ) (s : Owners) : Prop where
  /-- One worker has the inode and manages it, or one context has it. -/
  exclusive : ∀ ino ∈ inodes,
    (∃ w : ℕ, (∀ w', ino ∈ (s.worker w').inodeMap ↔ w' = w) ∧ (s.minode ino).mngWid = w ∧
      ∀ id, ¬ InFlight s ino id) ∨
    (∃! id, InFlight s ino id) ∧ ∀ w, ino ∉ (s.worker w).inodeMap
  /-- The primary's map is -1 between the primary's two steps of a context. -/
  inTransfer : ∀ ino ∈ inodes, s.getInodeOwner ino = -1 ↔ ∃ id c, s.ctx id = some c ∧ c.deleted = false ∧
    c.exportedInode.ino = ino ∧ (c.state = .kNewOwnerImport ∨ c.state = .kPrimaryImportSuccessNotification)
  /-- Otherwise it names the worker that has the inode, or that exported it and was not yet heard. -/
  named : ∀ ino ∈ inodes, s.getInodeOwner ino ≠ -1 → ∃ w : ℕ, s.getInodeOwner ino = w ∧
    (ino ∈ (s.worker w).inodeMap ∨ ∃ id c, s.ctx id = some c ∧ c.deleted = false ∧
      c.exportedInode.ino = ino ∧ c.state = .kPrimaryRequestNewOwnerImport ∧ c.exportedInode.exporterWid = w)
  /-- The primary keeps the inodes that it exported and did not import again. -/
  reassigned : ∀ ino, ino ∈ s.unsafeReassignedInodes ↔
    lastAtPrimary s.trace ino = some (.exported kMasterWidConst ino)
  /-- No callback is called twice. -/
  callbacks : ∀ id, s.trace.count (.newOwnerCallback id) ≤ 1 ∧ s.trace.count (.oldOwnerCallback id) ≤ 1

/-- A context that is deleted, its callbacks called once each. -/
def Ended (s : Owners) (id : ℕ) : Prop :=
  ∃ c, s.ctx id = some c ∧ c.deleted = true ∧
    s.trace.count (.newOwnerCallback id) = c.newOwnerCallback.isSome.toNat ∧
    s.trace.count (.oldOwnerCallback id) = c.oldOwnerCallback.isSome.toNat

theorem inFlight_iff {s : Owners} {ino id : ℕ} : InFlight s ino id ↔ ∃ c, Open (view s) ino id c ∧
    (c.state = .kPrimaryRequestNewOwnerImport ∨ c.state = .kNewOwnerImport) := by
  constructor
  · rintro ⟨c, hc, hd, hi, hs⟩
    refine ⟨c, ⟨hc, hd, hi, fun he => ?_⟩, hs⟩
    rw [he] at hs
    simp at hs
  · rintro ⟨c, ⟨hc, hd, hi, -⟩, hs⟩
    exact ⟨c, hc, hd, hi, hs⟩

variable {ino : ℕ}

theorem Placed.exclusive {s : Owners} (h : Placed (view s) ino) :
    (∃ w : ℕ, (∀ w', ino ∈ (s.worker w').inodeMap ↔ w' = w) ∧ (s.minode ino).mngWid = w ∧ ∀ id, ¬ InFlight s ino id) ∨
    (∃! id, InFlight s ino id) ∧ ∀ w, ino ∉ (s.worker w).inodeMap := by
  cases h with
  | settled opens held mngWid owner =>
    refine .inl ⟨_, held, mngWid, fun id hf => ?_⟩
    obtain ⟨c, ho, -⟩ := inFlight_iff.1 hf
    exact opens id c ho
  | requested opens state held =>
    refine .inr ⟨⟨_, inFlight_iff.2 ⟨_, (opens _ _).2 ⟨rfl, rfl⟩, .inl state⟩, fun id hf => ?_⟩, held⟩
    obtain ⟨c, ho, -⟩ := inFlight_iff.1 hf
    exact ((opens id c).1 ho).1
  | importing opens state held =>
    refine .inr ⟨⟨_, inFlight_iff.2 ⟨_, (opens _ _).2 ⟨rfl, rfl⟩, .inr state⟩, fun id hf => ?_⟩, held⟩
    obtain ⟨c, ho, -⟩ := inFlight_iff.1 hf
    exact ((opens id c).1 ho).1
  | imported opens state held mngWid owner =>
    refine .inl ⟨_, held, mngWid, fun id hf => ?_⟩
    obtain ⟨c, ho, hs⟩ := inFlight_iff.1 hf
    obtain ⟨rfl, rfl⟩ := (opens id c).1 ho
    simp [state] at hs
  | again opens state1 state2 same order held =>
    refine .inr ⟨⟨_, inFlight_iff.2 ⟨_, (opens _ _).2 (.inr ⟨rfl, rfl⟩), .inl state2⟩, fun id hf => ?_⟩, held⟩
    obtain ⟨c, ho, hs⟩ := inFlight_iff.1 hf
    rcases (opens id c).1 ho with ⟨rfl, rfl⟩ | ⟨rfl, rfl⟩
    · simp [state1] at hs
    · rfl

theorem Placed.owner_eq_neg_one {v : View} (h : Placed v ino) : v.owner ino = -1 ↔ ∃ id c,
    Open v ino id c ∧ (c.state = .kNewOwnerImport ∨ c.state = .kPrimaryImportSuccessNotification) := by
  cases h with
  | settled opens held mngWid owner =>
    rw [owner]
    refine ⟨fun he => by omega, ?_⟩
    rintro ⟨id, c, ho, -⟩
    exact absurd ho (opens id c)
  | requested opens state held mngWid owner =>
    rw [owner]
    refine ⟨fun he => by omega, ?_⟩
    rintro ⟨id, c, ho, hs⟩
    obtain ⟨rfl, rfl⟩ := (opens id c).1 ho
    simp [state] at hs
  | importing opens state held mngWid owner =>
    exact ⟨fun _ => ⟨_, _, (opens _ _).2 ⟨rfl, rfl⟩, .inl state⟩, fun _ => owner⟩
  | imported opens state held mngWid owner =>
    exact ⟨fun _ => ⟨_, _, (opens _ _).2 ⟨rfl, rfl⟩, .inr state⟩, fun _ => owner⟩
  | again opens state1 state2 same order held mngWid owner =>
    exact ⟨fun _ => ⟨_, _, (opens _ _).2 (.inl ⟨rfl, rfl⟩), .inr state1⟩, fun _ => owner⟩

theorem Placed.named {v : View} (h : Placed v ino) (hne : v.owner ino ≠ -1) :
    ∃ w : ℕ, v.owner ino = w ∧ (ino ∈ v.held w ∨ ∃ id c, Open v ino id c ∧
      c.state = .kPrimaryRequestNewOwnerImport ∧ c.exportedInode.exporterWid = w) := by
  cases h with
  | settled opens held mngWid owner => exact ⟨_, owner, .inl ((held _).2 rfl)⟩
  | requested opens state held mngWid owner =>
    exact ⟨_, owner, .inr ⟨_, _, (opens _ _).2 ⟨rfl, rfl⟩, state, rfl⟩⟩
  | importing opens state held mngWid owner => exact absurd owner hne
  | imported opens state held mngWid owner => exact absurd owner hne
  | again opens state1 state2 same order held mngWid owner => exact absurd owner hne

theorem Traced.callbacks {v : View} (h : Traced v) (id : ℕ) :
    v.trace.count (.newOwnerCallback id) ≤ 1 ∧ v.trace.count (.oldOwnerCallback id) ≤ 1 := by
  cases hc : v.ctx id with
  | some c =>
    rw [h.new id c hc, h.old id c hc]
    exact ⟨Bool.toNat_le _, Bool.toNat_le _⟩
  | none =>
    rw [(h.fresh id hc).1, (h.fresh id hc).2]
    exact ⟨Nat.zero_le 1, Nat.zero_le 1⟩

theorem owned_of_inv {inodes : Finset ℕ} {s : Owners} (h : Inv inodes (view s)) (ht : Traced (view s)) :
    Owned inodes s where
  exclusive ino hin := (h.placed ino hin).exclusive
  inTransfer ino hin := by
    refine (h.placed ino hin).owner_eq_neg_one.trans ⟨?_, ?_⟩
    · rintro ⟨id, c, ⟨hc, hd, hi, -⟩, hs⟩
      exact ⟨id, c, hc, hd, hi, hs⟩
    · rintro ⟨id, c, hc, hd, hi, hs⟩
      refine ⟨id, c, ⟨hc, hd, hi, fun he => ?_⟩, hs⟩
      simp [he] at hs
  named ino hin hne := by
    obtain ⟨w, hw, hh⟩ := (h.placed ino hin).named hne
    refine ⟨w, hw, hh.imp_right ?_⟩
    rintro ⟨id, c, ⟨hc, hd, hi, -⟩, hs, he⟩
    exact ⟨id, c, hc, hd, hi, hs, he⟩
  reassigned := ht.away
  callbacks := ht.callbacks

theorem inv_start (inodes : Finset ℕ) (fds : ℕ → Finset (ℕ × ℕ)) (fdMap : ℕ × ℕ → Option ℕ) :
    Inv inodes (view (start inodes fds fdMap)) ∧ Traced (view (start inodes fds fdMap)) := by
  have hctx (id : ℕ) : (view (start inodes fds fdMap)).ctx id = none := rfl
  have hopen (ino id : ℕ) (c : Ctx) : ¬ Open (view (start inodes fds fdMap)) ino id c := by
    rintro ⟨hc, -⟩
    cases hc
  have hheld (ino w : ℕ) : ino ∈ (view (start inodes fds fdMap)).held w ↔ w = kMasterWidConst ∧ ino ∈ inodes := by
    simp only [view, start]
    split_ifs with hw <;> simp [hw]
  refine ⟨⟨⟨fun id _ => hctx id, fun a b => nodup_nil, fun a b id => ?_⟩, fun ino hin => ?_,
    fun ino hn => ⟨hopen ino, fun w hw => hn ((hheld ino w).1 hw).2⟩⟩,
    ⟨fun _ _ => ⟨rfl, rfl⟩, fun _ _ h => ?_, fun _ _ h => ?_, fun _ _ h => ?_, fun ino => ?_⟩⟩
  · refine ⟨fun h => absurd h not_mem_nil, ?_⟩
    rintro ⟨c, hc, -⟩
    cases hc
  · refine .settled (w := kMasterWidConst) (hopen ino) (fun w => ?_) rfl rfl
    rw [hheld]
    exact and_iff_left hin
  · cases h
  · cases h
  · cases h
  · simp [view, start, lastAtPrimary]

/-- In every run, between any two steps, an inode is with one worker or one context, the primary's map
and its set of reassigned inodes are as they should be; and in every execution in which the rings are
read, every context ends with its callbacks called once. -/
theorem ownership_protocol (callback : ℕ → Ctx → Owners → Owners)
    (hcb : ∀ w c s, view (callback w c s) = view s) (inodes : Finset ℕ) (fds : ℕ → Finset (ℕ × ℕ))
      (fdMap : ℕ × ℕ → Option ℕ) :
    (∀ ls s, run (Owners.step callback) ls (Owners.start inodes fds fdMap) = some s → Owned inodes s) ∧
      ∀ s l, s 0 = Owners.start inodes fds fdMap → Execution (Owners.step callback) s l → Fair s l →
        ∀ t id c, (s t).ctx id = some c → ∃ t' ≥ t, Ended (s t') id := by
  have hstep (a : Owners.Label) (s s' : Owners) (h : Inv inodes (view s) ∧ Traced (view s))
      (hs : Owners.step callback a s = some s') : Inv inodes (view s') ∧ Traced (view s') :=
    ⟨h.1.step (step_view hcb hs), h.2.step h.1.queues (step_view hcb hs)⟩
  refine ⟨fun ls s hrun => ?_, fun s l h0 hexec hfair t id c hc => ?_⟩
  · obtain ⟨hi, ht⟩ := run_inv' hstep hrun (inv_start inodes fds fdMap)
    exact owned_of_inv hi ht
  · have hinv := hexec.inv hstep (h0 ▸ inv_start inodes fds fdMap)
    obtain ⟨t', hle, c', hc', hd⟩ := ends_of_fair hcb hexec (fun u => (hinv u).1.queues) hfair hc
    have htr := (hinv t').2
    refine ⟨t', hle, c', hc', hd, (htr.new id c' hc').trans ?_, (htr.old id c' hc').trans ?_⟩
    · simp [htr.deleted id c' hc' hd, hasImported]
    · simp [hd]

/-- The primary exports an inode to worker 1, and each worker takes the context in its turn. -/
def exportOnce : List Owners.Label :=
  [.start 0 1 1 (some .other) (some .other), .process 0 0, .process 0 1, .process 1 0, .process 0 0]

theorem exportOnce_fair (s0 : Owners) (h0 : s0 = start {1} (fun _ => ∅) (fun _ => none)) :
    Fair (fun t => (run (step fun _ _ s => s) (exportOnce.take t) s0).getD s0) (fun t => exportOnce[t]?) := by
  subst h0
  intro a b t h
  rcases t with _ | _ | _ | _ | _ | t
  case succ.succ.succ.succ.succ =>
    dsimp only at h
    rw [take_of_length_le (by simp [exportOnce])] at h
    rcases a with _ | _ | a <;> rcases b with _ | _ | b <;> exact absurd rfl h
  all_goals rcases a with _ | _ | a <;> rcases b with _ | _ | b <;> first
      | exact absurd rfl h
      | exact ⟨4, by decide, rfl⟩
      | exact ⟨2, by decide, rfl⟩
      | exact ⟨3, by decide, rfl⟩

theorem ownership_protocol_exportOnce : ∃ s l, s 0 = Owners.start {1} (fun _ => ∅) (fun _ => none) ∧
    Execution (Owners.step fun _ _ s => s) s l ∧
      Fair s l ∧ Owned {1} (s 5) ∧ ∃ t' ≥ 1, Ended (s t') 0 := by
  have h := ownership_protocol (fun _ _ s => s) (fun _ _ _ => rfl) {1} (fun _ => ∅) (fun _ => none)
  have hexec := @Execution.of_run _ _ (Owners.step fun _ _ s => s) exportOnce
    (Owners.start {1} (fun _ => ∅) (fun _ => none)) _ rfl
  exact ⟨_, _, rfl, hexec, exportOnce_fair _ rfl, h.1 exportOnce _ rfl,
    h.2 _ _ rfl hexec (exportOnce_fair _ rfl) 1 0 _ rfl⟩

end Ufs.Proof.Ownership
