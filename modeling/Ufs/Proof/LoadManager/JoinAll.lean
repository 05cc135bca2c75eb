import Ufs.Impl.JoinAll

/-!
# A worker that is put to sleep owns nothing

From the `JoinAll` to its acknowledgement the worker that is merged away must not get inodes
(`Undisturbed`), and the `JoinAll` is to be one of `TryJoinBack`, which sends it to that worker;
`TryExecLbMergePlan` sends it to the other one. `sleeps_owning_nothing`: in a run of such steps a
worker that is marked as inactive has no inode and is the importer of none.
-/

namespace Ufs.Proof.LoadManager

open Impl JoinWorkers
open List

variable {s s' : JoinWorkers} {l : JoinWorkers.Label}

/-- The join that is under way. -/
def joinCtx (s : JoinWorkers) : Option LmMsgJoinAllCtx :=
  match s.join with
  | .idle => none
  | .sent ctx => some ctx
  | .joining ctx _ => some ctx
  | .acked ctx => some ctx

variable {ctx : LmMsgJoinAllCtx}

theorem joinCtx_joining {n : ℕ} (h : s.join = .joining ctx n) : joinCtx s = some ctx := by
  unfold joinCtx
  rw [h]

theorem joinCtx_acked (h : s.join = .acked ctx) : joinCtx s = some ctx := by
  unfold joinCtx
  rw [h]

/-- No reassignment to `wid` is under way. -/
def NoImport (s : JoinWorkers) (wid : ℕ) : Prop := ∀ ctx ∈ s.ctxs, ctx.importerWid ≠ wid

/-- `wid` is not joining another worker. -/
def Stays (s : JoinWorkers) (wid : ℕ) : Prop := ∀ ctx, joinCtx s = some ctx → ctx.srcWid ≠ wid

/-- What a join asks of the other steps: nothing is on its way to the worker that joins when it
begins, nothing is sent there until it has ended, and no merge plan is run. -/
def Undisturbed (l : JoinWorkers.Label) (s : JoinWorkers) : Prop :=
  match l with
  | .tryJoinBack srcWid dstWid => srcWid ≠ dstWid ∧ NoImport s srcWid
  | .tryExecLbMergePlan .. => False
  | .reassign _ _ dstWid => Stays s dstWid
  | .installInode _ => Stays s 0
  | .processLmJoinAll _ | .importInode _ | .oldOwnerCallback _ | .joinAllAck => True

/-- The inodes of the source are gone once it has handled the message, unless it answers that it is busy. -/
def Emptied (s : JoinWorkers) : Prop :=
  match s.join with
  | .idle => True
  | .sent _ => True
  | .joining ctx _ => s.inodeMap ctx.srcWid = []
  | .acked ctx => 0 ≤ ctx.numJoin → s.inodeMap ctx.srcWid = []

/-- What holds while a `JoinAll` is under way. -/
structure Joins (s : JoinWorkers) : Prop where
  toSource : ∀ ctx, joinCtx s = some ctx → ctx.recvWid = ctx.srcWid ∧ ctx.srcWid ≠ ctx.dstWid
  noImport : ∀ ctx, joinCtx s = some ctx → NoImport s ctx.srcWid
  emptied : Emptied s

theorem joins_of_idle (h : s.join = .idle) : Joins s := by
  have hnone : joinCtx s = none := by
    unfold joinCtx
    rw [h]
  refine ⟨fun ctx hc => ?_, fun ctx hc => ?_, ?_⟩
  · cases hnone.symm.trans hc
  · cases hnone.symm.trans hc
  · unfold Emptied
    rw [h]
    trivial

theorem Joins.keep (h : Joins s) (hjoin : s'.join = s.join)
    (hmap : ∀ ctx, joinCtx s = some ctx → s.inodeMap ctx.srcWid = [] → s'.inodeMap ctx.srcWid = [])
    (hctxs : ∀ ctx, joinCtx s = some ctx → NoImport s ctx.srcWid → NoImport s' ctx.srcWid) : Joins s' := by
  have hsame : joinCtx s' = joinCtx s := by
    unfold joinCtx
    rw [hjoin]
  refine ⟨fun ctx hc => h.toSource ctx (hsame ▸ hc), fun ctx hc =>
    hctxs ctx (hsame ▸ hc) (h.noImport ctx (hsame ▸ hc)), ?_⟩
  have hempty := h.emptied
  unfold Emptied at hempty ⊢
  rw [hjoin]
  cases hj : s.join with
  | idle => trivial
  | sent ctx => trivial
  | joining ctx n =>
    rw [hj] at hempty
    exact hmap ctx (joinCtx_joining hj) hempty
  | acked ctx =>
    rw [hj] at hempty
    exact fun hle => hmap ctx (joinCtx_acked hj) (hempty hle)

theorem Joins.sendJoinAll (h : Joins s) {srcWid dstWid : ℕ} (hne : srcWid ≠ dstWid) (hno : NoImport s srcWid) :
    Joins (s.sendJoinAll srcWid dstWid srcWid) := by
  unfold JoinWorkers.sendJoinAll
  split
  · refine ⟨fun ctx hc => ?_, fun ctx hc => ?_, trivial⟩
    · cases hc
      exact ⟨rfl, hne⟩
    · cases hc
      exact hno
  · exact h

theorem Joins.processLmJoinAll (h : Joins s) (n : ℕ) : Joins (s.processLmJoinAll n) := by
  unfold JoinWorkers.processLmJoinAll
  split
  · next ctx hj =>
    have hctx : joinCtx s = some ctx := by
      unfold joinCtx
      rw [hj]
    obtain ⟨hrecv, hne⟩ := h.toSource ctx hctx
    have hno := h.noImport ctx hctx
    dsimp only
    split
    · next hbusy =>
      refine ⟨fun c hc => ?_, fun c hc => ?_, fun hle => ?_⟩
      · cases hc
        exact ⟨hrecv, hne⟩
      · cases hc
        exact hno
      · dsimp only at hle
        omega
    · split
      · next hempty =>
        refine ⟨fun c hc => ?_, fun c hc => ?_, fun _ => ?_⟩
        · cases hc
          exact ⟨hrecv, hne⟩
        · cases hc
          exact hno
        · rw [hrecv] at hempty
          exact hempty
      · refine ⟨fun c hc => ?_, fun c hc => ?_, ?_⟩
        · cases hc
          exact ⟨hrecv, hne⟩
        · cases hc
          intro c hc
          rcases mem_append.1 hc with hc | hc
          · exact hno c hc
          · obtain ⟨ino, -, rfl⟩ := mem_map.1 hc
            exact hne.symm
        · change Function.update s.inodeMap ctx.recvWid [] ctx.srcWid = []
          rw [hrecv, Function.update_self]
  · exact h

theorem Joins.reassign (h : Joins s) {ino srcWid dstWid : ℕ} (hstays : Stays s dstWid) :
    Joins (s.reassign ino srcWid dstWid) := by
  unfold JoinWorkers.reassign
  split
  · refine h.keep rfl (fun ctx _ hempty => ?_) fun ctx hc hno c hin => ?_
    · dsimp only
      rcases eq_or_ne ctx.srcWid srcWid with heq | hne
      · rw [heq] at hempty ⊢
        rw [Function.update_self, hempty]
        rfl
      · rw [Function.update_of_ne hne]
        exact hempty
    · rcases mem_append.1 hin with hin | hin
      · exact hno c hin
      · rw [mem_singleton.1 hin]
        exact (hstays ctx hc).symm
  · exact h

theorem installInode_ne {wid ino w : ℕ} (hne : w ≠ wid) : (s.installInode wid ino).inodeMap w = s.inodeMap w :=
  Function.update_of_ne hne ..

theorem Joins.importInode (h : Joins s) (i : ℕ) : Joins (s.importInode i) := by
  unfold JoinWorkers.importInode
  split
  · exact h
  · next ctx hi =>
    have hmem := mem_of_getElem? hi
    split
    · exact h
    · refine h.keep rfl (fun c hc hempty => ?_) fun c hc hno c' hin => ?_
      · exact (installInode_ne (h.noImport c hc ctx hmem).symm).trans hempty
      · rcases mem_or_eq_of_mem_set hin with hin | rfl
        · exact hno c' hin
        · exact hno ctx hmem

theorem Joins.oldOwnerCallback (h : Joins s) (i : ℕ) : Joins (s.oldOwnerCallback i) := by
  have hless {c : ℕ} (hno : NoImport s c) (j : JoinPhase) :
    NoImport { s with ctxs := s.ctxs.eraseIdx i, join := j } c :=
    fun ctx hin => hno ctx (mem_of_mem_eraseIdx hin)
  unfold JoinWorkers.oldOwnerCallback
  split
  · exact h
  · next ctx hi =>
    split
    · dsimp only
      split
      · next join n hj =>
        have hctx := joinCtx_joining hj
        have hempty := h.emptied
        unfold Emptied at hempty
        rw [hj] at hempty
        split
        · by_cases hn : n = 1
          · rw [if_pos hn]
            refine ⟨fun c hc => ?_, fun c hc => ?_, fun _ => hempty⟩
            · cases hc
              exact h.toSource _ hctx
            · cases hc
              exact hless (h.noImport _ hctx) _
          · rw [if_neg hn]
            refine ⟨fun c hc => ?_, fun c hc => ?_, hempty⟩
            · cases hc
              exact h.toSource _ hctx
            · cases hc
              exact hless (h.noImport _ hctx) _
        · exact h.keep rfl (fun _ _ hm => hm) fun _ _ hno => hless hno s.join
      · exact h.keep rfl (fun _ _ hm => hm) fun _ _ hno => hless hno s.join
    · exact h

theorem Joins.step (h : Joins s) (hu : Undisturbed l s) (hstep : JoinWorkers.step l s = some s') : Joins s' := by
  cases hstep
  cases l with
  | tryJoinBack srcWid dstWid => exact h.sendJoinAll hu.1 hu.2
  | tryExecLbMergePlan srcWid dstWid => exact absurd hu id
  | processLmJoinAll n => exact h.processLmJoinAll n
  | reassign ino srcWid dstWid => exact h.reassign hu
  | installInode ino =>
    exact h.keep rfl (fun ctx hc hempty => (installInode_ne (hu ctx hc)).trans hempty) fun _ _ hno => hno
  | importInode i => exact h.importInode i
  | oldOwnerCallback i => exact h.oldOwnerCallback i
  | joinAllAck =>
    change Joins s.joinAllAck
    unfold JoinWorkers.joinAllAck
    split
    · exact joins_of_idle rfl
    · exact h

/-- What is asked of a step that marks a worker as inactive. -/
def SleepsEmpty (s s' : JoinWorkers) : Prop :=
  ∀ wid, s.active wid = true → s'.active wid = false →
    s.inodeMap wid = [] ∧ NoImport s wid ∧
      ∃ ctx, s.join = .acked ctx ∧ ctx.srcWid = wid ∧ ctx.recvWid = wid ∧ ctx.dstWid ≠ wid

theorem sendJoinAll_active (srcWid dstWid recvWid : ℕ) : (s.sendJoinAll srcWid dstWid recvWid).active = s.active := by
  unfold JoinWorkers.sendJoinAll
  split <;> rfl

theorem processLmJoinAll_active (n : ℕ) : (s.processLmJoinAll n).active = s.active := by
  unfold JoinWorkers.processLmJoinAll
  split
  · dsimp only
    split_ifs <;> rfl
  · rfl

theorem reassign_active (ino srcWid dstWid : ℕ) : (s.reassign ino srcWid dstWid).active = s.active := by
  unfold JoinWorkers.reassign
  split <;> rfl

theorem importInode_active (i : ℕ) : (s.importInode i).active = s.active := by
  unfold JoinWorkers.importInode
  split
  · rfl
  · split <;> rfl

theorem oldOwnerCallback_active (i : ℕ) : (s.oldOwnerCallback i).active = s.active := by
  unfold JoinWorkers.oldOwnerCallback
  split
  · rfl
  · split
    · dsimp only
      split
      · split <;> rfl
      · rfl
    · rfl

theorem inactive_of_step (hstep : JoinWorkers.step l s = some s') {wid : ℕ} (hactive : s.active wid = true)
    (hsleep : s'.active wid = false) : ∃ ctx, s.join = .acked ctx ∧ 0 ≤ ctx.numJoin ∧ ctx.srcWid = wid := by
  have hkept (h : s'.active = s.active) : False := by
    rw [h, hactive] at hsleep
    cases hsleep
  cases hstep
  cases l with
  | tryJoinBack srcWid dstWid => exact absurd (hkept (sendJoinAll_active ..)) id
  | tryExecLbMergePlan srcWid dstWid => exact absurd (hkept (sendJoinAll_active ..)) id
  | processLmJoinAll n => exact absurd (hkept (processLmJoinAll_active n)) id
  | reassign ino srcWid dstWid => exact absurd (hkept (reassign_active ..)) id
  | installInode ino => exact absurd (hkept rfl) id
  | importInode i => exact absurd (hkept (importInode_active i)) id
  | oldOwnerCallback i => exact absurd (hkept (oldOwnerCallback_active i)) id
  | joinAllAck =>
    change s.joinAllAck.active wid = false at hsleep
    unfold JoinWorkers.joinAllAck at hsleep
    split at hsleep
    · next ctx hj =>
      dsimp only at hsleep
      by_cases hle : 0 ≤ ctx.numJoin
      · rw [if_pos hle] at hsleep
        refine ⟨ctx, hj, hle, ?_⟩
        by_contra hne
        rw [Function.update_of_ne (Ne.symm hne), hactive] at hsleep
        cases hsleep
      · rw [if_neg hle, hactive] at hsleep
        cases hsleep
    · rw [hactive] at hsleep
      cases hsleep

theorem Joins.sleepsEmpty (h : Joins s) (hstep : JoinWorkers.step l s = some s') : SleepsEmpty s s' := by
  intro wid hactive hsleep
  obtain ⟨ctx, hj, hle, rfl⟩ := inactive_of_step hstep hactive hsleep
  have hctx := joinCtx_acked hj
  have hempty := h.emptied
  unfold Emptied at hempty
  rw [hj] at hempty
  obtain ⟨hrecv, hne⟩ := h.toSource ctx hctx
  exact ⟨hempty hle, h.noImport ctx hctx, ctx, hj, rfl, hrecv, hne.symm⟩

/-- **A worker is put to sleep only when it owns nothing**, in a run without merge plans in which no
inode is sent to a worker that is merged away. -/
theorem sleeps_owning_nothing {inodeMap : ℕ → List ℕ} {active : ℕ → Bool} {ls : List JoinWorkers.Label}
    (hrun : run JoinWorkers.step ls (start inodeMap active) = some s)
      (halong : Along JoinWorkers.step Undisturbed ls (start inodeMap active))
    (hstep : JoinWorkers.step l s = some s') : SleepsEmpty s s' := by
  have hjoins : Joins s := run_inv (P := Undisturbed) (I := Joins)
    (fun _ _ _ h hu hstep => h.step hu hstep) hrun halong (joins_of_idle rfl)
  exact hjoins.sleepsEmpty hstep

/-- The inodes 5 and 6 of worker 1, and none of the others. -/
def twoInodes (wid : ℕ) : List ℕ := if wid = 1 then [5, 6] else []

/-- Worker 1 joins worker 2 with two inodes. -/
def joinBack : List JoinWorkers.Label :=
  [.tryJoinBack 1 2, .processLmJoinAll 0, .importInode 0, .importInode 1, .oldOwnerCallback 0, .oldOwnerCallback 0]

theorem sleeps_owning_nothing_joinBack : ∃ s s', run JoinWorkers.step joinBack (start twoInodes fun _ => true) =
    some s ∧
      JoinWorkers.step .joinAllAck s = some s' ∧ s.active 1 = true ∧ s'.active 1 = false ∧ SleepsEmpty s s' := by
  have halong : Along JoinWorkers.step Undisturbed joinBack (start twoInodes fun _ => true) := by
    refine ⟨⟨by decide, fun ctx hc => ?_⟩, trivial, trivial, trivial, trivial, trivial, trivial⟩
    exact absurd hc List.not_mem_nil
  exact ⟨_, _, rfl, rfl, rfl, rfl, sleeps_owning_nothing (l := .joinAllAck) rfl halong rfl⟩

/-- **A worker is put to sleep with its inodes**: the merge plan for worker 1 sends the message to
worker 2, which has no inode and acknowledges, and worker 1 is marked as inactive. -/
theorem merge_plan_sleeps_with_inodes :
    ∃ s s', run JoinWorkers.step [.tryExecLbMergePlan 1 2, .processLmJoinAll 0] (start twoInodes fun _ => true) =
      some s ∧
      JoinWorkers.step .joinAllAck s = some s' ∧ s.active 1 = true ∧ s'.active 1 = false ∧ s.inodeMap 1 = [5, 6] ∧
        ¬ SleepsEmpty s s' := by
  refine ⟨_, _, rfl, rfl, rfl, rfl, rfl, fun h => ?_⟩
  cases (h 1 rfl rfl).1

end Ufs.Proof.LoadManager
