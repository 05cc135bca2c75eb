import Mathlib.Data.List.Perm.Basic
import Ufs.Impl.LoadManager

/-!
# The load manager does not talk over itself

`Matched`: `core_has_msg_sent_` has the messages that the workers still have to acknowledge, and no
worker has two. A round keeps it if its messages go to different workers. Those of a plan do; those
of `TryRebalance` do if the round has sent nothing before, and the history of the thread that it
moves has no worker twice, apart from the new one (`Spaced`). The histories do get workers twice,
because the duplicates are erased from a copy. `messages_acknowledged`: in a run whose calls of
`TryRebalance` are spaced, no step throws, no worker has two messages, and the acknowledgements in
any order take the load manager out of its wait.
-/

namespace Ufs.Proof.LoadManager

open Impl KPLoadManager
open List
open KPLoadManager (step)

variable {m m' : KPLoadManager} {l : Label} {wid : ℕ} {type : LmMsgType}

/-- Where a thread's requests went, the workers other than `dst`. -/
def others (his : DstHistory) (dst : ℕ) : List ℕ := (his.map (·.2)).filter (· != dst)

/-- A call of `TryRebalance` that moves a thread is the first of its round that does, and no worker
is twice in the history of the thread, apart from the new one. -/
def Spaced (l : Label) (m : KPLoadManager) : Prop :=
  match l, m.calls with
  | .tryRebalance, (src, dst :: _) :: _ =>
    ∀ x his, firstCandidate ((m.initTaus src.taus).candidates src) = some x →
      (m.initTaus src.taus).futureTb x.tau = some his → m.coreHasMsgSent = [] ∧ (others his dst).Nodup
  | _, _ => True

/-- The messages outstanding are those on record, at most one a worker, and a task that has a
history has the master in it. -/
structure Matched (m : KPLoadManager) : Prop where
  same : m.messages.Perm m.coreHasMsgSent
  single : (m.messages.map (·.1)).Nodup
  master : ∀ tau his, m.futureTb tau = some his → masterWid ∈ his.map (·.2)

theorem matched_start : Matched start :=
  ⟨.refl _, nodup_nil, nofun⟩

/-! ## Sending -/

/-- Messages were sent to `wids`, and nothing else changed. -/
structure Sent (wids : List ℕ) (m m' : KPLoadManager) : Prop where
  matched : Matched m'
  futureTb : m'.futureTb = m.futureTb
  evalRoundId : m'.evalRoundId = m.evalRoundId
  wids : ∀ w, w ∈ m'.coreHasMsgSent.map (·.1) ↔ w ∈ wids ∨ w ∈ m.coreHasMsgSent.map (·.1)

theorem sendMsg_sent (h : Matched m) (hwid : wid ∉ m.coreHasMsgSent.map (·.1)) (type : LmMsgType) :
    ∃ m', m.sendMsg wid type = some m' ∧ Sent [wid] m m' := by
  have hany : ¬ m.coreHasMsgSent.any (·.1 == wid) = true := by
    intro hany
    obtain ⟨x, hx, heq⟩ := any_eq_true.1 hany
    exact hwid (mem_map.2 ⟨x, hx, by simpa using heq⟩)
  unfold sendMsg
  rw [if_neg hany]
  refine ⟨_, rfl, ⟨?_, ?_, h.master⟩, rfl, rfl, fun w => ?_⟩
  · exact perm_append_comm.trans (h.same.cons _)
  · have hnot : wid ∉ m.messages.map (·.1) := fun hmem => hwid ((h.same.map _).mem_iff.1 hmem)
    dsimp only
    rw [map_append, map_singleton, nodup_append]
    refine ⟨h.single, nodup_singleton _, fun a ha b hb => ?_⟩
    rintro rfl
    rw [mem_singleton.1 hb] at ha
    exact hnot ha
  · simp [mem_map]

theorem sendAll_sent {wids : List ℕ} (hnodup : wids.Nodup) (h : Matched m)
    (hnew : ∀ w ∈ wids, w ∉ m.coreHasMsgSent.map (·.1)) (type : LmMsgType) :
      ∃ m', m.sendAll type wids = some m' ∧ Sent wids m m' := by
  induction wids generalizing m with
  | nil => exact ⟨m, rfl, h, rfl, rfl, fun w => by simp⟩
  | cons wid wids ih =>
    obtain ⟨hwid, hnodup⟩ := nodup_cons.1 hnodup
    obtain ⟨m1, hsend, hsent⟩ := sendMsg_sent h (hnew wid (mem_cons_self ..)) type
    have hnew1 (w : ℕ) (hw : w ∈ wids) : w ∉ m1.coreHasMsgSent.map (·.1) := by
      intro hin
      rcases (hsent.wids w).1 hin with hin | hin
      · exact hwid (mem_singleton.1 hin ▸ hw)
      · exact hnew w (mem_cons_of_mem _ hw) hin
    obtain ⟨m2, hall, hsent2⟩ := ih hnodup hsent.matched hnew1
    refine ⟨m2, ?_, hsent2.matched, hsent2.futureTb.trans hsent.futureTb,
      hsent2.evalRoundId.trans hsent.evalRoundId, fun w => ?_⟩
    · unfold sendAll
      rw [hsend]
      exact hall
    · rw [hsent2.wids, hsent.wids, mem_singleton, mem_cons]
      tauto

theorem Matched.congr (h : Matched m) (hmsgs : m'.messages = m.messages) (hsent : m'.coreHasMsgSent = m.coreHasMsgSent)
    (hmaster : ∀ tau his, m'.futureTb tau = some his → masterWid ∈ his.map (·.2)) : Matched m' := by
  refine ⟨?_, ?_, hmaster⟩
  · rw [hmsgs, hsent]
    exact h.same
  · rw [hmsgs]
    exact h.single

/-! ## The routing table -/

variable {his : DstHistory}

theorem mem_emplace {round : ℕ} {x : ℕ × ℕ} (h : x ∈ his) : x ∈ his.emplace round wid := by
  induction his with
  | nil => cases h
  | cons y his ih =>
    obtain ⟨r, w⟩ := y
    unfold DstHistory.emplace
    split
    · exact mem_cons_of_mem _ h
    · split
      · exact h
      · rcases mem_cons.1 h with rfl | h
        · exact mem_cons_self ..
        · exact mem_cons_of_mem _ (ih h)

theorem others_emplace (round dst : ℕ) (his : DstHistory) : others (his.emplace round dst) dst = others his dst := by
  induction his with
  | nil => simp [DstHistory.emplace, others]
  | cons y his ih =>
    obtain ⟨r, w⟩ := y
    unfold DstHistory.emplace
    split
    · simp [others]
    · split
      · rfl
      · unfold others at ih ⊢
        rw [map_cons, map_cons, filter_cons, filter_cons, ih]

theorem initTaus_inv {P : KPLoadManager → Prop} (hinit : ∀ m tau, P m → P (m.initTauToMaster tau)) (taus : List TauLoad)
    (h : P m) : P (m.initTaus taus) := by
  unfold initTaus
  induction taus generalizing m with
  | nil => exact h
  | cons x taus ih =>
    rw [foldl_cons]
    refine ih ?_
    split
    · exact hinit m x.tau h
    · exact h

theorem initTaus_coreHasMsgSent (m : KPLoadManager) (taus : List TauLoad) :
    (m.initTaus taus).coreHasMsgSent = m.coreHasMsgSent :=
  initTaus_inv (P := fun m' => m'.coreHasMsgSent = m.coreHasMsgSent) (fun _ _ h => h) taus rfl

theorem Matched.initTaus (h : Matched m) (taus : List TauLoad) : Matched (m.initTaus taus) := by
  refine initTaus_inv (fun m tau h => h.congr rfl rfl fun tau' his hhis => ?_) taus h
  unfold initTauToMaster at hhis
  dsimp only at hhis
  rcases eq_or_ne tau' tau with rfl | hne
  · rw [Function.update_self, Option.some.injEq] at hhis
    rw [← hhis, map_singleton]
    exact mem_singleton.2 rfl
  · rw [Function.update_of_ne hne] at hhis
    exact h.master tau' his hhis

theorem firstCandidate_mem {xs : List TauLoad} {x : TauLoad} (h : firstCandidate xs = some x) : x ∈ xs := by
  cases xs with
  | nil => cases h
  | cons y ys =>
    cases h
    have hfold : ∀ (ys : List TauLoad) (b : TauLoad), ys.foldl
      (fun best y => if TauLoad.before y best then y else best) b ∈ b :: ys := by
      intro ys
      induction ys with
      | nil => exact fun b => mem_singleton.2 rfl
      | cons z ys ih =>
        intro b
        rw [foldl_cons]
        split
        · exact mem_cons_of_mem _ (ih z)
        · rcases mem_cons.1 (ih b) with h | h
          · rw [h]
            exact mem_cons_self ..
          · exact mem_cons_of_mem _ (mem_cons_of_mem _ h)
    exact hfold ys y

theorem updateTauDstWid_eq {tau src dst : ℕ} (hhis : m.futureTb tau = some his)
    (hlast : his.getLast?.map (·.2) = some src) : m.updateTauDstWid tau src dst =
      { m with futureTb := Function.update m.futureTb tau (some (his.emplace m.evalRoundId dst)) } := by
  unfold updateTauDstWid
  rw [hhis]
  dsimp only
  rw [if_pos hlast]

theorem redirect_sent {tau src dst : ℕ} (h : Matched m) (hempty : m.coreHasMsgSent = [])
    (hhis : m.futureTb tau = some his) (hlast : his.getLast?.map (·.2) = some src) (hnodup : (others his dst).Nodup) :
    ∃ m', m.redirect tau src dst = some m' ∧ Matched m' := by
  obtain ⟨m1, hsend, hsent⟩ := sendMsg_sent h (show dst ∉ _ by rw [hempty]; exact not_mem_nil) .redirectFuture
  have hhis1 : m1.futureTb tau = some his := by rw [hsent.futureTb, hhis]
  have hmaster : masterWid ∈ (his.emplace m1.evalRoundId dst).map (·.2) := by
    obtain ⟨x, hx, heq⟩ := mem_map.1 (h.master tau his hhis)
    exact mem_map.2 ⟨x, mem_emplace hx, heq⟩
  have h2 : Matched (m1.updateTauDstWid tau src dst) := by
    rw [updateTauDstWid_eq hhis1 hlast]
    refine hsent.matched.congr rfl rfl fun tau' his' hhis' => ?_
    dsimp only at hhis'
    rcases eq_or_ne tau' tau with rfl | hne
    · rw [Function.update_self, Option.some.injEq] at hhis'
      rw [← hhis']
      exact hmaster
    · rw [Function.update_of_ne hne] at hhis'
      exact hsent.matched.master tau' his' hhis'
  have htable : (m1.updateTauDstWid tau src dst).futureTb tau = some (his.emplace m1.evalRoundId dst) := by
    rw [updateTauDstWid_eq hhis1 hlast]
    exact Function.update_self ..
  have hcore : (m1.updateTauDstWid tau src dst).coreHasMsgSent = m1.coreHasMsgSent := by
    rw [updateTauDstWid_eq hhis1 hlast]
  have hnew (w : ℕ) (hw : w ∈ others (his.emplace m1.evalRoundId dst) dst) :
    w ∉ (m1.updateTauDstWid tau src dst).coreHasMsgSent.map (·.1) := by
    intro hin
    rw [hcore, hsent.wids, hempty] at hin
    rcases hin with hin | hin
    · rw [mem_singleton.1 hin] at hw
      have := (mem_filter.1 hw).2
      simp at this
    · cases hin
  have hnodup' : (others (his.emplace m1.evalRoundId dst) dst).Nodup := by
    rw [others_emplace]
    exact hnodup
  obtain ⟨m3, hall, hsent3⟩ := sendAll_sent hnodup' h2 hnew .redirectFuture
  refine ⟨m3, ?_, hsent3.matched⟩
  unfold redirect
  rw [hsend]
  change ((m1.updateTauDstWid tau src dst).sendAll _ _).bind _ = _
  rw [htable, Option.getD_some]
  change ((m1.updateTauDstWid tau src dst).sendAll .redirectFuture
    (others (his.emplace m1.evalRoundId dst) dst)).bind _ = _
  rw [hall, Option.bind_some, if_pos]
  obtain ⟨x, hx, heq⟩ := mem_map.1 hmaster
  exact any_eq_true.2 ⟨x, hx, by simpa using heq⟩

theorem tryRebalance_sent {src : LoadSummary} {dst : ℕ} (h : Matched m)
    (hspaced : ∀ x his, firstCandidate ((m.initTaus src.taus).candidates src) = some x →
      (m.initTaus src.taus).futureTb x.tau = some his → m.coreHasMsgSent = [] ∧ (others his dst).Nodup) :
    ∃ rt m', m.tryRebalance src dst = some (rt, m') ∧ Matched m' := by
  unfold tryRebalance
  dsimp only
  cases hfirst : firstCandidate ((m.initTaus src.taus).candidates src) with
  | none => exact ⟨false, _, rfl, h.initTaus _⟩
  | some x =>
    have hcand := (mem_filter.1 (firstCandidate_mem hfirst)).2
    rw [decide_eq_true_eq] at hcand
    obtain ⟨his, hhis, hlast⟩ := Option.bind_eq_some_iff.1 hcand
    obtain ⟨hempty, hnodup⟩ := hspaced x his hfirst hhis
    obtain ⟨m', hredirect, hm'⟩ := redirect_sent (h.initTaus src.taus)
      ((initTaus_coreHasMsgSent m src.taus).trans hempty) hhis hlast hnodup
    exact ⟨true, m', by dsimp only; rw [hredirect]; rfl, hm'⟩

/-! ## Acknowledgements -/

theorem ack_matched {i : ℕ} (h : Matched m) (hi : m.messages[i]? = some (wid, type)) :
    ∃ m', { m with messages := m.messages.eraseIdx i }.checkOneMsgAckMatch wid type = some m' ∧ Matched m' ∧
      m'.messages = m.messages.eraseIdx i ∧ m'.calls = m.calls := by
  obtain ⟨hlt, hget⟩ := List.getElem?_eq_some_iff.1 hi
  have hperm : m.messages.Perm ((wid, type) :: m.messages.eraseIdx i) := by
    rw [← hget]
    exact (getElem_cons_eraseIdx_perm hlt).symm
  have hnodup := (hperm.map (·.1)).nodup_iff.1 h.single
  rw [map_cons, nodup_cons] at hnodup
  have hmem : (wid, type) ∈ m.coreHasMsgSent := h.same.mem_iff.1 (hperm.mem_iff.2 (mem_cons_self ..))
  -- the entry of the worker is the one of the message
  have hfind : ∃ sent, m.coreHasMsgSent.find? (·.1 == wid) = some sent ∧ sent.2 = type := by
    cases hf : m.coreHasMsgSent.find? (·.1 == wid) with
    | none =>
      have := List.find?_eq_none.1 hf _ hmem
      simp at this
    | some sent =>
      have heq : sent.1 = wid := by simpa using List.find?_some hf
      have hin := hperm.mem_iff.1 (h.same.mem_iff.2 (List.mem_of_find?_eq_some hf))
      rcases mem_cons.1 hin with rfl | hin
      · exact ⟨_, rfl, rfl⟩
      · exact absurd (mem_map.2 ⟨sent, hin, heq⟩) hnodup.1
  obtain ⟨sent, hfind, htype⟩ := hfind
  have hrest : (m.messages.eraseIdx i).Perm (m.coreHasMsgSent.filter (·.1 != wid)) := by
    have hfilter := (hperm.symm.trans h.same).filter (·.1 != wid)
    rw [filter_cons_of_neg (by simp)] at hfilter
    rw [filter_eq_self.2] at hfilter
    · exact hfilter
    · intro x hx
      have : x.1 ≠ wid := fun heq => hnodup.1 (mem_map.2 ⟨x, hx, heq⟩)
      simpa using this
  unfold checkOneMsgAckMatch
  dsimp only
  rw [hfind]
  dsimp only
  rw [if_pos htype]
  exact ⟨_, rfl, ⟨hrest, hnodup.2, h.master⟩, rfl, rfl⟩

/-! ## Runs -/

theorem Matched.nextRound (h : Matched m) (calls : List (LoadSummary × List ℕ)) (once : Bool) :
    Matched { m with evalRoundId := m.evalRoundId + 1, calls := calls, once := once } := h.congr rfl rfl h.master

theorem idle_coreHasMsgSent (h : m.idle = true) : m.coreHasMsgSent = [] := by
  unfold idle at h
  rw [Bool.and_eq_true] at h
  exact List.isEmpty_iff.1 h.2

theorem Matched.step (h : Matched m) (hspaced : Spaced l m) : ∃ m', step l m = some m' ∧ Matched m' := by
  have hnone (hidle : m.idle = true) (w : ℕ) : w ∉ m.coreHasMsgSent.map (·.1) := by
    rw [idle_coreHasMsgSent hidle]
    exact not_mem_nil
  cases l with
  | skip =>
    refine ⟨_, rfl, ?_⟩
    split
    · exact h.nextRound _ _
    · exact h
  | doRebalance congestCores underCores =>
    refine ⟨_, rfl, ?_⟩
    split
    · exact h.nextRound _ _
    · exact h
  | overloadAddOneCore congestCores newActivateCid =>
    refine ⟨_, rfl, ?_⟩
    split
    · exact h.nextRound _ _
    · exact h
  | execLbPlan srcCid wids =>
    unfold step
    dsimp only
    split
    · next hidle =>
      obtain ⟨m', hall, hsent⟩ := sendAll_sent (nodup_dedup (masterWid :: srcCid :: wids))
        (h.nextRound m.calls m.once) (fun w _ => hnone hidle w) .redirectFuture
      exact ⟨m', hall, hsent.matched⟩
    · exact ⟨m, rfl, h⟩
  | execLbMergePlan srcWid dstWid =>
    unfold step
    dsimp only
    split
    · next hidle =>
      obtain ⟨m', hsend, hsent⟩ := sendMsg_sent (h.nextRound m.calls m.once) (hnone hidle dstWid) .joinAll
      exact ⟨m', hsend, hsent.matched⟩
    · exact ⟨m, rfl, h⟩
  | tryRebalance =>
    unfold step
    unfold Spaced at hspaced
    dsimp only
    split
    · exact ⟨m, rfl, h⟩
    · exact ⟨_, rfl, h.congr rfl rfl h.master⟩
    · next src dst dsts rest hcalls =>
      rw [hcalls] at hspaced
      obtain ⟨rt, m', htry, hm'⟩ := tryRebalance_sent h hspaced
      rw [htry]
      exact ⟨_, rfl, hm'.congr rfl rfl hm'.master⟩
  | ack i =>
    unfold step
    dsimp only
    split
    · cases hi : m.messages[i]? with
      | none => exact ⟨m, rfl, h⟩
      | some x =>
        obtain ⟨m', hack, hm', -⟩ := ack_matched h hi
        exact ⟨m', hack, hm'⟩
    · exact ⟨m, rfl, h⟩

theorem ack_shortens (h : Matched m) (hcalls : m.calls = []) {i : ℕ} (hi : i < m.messages.length) :
    ∃ m', step (.ack i) m = some m' ∧ m'.calls = [] ∧ m'.messages.length + 1 = m.messages.length := by
  obtain ⟨m', hack, -, hmsgs, hc⟩ := ack_matched h (List.getElem?_eq_getElem hi)
  refine ⟨m', ?_, hc.trans hcalls, ?_⟩
  · unfold step
    dsimp only
    rw [if_pos (List.isEmpty_iff.2 hcalls), List.getElem?_eq_getElem hi]
    exact hack
  · rw [hmsgs, length_eraseIdx_of_lt hi]
    omega

/-- In a run whose calls of `TryRebalance` are spaced: the messages that are not acknowledged are those that
`core_has_msg_sent_` has, and no worker has two; no further such step throws; and after the policy the acknowledgements,
whichever comes next, are received one by one until none is left. -/
theorem messages_acknowledged {ls : List Label} (hrun : run step ls start = some m)
    (hspaced : Along step Spaced ls start) :
    m.messages.Perm m.coreHasMsgSent ∧ (m.messages.map (·.1)).Nodup ∧ (∀ l, Spaced l m → ∃ m', step l m = some m') ∧
    (m.calls = [] → ∀ i < m.messages.length,
      ∃ m', step (.ack i) m = some m' ∧ m'.calls = [] ∧ m'.messages.length + 1 = m.messages.length) := by
  have h : Matched m := by
    refine run_inv (P := Spaced) (I := Matched) (fun l m m' h hs hstep => ?_) hrun hspaced matched_start
    obtain ⟨m₁, hm₁, h₁⟩ := h.step hs
    cases hstep.symm.trans hm₁
    exact h₁
  refine ⟨h.same, h.single, fun l hs => ?_, fun hcalls i hi => ack_shortens h hcalls hi⟩
  obtain ⟨m', hm', -⟩ := h.step hs
  exact ⟨m', hm'⟩

/-- The summary of a worker that one task keeps busy. -/
def busy (wid tau : ℕ) : LoadSummary := ⟨wid, [⟨tau, 1, 1⟩]⟩

theorem messages_acknowledged_once : ∃ m, run step [.doRebalance [busy 0 7] [1], .tryRebalance] start = some m ∧
    m.messages = [(1, .redirectFuture), (0, .redirectFuture)] ∧ m.messages.Perm m.coreHasMsgSent ∧
    ∀ l, Spaced l m → ∃ m', step l m = some m' := by
  have hrun : run step [.doRebalance [busy 0 7] [1], .tryRebalance] start = some _ := rfl
  have hspaced : Along step Spaced [.doRebalance [busy 0 7] [1], .tryRebalance] start := by
    refine ⟨trivial, fun x his hx hhis => ?_, trivial⟩
    cases hx
    cases hhis
    exact ⟨rfl, by decide⟩
  obtain ⟨hsame, -, hnext, -⟩ := messages_acknowledged hrun hspaced
  exact ⟨_, hrun, rfl, hsame, hnext⟩

/-- Two rounds, with their acknowledgements, and the start of a third: a thread goes to worker 1,
back to the master, and is to go to worker 1 again. -/
def backAndForth : List Label :=
  [.doRebalance [busy 0 7] [1], .tryRebalance, .ack 0, .ack 0, .doRebalance [busy 1 7] [0], .tryRebalance, .ack 0,
    .ack 0,
    .doRebalance [busy 0 7] [1]]

/-- The history of the thread names the master twice, and the second message to the master makes the
load manager throw. -/
theorem second_message_throws : ∃ m, run step backAndForth start = some m ∧ m.messages = [] ∧
    (step .tryRebalance m).isNone = true := by
  have hrun : (run step backAndForth start).map (fun m => (m.messages, (step .tryRebalance m).isNone)) = some
    ([], true) := by
    decide +kernel
  obtain ⟨m, hm, heq⟩ := Option.map_eq_some_iff.mp hrun
  obtain ⟨hmsgs, hnone⟩ := Prod.mk.inj heq
  exact ⟨m, hm, hmsgs, hnone⟩

end Ufs.Proof.LoadManager
