import Ufs.Impl.RoutingTables

/-!
# The routing tables and their inverses

A map from workers to sets of threads (`WidTaus`) is the inverse of a map of destinations when a
thread is in the set of a worker if and only if the worker is a destination of it. Every update of
the memoryless table keeps that. The tables for future requests and for creations keep it when no
worker is added that is there and the rounds of a thread increase.
-/

namespace Ufs.Proof.LoadManager

open Impl WidTaus
open Function (update update_of_ne update_self)

/-! ## Packing -/

theorem mask_high : ∀ i : Fin 32, (0xFFFFFFFF00000000#64).getLsbD (32 + i) = true := by decide

theorem mask_low : ∀ i : Fin 32, (0x00000000FFFFFFFF#64).getLsbD i = true := by decide

theorem dessembleOne64B_assembleTwo32B (pid tid : TaskId) : dessembleOne64B (assembleTwo32B pid.1 tid.1) =
    (pid.1, tid.1) := by
  unfold dessembleOne64B assembleTwo32B
  rw [BitVec.signExtend_eq_setWidth_of_msb_false pid.2, BitVec.signExtend_eq_setWidth_of_msb_false tid.2]
  refine Prod.ext (BitVec.eq_of_getLsbD_eq fun i hi => ?_) (BitVec.eq_of_getLsbD_eq fun i hi => ?_)
  · have hmask := mask_high ⟨i, hi⟩
    have htid := BitVec.getLsbD_of_ge tid.1 (32 + i) (by omega)
    dsimp only at hmask
    simp only [BitVec.getLsbD_setWidth, BitVec.getLsbD_ushiftRight, BitVec.getLsbD_and, hmask, BitVec.getLsbD_or,
      BitVec.getLsbD_shiftLeft, htid]
    simp [hi, show 32 + i < 64 by omega, show ¬ 32 + i < 32 by omega, show i < 64 by omega]
  · have hmask := mask_low ⟨i, hi⟩
    dsimp only at hmask
    simp only [BitVec.getLsbD_setWidth, BitVec.getLsbD_and, hmask, BitVec.getLsbD_or, BitVec.getLsbD_shiftLeft]
    simp [hi]
    omega

theorem assembleTwo32B_inj {p q : TaskId × TaskId} (h : assembleTwo32B p.1.1 p.2.1 = assembleTwo32B q.1.1 q.2.1) :
    p = q := by
  have heq := congrArg dessembleOne64B h
  rw [dessembleOne64B_assembleTwo32B, dessembleOne64B_assembleTwo32B, Prod.mk.injEq] at heq
  exact Prod.ext (Subtype.ext heq.1) (Subtype.ext heq.2)

/-! ## Sets of threads -/

section

variable {ω τ : Type} [DecidableEq ω] [DecidableEq τ] {m : WidTaus ω τ} {w v : ω} {tau x : τ}

theorem mem_taus_erase : x ∈ (m.erase tau w).taus v ↔ x ∈ m.taus v ∧ (v = w → x ≠ tau) := by
  unfold WidTaus.erase taus
  rcases eq_or_ne v w with rfl | hne
  · simp [and_comm]
  · simp [hne]

theorem mem_taus_emplace : x ∈ (m.emplace tau w).taus v ↔ x ∈ m.taus v ∨ v = w ∧ x = tau := by
  unfold WidTaus.emplace taus
  rcases eq_or_ne v w with rfl | hne
  · simp [or_comm]
  · simp [hne]

theorem mem_taus_foldl_erase (ws : List ω) : x ∈ (ws.foldl (WidTaus.erase tau) m).taus v ↔ x ∈ m.taus v ∧
    (v ∈ ws → x ≠ tau) := by
  induction ws generalizing m with
  | nil => simp
  | cons w ws ih =>
    rw [List.foldl_cons, ih, mem_taus_erase, List.mem_cons, or_imp, and_assoc]

theorem mem_taus_foldl_emplace (ws : List ω) : x ∈ (ws.foldl (WidTaus.emplace tau) m).taus v ↔ x ∈ m.taus v ∨
    v ∈ ws ∧ x = tau := by
  induction ws generalizing m with
  | nil => simp
  | cons w ws ih =>
    rw [List.foldl_cons, ih, mem_taus_emplace, List.mem_cons, or_and_right, or_assoc]

theorem mem_taus_move {dst : τ → Option ω} (h : ∀ w x, x ∈ m.taus w ↔ dst x = some w) (tau x : τ) (w v : ω) :
    x ∈ (((dst tau).elim m (m.erase tau)).emplace tau w).taus v ↔ update dst tau (some w) x = some v := by
  rw [mem_taus_emplace]
  rcases eq_or_ne x tau with rfl | hne
  · rw [update_self, Option.some.injEq]
    have hold : x ∉ ((dst x).elim m (m.erase x)).taus v := by
      cases hd : dst x with
      | none => simp [h, hd]
      | some y => simp [mem_taus_erase, h, hd, eq_comm]
    simp [hold, eq_comm]
  · rw [update_of_ne hne, ← h]
    cases dst tau with
    | none => simp [hne]
    | some y => simp [mem_taus_erase, hne]

end

/-! ## The memoryless table -/

section

variable {φ : Type} {t : LmMemLessRoutingTable φ}

open LmMemLessRoutingTable

/-- The sets are the inverse of the destination maps, and every thread has a number that was packed. -/
structure Routes (t : LmMemLessRoutingTable φ) : Prop where
  inverse : ∀ w x, x ∈ t.dstHandlingTaus.taus w ↔ ∃ dsts, t.srcRoutingMap x = some dsts ∧ w ∈ dsts
  packed : ∀ x dsts, t.srcRoutingMap x = some dsts → ∃ p : TaskId × TaskId, x = assembleTwo32B p.1.1 p.2.1

theorem Routes.updateItem (h : Routes t) (item : (TaskId × TaskId) × DstMap φ) : Routes (t.updateItem item) := by
  unfold LmMemLessRoutingTable.updateItem
  refine ⟨fun w x => ?_, fun x dsts hx => ?_⟩
  · dsimp only
    rw [mem_taus_foldl_emplace, mem_taus_foldl_erase, h.inverse]
    rcases eq_or_ne x (assembleTwo32B item.1.1.1 item.1.2.1) with rfl | hne
    · -- the old destinations of the thread are gone
      simp only [update_self, Option.some.injEq, exists_eq_left', and_true, AList.mem_keys, ne_eq, not_true_eq_false,
        imp_false, or_iff_right_iff_imp, and_imp]
      rintro ⟨dsts, hdsts, hw⟩ hold
      simp [hdsts, hw] at hold
    · simp [hne]
  · dsimp only at hx
    by_cases hne : x = assembleTwo32B item.1.1.1 item.1.2.1
    · exact ⟨item.1, hne⟩
    · rw [update_of_ne hne] at hx
      exact h.packed x dsts hx

theorem Routes.updateItems (h : Routes t) (items : RtItems φ) : Routes (t.updateItems items) := by
  have hfold : Routes (items.foldl LmMemLessRoutingTable.updateItem t) := by
    induction items generalizing t with
    | nil => exact h
    | cons item items ih => exact ih (h.updateItem item)
  refine ⟨fun w x => ?_, hfold.packed⟩
  refine Iff.trans ?_ (hfold.inverse w x)
  unfold LmMemLessRoutingTable.updateItems taus
  dsimp only
  cases (items.foldl LmMemLessRoutingTable.updateItem t).dstHandlingTaus w with
  | none => rfl
  | some xs => by_cases hempty : xs = ∅ <;> simp [Option.filter, hempty]

theorem routes_calls (calls : List (RtItems φ)) : Routes (calls.foldl updateItems init) := by
  have hinit : Routes (init : LmMemLessRoutingTable φ) := ⟨by simp [init, taus], by simp [init]⟩
  induction calls using List.reverseRecOn with
  | nil => exact hinit
  | append_singleton calls items ih =>
    rw [List.foldl_append]
    exact ih.updateItems items

/-- The map of the last item for a pair of tasks. -/
def lastMap (items : RtItems φ) (p : TaskId × TaskId) : Option (DstMap φ) := (items.reverse.find? (·.1 = p)).map (·.2)

theorem srcRoutingMap_updateItem (item : (TaskId × TaskId) × DstMap φ) : (t.updateItem item).srcRoutingMap =
    update t.srcRoutingMap (assembleTwo32B item.1.1.1 item.1.2.1) (some item.2) := rfl

theorem srcRoutingMap_updateItems (items : RtItems φ) (p : TaskId × TaskId) :
    (t.updateItems items).srcRoutingMap (assembleTwo32B p.1.1 p.2.1) =
      (lastMap items p).or (t.srcRoutingMap (assembleTwo32B p.1.1 p.2.1)) := by
  change (items.foldl LmMemLessRoutingTable.updateItem t).srcRoutingMap _ = _
  induction items using List.reverseRecOn with
  | nil => rfl
  | append_singleton items item ih =>
    rw [List.foldl_append, List.foldl_cons, List.foldl_nil, srcRoutingMap_updateItem]
    unfold lastMap at ih ⊢
    rw [List.reverse_append, List.reverse_singleton, List.singleton_append]
    by_cases hp : item.1 = p
    · subst hp
      simp
    · rw [update_of_ne fun he => hp (assembleTwo32B_inj he).symm, ih, List.find?_cons_of_neg (by simpa using hp)]

theorem srcRoutingMap_calls (calls : List (RtItems φ)) (p : TaskId × TaskId) :
    (calls.foldl updateItems init).srcRoutingMap (assembleTwo32B p.1.1 p.2.1) = lastMap calls.flatten p := by
  induction calls using List.reverseRecOn with
  | nil => rfl
  | append_singleton calls items ih =>
    rw [List.foldl_append, List.foldl_cons, List.foldl_nil, srcRoutingMap_updateItems, ih]
    unfold lastMap
    rw [List.flatten_append, List.reverse_append, List.find?_append]
    simp [Option.map_or]

/-- After any calls of `UpdateItems`: every thread has the destination map it was given last;
`GetWidHandling` adds the threads whose destination map has the worker, and no others; no set is
empty; and unpacking inverts packing. -/
theorem memless_table_agrees (calls : List (RtItems φ)) :
    (∀ p, (calls.foldl updateItems init).srcRoutingMap (assembleTwo32B p.1.1 p.2.1) = lastMap calls.flatten p) ∧
    (∀ w tids x, x ∈ (calls.foldl updateItems init).getWidHandling w tids ↔ x ∈ tids ∨
      ∃ p : TaskId × TaskId, x = (p.1.1, p.2.1) ∧ ∃ dsts, lastMap calls.flatten p = some dsts ∧ w ∈ dsts) ∧
    (∀ w, (calls.foldl updateItems init).dstHandlingTaus w ≠ some ∅) ∧
    ∀ pid tid : TaskId, dessembleOne64B (assembleTwo32B pid.1 tid.1) = (pid.1, tid.1) := by
  have h := routes_calls calls
  refine ⟨srcRoutingMap_calls calls, fun w tids x => ?_, fun w => ?_, dessembleOne64B_assembleTwo32B⟩
  · rw [getWidHandling, Finset.mem_union, Finset.mem_image]
    refine or_congr Iff.rfl ⟨?_, ?_⟩
    · rintro ⟨y, hy, rfl⟩
      obtain ⟨dsts, hdsts, hw⟩ := (h.inverse w y).mp hy
      obtain ⟨p, rfl⟩ := h.packed y dsts hdsts
      exact ⟨p, dessembleOne64B_assembleTwo32B .., dsts, by rw [← srcRoutingMap_calls, hdsts], hw⟩
    · rintro ⟨p, rfl, dsts, hdsts, hw⟩
      exact ⟨_, (h.inverse w _).mpr ⟨dsts, by rw [srcRoutingMap_calls, hdsts], hw⟩, dessembleOne64B_assembleTwo32B ..⟩
  · -- What the last call left was filtered.
    rcases List.eq_nil_or_concat calls with rfl | ⟨calls, items, rfl⟩
    · exact nofun
    · rw [List.concat_eq_append, List.foldl_append]
      exact fun he => by simpa using (Option.filter_eq_some_iff.mp he).2

end

/-! ## The tables for future requests and for creations -/

open RoutingTables

variable {t t' : RoutingTables} {l : RoutingTables.Label}

/-- A thread goes only to workers it was not sent to before, in a later round, and no worker is
added that has threads. -/
def Increasing : RoutingTables.Label → RoutingTables → Prop
  | .updateTauDstWid tau _ dst roundId, t => ∀ his, t.history tau = some his → ∀ x ∈ his, x.1 < roundId ∧ x.2 ≠ dst
  | .addWidFuture wid, t => t.futureWorkers.taus wid = ∅
  | .addWidCreation wid, t => t.creationWorkers.taus wid = ∅
  | _, _ => True

/-- Each table agrees with its inverse, and a history has no worker twice. -/
structure Consistent (t : RoutingTables) : Prop where
  future : ∀ w tau, tau ∈ t.futureWorkers.taus w ↔ t.getTauCurDstWid tau = some w
  creation : ∀ w tau, tau ∈ t.creationWorkers.taus w ↔ (t.creation tau).map Prod.fst = some w
  once : ∀ tau his, t.history tau = some his → (his.map Prod.snd).Nodup

theorem emplace_of_lt {his : DstHistory} {roundId dst : ℕ} (h : ∀ x ∈ his, x.1 < roundId) :
    his.emplace roundId dst = his ++ [(roundId, dst)] := by
  induction his with
  | nil => rfl
  | cons x his ih =>
    have hx := h x (List.mem_cons_self ..)
    rw [DstHistory.emplace, if_neg (by omega), if_neg (by omega), ih fun y hy => h y (List.mem_cons_of_mem _ hy)]
    rfl

theorem taus_addWid {m : WidTaus ℕ ℕ} {wid : ℕ} (h : m.taus wid = ∅) : (addWid m wid).taus = m.taus := by
  unfold addWid
  split
  · funext v
    rcases eq_or_ne v wid with rfl | hne
    · rw [h]
      simp [taus]
    · simp [taus, hne]
  · rfl

theorem getTauCurDstWid_update (m : WidTaus ℕ ℕ) (tau : ℕ) (his : DstHistory) :
    getTauCurDstWid { t with history := update t.history tau (some his), futureWorkers := m } =
      update t.getTauCurDstWid tau (his.getLast?.map (·.2)) := by
  funext x
  rcases eq_or_ne x tau with rfl | hne
  · simp [getTauCurDstWid]
  · simp [getTauCurDstWid, hne]

theorem Consistent.updateTauDstWid (h : Consistent t) {tau src dst roundId : ℕ}
    (hcare : Increasing (.updateTauDstWid tau src dst roundId) t)
      (hup : t.updateTauDstWid tau src dst roundId = (true, t')) :
    Consistent t' ∧ t'.getTauCurDstWid tau = some dst := by
  unfold RoutingTables.updateTauDstWid at hup
  split at hup
  · cases hup
  · next his hhis =>
    split at hup
    · next hsrc =>
      cases hup
      have hlast : his.emplace roundId dst = his ++ [(roundId, dst)] :=
        emplace_of_lt fun x hx => (hcare his hhis x hx).1
      have hcur : t.getTauCurDstWid tau = some src := by rw [getTauCurDstWid, hhis]; exact hsrc
      have hmove (w x : ℕ) := mem_taus_move h.future tau x dst w
      rw [hcur, Option.elim_some] at hmove
      refine ⟨⟨fun w x => ?_, h.creation, fun x his' hx => ?_⟩, by simp [getTauCurDstWid, hlast]⟩
      · rw [getTauCurDstWid_update, hlast, List.getLast?_concat]
        exact hmove w x
      · rcases eq_or_ne x tau with rfl | hne
        · cases (update_self ..).symm.trans hx
          rw [hlast, List.map_append, List.nodup_append]
          refine ⟨h.once x his hhis, List.nodup_singleton _, fun a ha b hb => ?_⟩
          obtain ⟨y, hy, rfl⟩ := List.mem_map.1 ha
          rw [List.mem_singleton.1 hb]
          exact (hcare his hhis y hy).2
        · exact h.once x his' ((update_of_ne hne ..).symm.trans hx)
    · cases hup

theorem Consistent.updateDstWid (h : Consistent t) (tau wid roundId : ℕ) :
    Consistent (t.updateDstWid tau wid roundId) := by
  refine ⟨h.future, fun w x => ?_, h.once⟩
  have hmove := mem_taus_move h.creation tau x wid w
  have hdst : (update t.creation tau (some (wid, roundId)) x).map Prod.fst =
      update (fun tau => (t.creation tau).map Prod.fst) tau (some wid) x := by
    rcases eq_or_ne x tau with rfl | hne
    · simp
    · simp [hne]
  unfold RoutingTables.updateDstWid
  dsimp only
  rw [hdst, ← hmove]
  cases t.creation tau <;> rfl

theorem Consistent.eraseWid (h : Consistent t) (wid : ℕ) : Consistent (t.eraseWid wid) := by
  refine ⟨h.future, fun w x => ?_, h.once⟩
  have hx := h.creation wid x
  have hw := h.creation w x
  unfold RoutingTables.eraseWid taus
  unfold taus at hx hw
  rcases eq_or_ne w wid with rfl | hne
  · simp_all
  · by_cases hin : (t.creation x).map Prod.fst = some wid
    · rw [hin] at hx hw
      simp [hne, hne.symm, hx, hw]
    · simp [hne, hx, hin, hw]

theorem Consistent.step (h : Consistent t) (hcare : Increasing l t) (hstep : RoutingTables.step l t = some t') :
    Consistent t' := by
  cases l with
  | initTauToMaster tau roundId =>
    obtain ⟨⟨-, hnew⟩, hstep⟩ := Option.ite_none_right_eq_some.1 hstep
    cases hstep
    refine ⟨fun w x => ?_, h.creation, fun x his hx => ?_⟩
    · have hmove := mem_taus_move h.future tau x masterWid w
      rw [getTauCurDstWid, hnew, Option.bind_none, Option.elim_none] at hmove
      have hcur := congrFun (getTauCurDstWid_update (t := t) t.futureWorkers tau
        [(KPLoadManager.roundBefore roundId, masterWid)]) x
      exact hmove.trans (Eq.congr_left hcur.symm)
    · rcases eq_or_ne x tau with rfl | hne
      · cases (update_self ..).symm.trans hx
        exact List.nodup_singleton _
      · exact h.once x his ((update_of_ne hne ..).symm.trans hx)
  | updateTauDstWid tau src dst roundId =>
    obtain ⟨-, hstep⟩ := Option.ite_none_right_eq_some.1 hstep
    cases hstep
    cases hup : t.updateTauDstWid tau src dst roundId with
    | mk ok t1 =>
      cases ok with
      | true =>
        obtain ⟨hfuture, hcreation, honce⟩ := (h.updateTauDstWid hcare hup).1
        exact ⟨hfuture, hcreation, honce⟩
      | false =>
        have heq : t1 = t := by
          unfold RoutingTables.updateTauDstWid at hup
          split at hup
          · cases hup; rfl
          · split at hup <;> cases hup
            rfl
        rw [heq]
        exact ⟨h.future, h.creation, h.once⟩
  | addWidFuture wid =>
    cases hstep
    exact ⟨fun w x => by rw [taus_addWid hcare]; exact h.future w x, h.creation, h.once⟩
  | addWidCreation wid =>
    cases hstep
    exact ⟨h.future, fun w x => by rw [taus_addWid hcare]; exact h.creation w x, h.once⟩
  | eraseWid wid =>
    cases hstep
    exact h.eraseWid wid
  | updateDstWid tau wid roundId =>
    obtain ⟨-, hstep⟩ := Option.ite_none_right_eq_some.1 hstep
    cases hstep
    obtain ⟨hfuture, hcreation, honce⟩ := h.updateDstWid tau wid roundId
    exact ⟨hfuture, hcreation, honce⟩

/-- In every run in which threads go to new workers in later rounds and no worker with threads is
added, the set of a worker in either table is that of the threads whose destination it is; an update
that succeeds sets the destination and leaves a history in which each worker is once; and
`GetActiveTausInDstWithinNumRound` does not throw. -/
theorem routing_tables_consistent {ls : List RoutingTables.Label}
    (hrun : run RoutingTables.step ls RoutingTables.init = some t)
    (hcare : Along RoutingTables.step Increasing ls RoutingTables.init) :
    (∀ w tau, tau ∈ t.futureWorkers.taus w ↔ t.getTauCurDstWid tau = some w) ∧
    (∀ w tau, tau ∈ t.creationWorkers.taus w ↔ (t.creation tau).map Prod.fst = some w) ∧
    (∀ tau src dst roundId t', Increasing (.updateTauDstWid tau src dst roundId) t →
      t.updateTauDstWid tau src dst roundId = (true, t') → t'.getTauCurDstWid tau = some dst ∧
        ∀ his, t'.history tau = some his → (his.map Prod.snd).Nodup) ∧
    ∀ w curRoundId numRound, t.getActiveTausInDstWithinNumRound w curRoundId numRound ≠ none := by
  have h : Consistent t := run_inv (P := Increasing) (I := Consistent) (fun _ _ _ hi hp hs => hi.step hp hs) hrun hcare
    ⟨by simp [RoutingTables.init, taus, getTauCurDstWid], by simp [RoutingTables.init, taus], by simp [RoutingTables.init]⟩
  refine ⟨h.future, h.creation, fun tau src dst roundId t' hinc hup => ?_, fun w curRoundId numRound => ?_⟩
  · have hnext := h.updateTauDstWid hinc hup
    exact ⟨hnext.2, hnext.1.once tau⟩
  · rw [getActiveTausInDstWithinNumRound, if_pos fun tau htau => (h.creation w tau).mp htau]
    exact Option.some_ne_none _

theorem routing_tables_consistent_moved : ∃ t, run RoutingTables.step [.initTauToMaster 7 5, .updateTauDstWid 7 0 1 5]
    RoutingTables.init = some t ∧ 7 ∈ t.futureWorkers.taus 1 := by
  have hrun : run RoutingTables.step [.initTauToMaster 7 5, .updateTauDstWid 7 0 1 5] RoutingTables.init = some _ := rfl
  refine ⟨_, rfl, ((routing_tables_consistent hrun ?_).1 1 7).mpr rfl⟩
  refine ⟨trivial, fun his hhis x hx => ?_, trivial⟩
  cases hhis
  rw [List.mem_singleton.mp hx]
  decide

/-- The thread is sent on to worker 2 in the same round: its destination is still worker 1, and it
is in the set of worker 2. -/
theorem second_update_of_round : ∃ t, run RoutingTables.step [.initTauToMaster 7 5, .updateTauDstWid 7 0 1 5,
      .updateTauDstWid 7 1 2 5] RoutingTables.init = some t ∧
    t.getTauCurDstWid 7 = some 1 ∧ 7 ∉ t.futureWorkers.taus 1 ∧ 7 ∈ t.futureWorkers.taus 2 :=
  ⟨_, rfl, by decide, by decide, by decide⟩

end Ufs.Proof.LoadManager
