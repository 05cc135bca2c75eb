import Ufs.Proof.Sync.Kept

/-!
# A failed sync

When an entry fails, its inodes are taken out of the sets of the worker as when it succeeds (`recordInoAppFsyncDone`,
`recordBatchInoAppFsyncDone`). So what was in their log entries is not committed, and no later syncall does it.
`sync_keeps_failure` is about the runs in which entries fail only when the log entries of their inodes are empty.
`sync_requests_in_one_place` is about all runs; a run ends where a request that was answered is
processed again.
-/

namespace Ufs.Proof.Sync

open Impl
open List Option

variable {k k' : SyncWorker} {r : ℕ} {q : SyncReq} {v : InodeView} {input : CallInput} {s s' : Syncs} {w : ℕ}
  {l : Syncs.Label}

/-- The change is committed, and the blocks it frees are freed. -/
def Stable (s : Syncs) (i : ℕ) (x : Change) : Prop :=
  x ∈ s.committed i ∧ (x.dealloc.isSome = true → x ∈ s.freed i)

/-- What a report of success stands for. For a syncall, these are the changes of the inodes that the worker has; for a
syncunlinked, those up to the unlink of an inode that the worker had when the request had its turn. -/
def Reported (s : Syncs) (w : ℕ) (c : Completion) : Prop :=
  (c.type = .syncall → ∀ i, s.location i = .worker w → ∀ x ∈ s.history i, x.id < s.marked i → Stable s i x) ∧
    ∀ cb, c.type = .syncunlinked cb → ∃ b, c.began = some b ∧ ∀ i, b.had i = true →
      ∀ d ∈ s.history i, d.dealloc.isSome = true → d.id < b.nextChange →
        ∀ x ∈ s.history i, x.id ≤ d.id → Stable s i x

theorem Kept.stable (h : Kept s) {i : ℕ} {x : Change} (hx : x ∈ s.committed i) : Stable s i x := ⟨hx, h.freed i x hx⟩

variable {c : Completion}

theorem Reported.of_fsync (h : c.type = .fsync) : Reported s w c := by
  refine ⟨fun ht => ?_, fun cb ht => ?_⟩
  · rw [h] at ht
    cases ht
  · rw [h] at ht
    cases ht

variable {new : List Completion}

theorem Kept.reported (h : Kept s) (hplaced : Placed [] (s.worker w))
    (hbatches : ∀ i ∈ failedInodes input.batches, s.logEntry i = [])
    (hgo : (s.worker w).goOn (s.view w) input = some k')
    (hnew : k'.completed = (s.worker w).completed ++ new) (hc : c ∈ new) (herr : c.hasError = false) :
      Reported s w c := by
  rcases hplaced.sound.goOn_cases hgo with ⟨rest, -, rfl⟩ | ⟨frame, p, rest, r, q, -, -, hq, hsound, -, ho⟩
  · have hsame : ({ s.worker w with calls := rest }.nextSyncunlinked).completed = (s.worker w).completed := by
      unfold SyncWorker.nextSyncunlinked
      split <;> rfl
    rw [hsame] at hnew
    rw [self_eq_append_right.1 hnew] at hc
    exact absurd hc not_mem_nil
  · obtain ⟨new', hnew', hall⟩ := ho.completes (hsound.typed r q hq)
    rw [append_cancel_left (hnew.symm.trans hnew')] at hc
    obtain ⟨-, hsyncall, hsyncunlinked⟩ := hall c hc
    refine ⟨fun ht i hloc x hx hm => ?_, fun cb ht => ?_⟩
    · rcases hsyncall ht with herr' | ⟨-, hdirty⟩
      · rw [herr] at herr'
        cases herr'
      · refine h.stable ((h.history i x hx).resolve_right fun hlog => ?_)
        have hin := h.dirty w i hloc ⟨x, hlog, hm⟩
        rw [show (s.worker w).dirtyInodeSet = ∅ from hdirty] at hin
        exact absurd hin (Finset.notMem_empty i)
    · rcases hsyncunlinked cb ht with ⟨hb, hstate⟩ | ⟨hb, hcover⟩
      · obtain ⟨b, hbegan⟩ := isSome_iff_exists.1 (h.turned w r q hq (.inr hstate))
        refine ⟨b, hb.trans hbegan, fun i hi d hd hsome hlt x hx hle => h.stable ?_⟩
        have hof : beganOf (s.worker w) r = some b := by
          rw [beganOf, hq, bind_some, hbegan]
        rcases (h.began w r b hof).2 i hi with hfreed | ⟨e, he, hr, -⟩
        · exact hfreed d hd hsome hlt x hx hle
        · exact absurd (hr ▸ List.mem_map_of_mem he) (hsound.held_entry hq)
      · refine ⟨_, hb, fun i hi d hd hsome hlt x hx hle => h.stable ?_⟩
        have hloc : s.location i = .worker w := (view_has ..).1 hi
        have hfreed (b : Began) : FreedSince s b i := by
          by_cases hin : i ∈ (s.worker w).unlinkedInodeSet
          · exact FreedSince.of_empty h (hbatches i (hcover i hin))
          · exact h.freedSince hloc hin
        exact hfreed _ d hd hsome hlt x hx hle

theorem WorkerStep.completed (hs : WorkerStep v k none k') (h : Placed [] k) :
    ∃ new, k'.completed = k.completed ++ new ∧ ∀ c ∈ new, c.type = .fsync := by
  have hsame (hc : k'.completed = k.completed) : ∃ new, k'.completed = k.completed ++ new ∧ ∀ c ∈ new,
    c.type = .fsync :=
    ⟨[], by rw [hc, append_nil], nofun⟩
  cases hs with
  | accept client stale ha =>
    refine hsame ?_
    unfold SyncWorker.accept at ha
    cases client with
    | fsync ino =>
      dsimp only at ha
      split at ha
      · cases ha
        rfl
      · cases ha
    | syncall | syncunlinked =>
      cases ha
      rfl
  | ready hr =>
    refine hsame ?_
    unfold SyncWorker.ready at hr
    split at hr
    · cases hr
    · cases hr
      rfl
  | serialize => exact hsame rfl
  | flushDone r hf =>
    refine hsame ?_
    unfold SyncWorker.flushDone at hf
    split at hf
    · obtain ⟨q, -, rfl⟩ := map_eq_some_iff.1 hf
      rfl
    · cases hf
  | readDone read hr =>
    refine hsame ?_
    unfold SyncWorker.readDone at hr
    split at hr
    · cases hr
      rfl
    · cases hr
  | callback j e success hj hcb =>
    obtain ⟨q, hq, hb⟩ := h.sound.live e (mem_of_getElem? hj)
    have hfsync (hbatched : e.batched = false) (q1 : SyncReq) (hq1 : k.req e.req = some q1) :
      q1.type = .fsync ∨ q1.type = .syncall := by
      cases hq.symm.trans hq1
      have hpos : 0 < (k.entries.map SyncEntry.req).count e.req :=
        count_pos_iff.2 (List.mem_map_of_mem (mem_of_getElem? hj))
      rw [h.sound.entries _ q hq] at hpos
      refine type_of_fsync (.inr (.inr (.inr ?_))) (h.sound.typed _ q hq)
      unfold pending at hpos
      split at hpos
      · assumption
      · next hs =>
        rw [hb.2 hs] at hbatched
        cases hbatched
      · exact absurd hpos (Nat.lt_irrefl 0)
    obtain ⟨new, hnew, hall⟩ := callback_completed hcb hfsync
    exact ⟨new, hnew, fun c hc => (hall c hc).2⟩

theorem Kept.step_reported (h : Kept s) (ho : Ordered s) (hcare : Careful l s) (hstep : Syncs.step l s = some s')
    (hnew : (s'.worker w).completed = (s.worker w).completed ++ new)
    (hc : c ∈ new) (herr : c.hasError = false) : Reported s' w c := by
  have hact := act_of_step hstep
  obtain ⟨hother, hcases⟩ := act_cases hact
  have hfsync (new' : List Completion) (hnew' : (s'.worker w).completed = (s.worker w).completed ++ new')
      (hall : ∀ c ∈ new', c.type = .fsync) : Reported s' w c := by
    rw [append_cancel_left (hnew.symm.trans hnew')] at hc
    exact .of_fsync (hall c hc)
  rcases eq_or_ne w l.wid with rfl | hne
  · rcases hcases with ⟨-, d, u, hsets⟩ | ⟨-, -, hworker⟩
    · exact hfsync [] (by rw [hsets, append_nil]) nofun
    · cases l with
      | goOn w input =>
        obtain ⟨k', hk', rfl⟩ := map_eq_some_iff.1 hact
        rw [show Syncs.Label.wid (.goOn w input) = w from rfl, setWorker_self] at hnew
        exact h.reported (ho.placed w) hcare.2 hk' hnew hc herr
      | _ =>
        obtain ⟨new', hnew', hall⟩ := WorkerStep.completed hworker (ho.placed _)
        exact hfsync new' hnew' hall
  · exact hfsync [] (by rw [hother w hne, append_nil]) nofun

theorem kept_init : Kept Syncs.init := by
  refine ⟨fun i c hc => absurd hc not_mem_nil, fun i c hc => ?_, fun i c d hc => absurd hc not_mem_nil,
    fun w e b i he => absurd he not_mem_nil, fun i c hc => absurd hc not_mem_nil, fun i _ => rfl,
    fun i => Nat.le_refl 0, fun w i hloc => ?_, fun w i hloc => ?_, fun i d u hloc => ?_, fun w r b hb => ?_,
    fun w e q he => absurd he not_mem_nil, fun w r q hq => ?_⟩
  · rcases hc with hc | hc <;> exact absurd hc not_mem_nil
  · cases hloc
  · cases hloc
  · cases hloc
  · cases hb
  · cases hq

/-! ## Runs -/

variable {ls : List Syncs.Label}

theorem kept_of_run (hrun : run Syncs.step ls Syncs.init = some s)
    (hcare : Along Syncs.step Careful ls Syncs.init) : Kept s ∧ Ordered s :=
  run_inv (P := Careful) (I := fun s => Kept s ∧ Ordered s)
    (fun _ _ _ hi hp hs => ⟨hi.1.step hi.2 hp hs, hi.2.step hs⟩) hrun hcare ⟨kept_init, ordered_init⟩

theorem fail_sets {j : ℕ} {e : SyncEntry} (hj : (s.worker w).entries[j]? = some e)
    (hstep : Syncs.step (.fail w j) s = some s') (htarget : e.batched = false →
      ∀ q, (s.worker w).req e.req = some q → e.inodes = [q.fileIno]) {i : ℕ} (hi : i ∈ e.inodes) :
    s'.logEntry i = s.logEntry i ∧ i ∉ (s'.worker w).dirtyInodeSet ∧ i ∉ (s'.worker w).unlinkedInodeSet := by
  obtain ⟨e', hj', hstep⟩ := bind_eq_some_iff.1 (act_of_step hstep)
  cases hj.symm.trans hj'
  obtain ⟨k', hk', rfl⟩ := map_eq_some_iff.1 hstep
  obtain ⟨inodes, hd, hu, -, hbatched, hsingle⟩ := callback_sets hk'
  have hin : i ∈ inodes.toFinset := by
    rw [List.mem_toFinset]
    cases hb : e.batched with
    | true => rwa [hbatched hb]
    | false =>
      obtain ⟨q, hq, rfl⟩ := hsingle hb
      rwa [← htarget hb q hq]
  rw [setWorker_self]
  refine ⟨rfl, ?_, ?_⟩
  · rw [hd, Finset.mem_sdiff]
    exact fun h => h.2 hin
  · rw [hu, Finset.mem_sdiff]
    exact fun h => h.2 hin

/-- In every run in which entries fail only when the log entries of their inodes are empty, no change is logged while an
entry of the inode is being written, and inodes are unlinked by the worker that has them: an inode with a marked change
that is not committed is in the dirty set of its worker, one that was unlinked in the unlinked set, or the flags of
its export say so; what a syncall or a syncunlinked reports as a success is one; and an inode whose entry fails, with
changes in its log entry, stays in the sets if and only if there are none. -/
theorem sync_keeps_failure {ls : List Syncs.Label} (hrun : run Syncs.step ls Syncs.init = some s)
    (hcare : Along Syncs.step Careful ls Syncs.init) : (∀ w i, s.location i = .worker w →
      (Unsynced s i → i ∈ (s.worker w).dirtyInodeSet) ∧
      (Unfreed s i → i ∈ (s.worker w).unlinkedInodeSet)) ∧
    (∀ i d u, s.location i = .exported d u → (Unsynced s i → d = true) ∧ (Unfreed s i → u = true)) ∧
    (∀ l s' w new, Careful l s → Syncs.step l s = some s' →
      (s'.worker w).completed = (s.worker w).completed ++ new → ∀ c ∈ new, c.hasError = false → Reported s' w c) ∧
    ∀ w j e s', (s.worker w).entries[j]? = some e → Syncs.step (.fail w j) s = some s' →
      ((∀ i ∈ e.inodes, s'.logEntry i ≠ [] → i ∈ (s'.worker w).dirtyInodeSet ∧
        (i ∈ (s.worker w).unlinkedInodeSet → i ∈ (s'.worker w).unlinkedInodeSet)) ↔ ∀ i ∈ e.inodes,
          s.logEntry i = []) := by
  obtain ⟨h, ho⟩ := kept_of_run hrun hcare
  refine ⟨fun w i hloc => ⟨h.dirty w i hloc, h.unlinked w i hloc⟩, h.exported, fun l s' w new hl hstep hnew c hc herr =>
    h.step_reported ho hl hstep hnew hc herr, fun w j e s' hj hstep => ?_⟩
  have hfail {i : ℕ} (hi : i ∈ e.inodes) := fail_sets hj hstep
    (fun hb q => h.target w e q (List.mem_of_getElem? hj) hb) hi
  constructor
  · intro hkept i hi
    by_contra hne
    exact (hfail hi).2.1 (hkept i hi (by rw [(hfail hi).1]; exact hne)).1
  · intro hempty i hi hne
    rw [(hfail hi).1] at hne
    exact absurd (hempty i hi) hne

/-- A call that waits for nothing. -/
def plainCall : CallInput := ⟨0, [], false, .notNeeded, 0⟩

/-- A run with two fsyncs of an inode at the same time. The entry of the second one fails after that of the first has
succeeded, and a syncall is accepted. -/
def failsEmpty : List Syncs.Label :=
  [.load 0 5, .log 0 5, .writeFileInode 0 5, .accept 0 (.fsync 5) 0, .goOn 0 plainCall, .accept 0 (.fsync 5) 0,
    .goOn 0 plainCall, .serialize 0 0, .serialize 0 1, .succeed 0 0, .fail 0 0, .accept 0 .syncall 0]

/-- The syncall that comes after the failure reports success, and the change is committed. -/
theorem sync_keeps_failure_empty : ∃ s s' c, run Syncs.step failsEmpty Syncs.init = some s ∧
    Syncs.step (.goOn 0 plainCall) s = some s' ∧ (s'.worker 0).completed = (s.worker 0).completed ++ [c] ∧
    c.type = .syncall ∧ c.hasError = false ∧ ⟨0, none⟩ ∈ s'.history 5 ∧ Stable s' 5 ⟨0, none⟩ := by
  obtain ⟨s, hrun, s', c, hstep, hnew, ht, herr, hloc, hhist, hmark⟩ :
    ∃ s, run Syncs.step failsEmpty Syncs.init = some s ∧
      ∃ s' c, Syncs.step (.goOn 0 plainCall) s = some s' ∧
        (s'.worker 0).completed = (s.worker 0).completed ++ [c] ∧ c.type = .syncall ∧ c.hasError = false ∧
        s'.location 5 = .worker 0 ∧ s'.history 5 = [⟨0, none⟩] ∧ s'.marked 5 = 1 :=
    ⟨_, rfl, _, _, rfl, rfl, rfl, rfl, rfl, rfl, rfl⟩
  have hcare : Along Syncs.step Careful failsEmpty Syncs.init := by
    refine ⟨trivial, ⟨?_, trivial, trivial, ⟨rfl, fun i hi => absurd hi not_mem_nil⟩, trivial,
      ⟨rfl, fun i hi => absurd hi not_mem_nil⟩, trivial, trivial, trivial, ?_, trivial, trivial⟩⟩
    · rintro ⟨w, e, he, -⟩
      exact absurd he not_mem_nil
    · intro e he i hi
      cases he
      rw [List.mem_singleton.mp hi]
      rfl
  obtain ⟨-, -, hreport, -⟩ := sync_keeps_failure hrun hcare
  have hmem : (⟨0, none⟩ : Change) ∈ s'.history 5 := by rw [hhist]; exact List.mem_singleton_self _
  have hcare' : Careful (.goOn 0 plainCall) s := ⟨rfl, fun i hi => absurd hi not_mem_nil⟩
  have hc := hreport _ s' 0 [c] hcare' hstep hnew c (List.mem_singleton_self c) herr
  exact ⟨s, s', c, hrun, hstep, hnew, ht, herr, hmem, hc.1 ht 5 hloc _ hmem (by rw [hmark]; decide)⟩

/-- The change of inode 5 gets lost: the entry of its fsync fails, and then a syncall reports success. -/
theorem sync_forgets_failure : ∃ s, run Syncs.step [.load 0 5, .log 0 5, .writeFileInode 0 5, .accept 0 (.fsync 5) 0,
      .goOn 0 plainCall, .fail 0 0, .accept 0 .syncall 0, .goOn 0 plainCall] Syncs.init = some s ∧
    s.location 5 = .worker 0 ∧ s.logEntry 5 = [⟨0, none⟩] ∧ s.marked 5 = 1 ∧ 5 ∉ (s.worker 0).dirtyInodeSet ∧
    s.committed 5 = [] ∧ (s.worker 0).completed.map (fun c => (c.type, c.hasError)) =
      [(.fsync, true), (.syncall, false)] :=
  ⟨_, rfl, rfl, rfl, rfl, by decide, rfl, rfl⟩

/-- In every run, with any failures of the journal and any order of the completions, up to where a
request that was answered is processed again: a request of a worker is in one place, which goes with
its state, or in the journal's hands, with as many entries as it waits for. A syncall that waits has
one syncunlinked that it waits for. -/
theorem sync_requests_in_one_place (hrun : run Syncs.step ls Syncs.init = some s) (w : ℕ) :
    (∀ r q, (s.worker w).req r = some q → ((tokens (s.worker w)).map Prod.snd).count r + inJournal q.state = 1 ∧
      (∀ p, (p, r) ∈ tokens (s.worker w) → Allowed p q.state) ∧
        ((s.worker w).entries.map SyncEntry.req).count r = pending q) ∧
    ∀ p ∈ (s.worker w).localReqCtxs, ∃! c, typeOf (s.worker w) c = some (.syncunlinked (some p)) := by
  have h : Ordered s := run_inv' (fun _ _ _ h hs => h.step hs) hrun ordered_init
  obtain ⟨hsound, hchildren⟩ := h.placed w
  refine ⟨fun r q hq => ⟨?_, fun p hp => hsound.allowed p r q hp hq, hsound.entries r q hq⟩, fun p hp => ?_⟩
  · simpa using hsound.once r q hq
  · obtain ⟨c, hc⟩ := hchildren.child p hp
    exact ⟨c, hc, fun c' hc' => hchildren.unique c' c p hc' hc⟩

/-- A syncall that comes after a failure. -/
theorem sync_requests_in_one_place_syncall : ∃ s q, run Syncs.step failsEmpty Syncs.init = some s ∧
    (s.worker 0).req 2 = some q ∧
    ((tokens (s.worker 0)).map Prod.snd).count 2 + inJournal q.state = 1 := by
  obtain ⟨s, q, hrun, hq⟩ : ∃ s q, run Syncs.step failsEmpty Syncs.init = some s ∧ (s.worker 0).req 2 = some q :=
    ⟨_, _, rfl, rfl⟩
  exact ⟨s, q, hrun, hq, ((sync_requests_in_one_place hrun 0).1 2 q hq).1⟩

end Ufs.Proof.Sync
