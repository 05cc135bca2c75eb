import Ufs.Framework.Run
import Ufs.Proof.Sync.Places

/-!
# Changes are not forgotten

`Kept` says that a change of an inode is committed or still in its log entry, and that an inode whose log entry has a
marked change is dirty on the worker that has it, and unlinked there if the change frees its blocks.
-/

namespace Ufs.Proof.Sync

open Impl
open Function (update update_of_ne update_self update_idem)
open SyncWorker (IsFsyncState)
open List Option

variable {held : List ℕ} {k k' : SyncWorker} {r : ℕ} {q q' : SyncReq} {p : Place} {v : InodeView} {input : CallInput}

/-! ## When a syncunlinked had its turn -/

/-- What a request saw when it began. -/
def beganOf (k : SyncWorker) (r : ℕ) : Option Began := (k.req r).bind SyncReq.began

theorem beganOf_update {x : Option SyncReq} (hreq : k'.req = update k.req r x) :
    beganOf k' = update (beganOf k) r (x.bind SyncReq.began) := by
  funext r'
  unfold beganOf
  rw [hreq]
  rcases eq_or_ne r' r with rfl | hne
  · rw [update_self, update_self]
  · rw [update_of_ne hne, update_of_ne hne]

theorem beganOf_of_update {x : Option SyncReq} (hq : k.req r = some q) (hreq : k'.req = update k.req r x)
    (hx : ∀ q', x = some q' → q'.began = q.began) {r' : ℕ} {b : Began} (h : beganOf k' r' = some b) :
      beganOf k r' = some b := by
  rw [beganOf_update hreq] at h
  rcases eq_or_ne r' r with rfl | hne
  · rw [update_self] at h
    obtain ⟨q', rfl, hb⟩ := bind_eq_some_iff.1 h
    rw [beganOf, hq, bind_some, ← hx q' rfl]
    exact hb
  · rwa [update_of_ne hne] at h

theorem syncallComplete_req (k : SyncWorker) (r : ℕ) (q : SyncReq) :
    (k.syncallComplete r q).req = update k.req r none := by
  unfold SyncWorker.syncallComplete
  dsimp only
  split <;> rfl

theorem fdataSynced_req (k : SyncWorker) (r : ℕ) (q : SyncReq) (success : Bool) :
    ∃ x : Option SyncReq, (fdataSynced k r q success).req = update k.req r x ∧ ∀ q', x = some q' →
      q'.began = q.began := by
  unfold Sync.fdataSynced
  dsimp only
  split
  · exact ⟨_, rfl, fun q' hq' => by cases hq'; rfl⟩
  · exact ⟨none, rfl, fun q' hq' => by cases hq'⟩

theorem syncBatchesComplete_began (h : k.syncBatchesComplete r q = some k') {r' : ℕ} {b : Began}
    (hb : beganOf k' r' = some b) : r' ≠ r ∧ beganOf k r' = some b := by
  unfold SyncWorker.syncBatchesComplete at h
  dsimp only at h
  have hdrop (k₁ : SyncWorker) (hb : beganOf { k₁ with req := update k₁.req r none } r' = some b) :
    r' ≠ r ∧ beganOf k₁ r' = some b := by
    rw [beganOf_update (k := k₁) (r := r) (x := none) rfl] at hb
    rcases eq_or_ne r' r with rfl | hne
    · rw [update_self] at hb
      cases hb
    · rw [update_of_ne hne] at hb
      exact ⟨hne, hb⟩
  split at h
  · next syncallReq ht =>
    obtain ⟨pq, hpq, rfl⟩ := map_eq_some_iff.1 h
    split at hb
    · obtain ⟨hne, hb⟩ := hdrop ((k.call .onFsReqCompletion).setReq syncallReq { pq with state := .syncallErr }) hb
      exact ⟨hne, beganOf_of_update (k := k.call .onFsReqCompletion) hpq rfl (fun q' hq' => by cases hq'; rfl) hb⟩
    · exact hdrop (k.call .onFsReqCompletion) hb
  · rw [← Option.some.inj h] at hb
    exact hdrop (k.call .onFsReqCompletion) hb

variable {i : ℕ}

theorem Batched.covers (h : Batched v input k r q k') (hi : i ∈ k.unlinkedInodeSet) :
    i ∈ failedInodes input.batches ∨ ∃ e ∈ queuedEntries r input.batches, e.req = r ∧ i ∈ e.inodes := by
  rw [← h.divides.2.1, List.mem_toFinset, mem_flatten] at hi
  obtain ⟨inodes, hin, hi⟩ := hi
  obtain ⟨batch, hbatch, rfl⟩ := List.mem_map.1 hin
  cases hb : batch.2 with
  | true => exact .inl (mem_flatMap.2 ⟨batch, mem_filter.2 ⟨hbatch, hb⟩, hi⟩)
  | false =>
    refine .inr ⟨_, List.mem_map.2 ⟨batch, mem_filter.2 ⟨hbatch, ?_⟩, rfl⟩, rfl, hi⟩
    rw [hb]
    rfl

/-- What a call submits: entries with no body, and when it does so for a syncunlinked then for all unlinked inodes but
those of the batches that fail. -/
def Submits (v : InodeView) (input : CallInput) (k : SyncWorker) (r : ℕ) (q : SyncReq) (k' : SyncWorker)
    (es : List SyncEntry) : Prop :=
  k'.entries = k.entries ++ es ∧ (∀ e ∈ es, e.body = none ∧ (e.batched = false → e.req = r ∧ e.inodes = [q.fileIno] ∧
    ∀ q', k'.req r = some q' → q'.fileIno = q.fileIno)) ∧
  ∀ r' b, beganOf k' r' = some b → beganOf k r' = some b ∨ b = ⟨v.nextChange, v.has⟩ ∧
    ∀ i ∈ k.unlinkedInodeSet, i ∈ failedInodes input.batches ∨ ∃ e ∈ es, e.req = r' ∧ i ∈ e.inodes

theorem Outcome.submits (hnone : k.req k.nextReq = none) (hq : k.req r = some q) (ho : Outcome v input k r q k') :
    ∃ es, Submits v input k r q k' es := by
  have hsame (hentries : k'.entries = k.entries) (hbegan : ∀ r' b, beganOf k' r' = some b → beganOf k r' = some b) :
      ∃ es, Submits v input k r q k' es :=
    ⟨[], by rw [hentries, append_nil], nofun, fun r' b hb => .inl (hbegan r' b hb)⟩
  have hset {q' : SyncReq} (hreq : k'.req = update k.req r (some q')) (hb : q'.began = q.began) :
      ∀ r' b, beganOf k' r' = some b → beganOf k r' = some b := fun r' b =>
    beganOf_of_update hq hreq fun q1 hq1 => by cases hq1; exact hb
  cases ho with
  | again | waitsSyncall | waitsSyncunlinked => exact hsame rfl fun r' b hb => hb
  | flushed | reads | picks | lost => exact hsame rfl (hset rfl rfl)
  | journals hsyncing hlog =>
    refine ⟨_, rfl, fun e he => ?_, fun r' b hb => .inl (hset rfl rfl r' b hb)⟩
    cases mem_singleton.1 he
    refine ⟨rfl, fun _ => ⟨rfl, rfl, fun q' hq' => ?_⟩⟩
    cases (update_self ..).symm.trans hq'
    rfl
  | @synced active success hsyncing hsuccess hhas =>
    obtain ⟨x, hx, hbegan⟩ := fdataSynced_req (setActive k active) r q success
    exact hsame (fdataSynced_sets ..).2.2 fun r' b => beganOf_of_update hq hx hbegan
  | before hstarts hunlinked =>
    refine hsame rfl fun r' b hb => ?_
    have hne : k.nextReq ≠ r := fun heq => by rw [heq, hq] at hnone; cases hnone
    rw [beganOf_update (k := k.setReq r { q with state := .syncallInit }) (r := k.nextReq)
      (x := some (startedReq r input.stale)) rfl] at hb
    rcases eq_or_ne r' k.nextReq with rfl | hne
    · rw [update_self] at hb
      cases hb
    · rw [update_of_ne hne] at hb
      exact beganOf_of_update hq rfl (fun q1 hq1 => by cases hq1; rfl) hb
  | syncallDone | syncallErr =>
    exact hsame (syncallComplete_sets ..).2.2 fun r' b =>
      beganOf_of_update hq (syncallComplete_req ..) nofun
  | batched hbatched hqueued =>
    obtain ⟨active, hk', -⟩ := hbatched.eq
    refine ⟨queuedEntries r input.batches, by rw [hk']; rfl, fun e he => ?_, fun r' b hb => ?_⟩
    · obtain ⟨batch, -, rfl⟩ := List.mem_map.1 he
      exact ⟨rfl, nofun⟩
    · rw [hk', beganOf_update (k := k) (r := r) rfl] at hb
      rcases eq_or_ne r' r with rfl | hne
      · rw [update_self] at hb
        cases hb
        exact .inr ⟨rfl, fun i hi => hbatched.covers hi⟩
      · rw [update_of_ne hne] at hb
        exact .inl hb
  | syncunlinkedDone hcompletes hdone =>
    obtain ⟨-, hreq, -, hentries, -⟩ := hcompletes.keeps hq
    refine hsame ((syncBatchesComplete_sets hdone).2.2.trans hentries) fun r' b hb => ?_
    obtain ⟨hne, hb⟩ := syncBatchesComplete_began hdone hb
    rwa [beganOf_update hreq, update_of_ne hne] at hb

/-- A syncunlinked that has had its turn has it recorded when. -/
def Turned (q : SyncReq) : Prop :=
  q.state = .syncBatchesInprogress ∨ q.state = .syncBatchesComplete → q.began.isSome = true

theorem Outcome.turned (ho : Outcome v input k r q k') (hq : k.req r = some q)
    (h : ∀ r' q', k.req r' = some q' → Turned q') {r' : ℕ} (hq' : k'.req r' = some q') : Turned q' := by
  have hset {x : Option SyncReq} (hreq : k'.req = update k.req r x) (hx : ∀ q₁, x = some q₁ → Turned q₁) :
    Turned q' := by
    rw [hreq] at hq'
    rcases of_update hq' with ⟨-, hx'⟩ | ⟨-, hq'⟩
    · exact hx q' hx'
    · exact h r' q' hq'
  cases ho with
  | again | waitsSyncall | waitsSyncunlinked => exact h r' q' hq'
  | flushed | reads | journals | picks | lost =>
    refine hset rfl fun q₁ hq₁ => ?_
    cases hq₁
    exact fun hs => by rcases hs with hs | hs <;> cases hs
  | @synced active success hsyncing hsuccess hhas =>
    unfold Sync.fdataSynced at hset
    dsimp only at hset
    split at hset
    · refine hset rfl fun q₁ hq₁ => ?_
      cases hq₁
      cases success
      · exact fun hs => by rcases hs with hs | hs <;> cases hs
      · exact fun hs => by rcases hs with hs | hs <;> cases hs
    · exact hset rfl fun q₁ hq₁ => by cases hq₁
  | before =>
    rcases of_update (f := update k.req r (some { q with state := .syncallInit })) (r := k.nextReq)
      (x := some (startedReq r input.stale)) hq' with ⟨-, hx⟩ | ⟨-, hq'⟩
    · cases hx
      exact fun hs => by rcases hs with hs | hs <;> cases hs
    · rcases of_update hq' with ⟨-, hx⟩ | ⟨-, hq'⟩
      · cases hx
        exact fun hs => by rcases hs with hs | hs <;> cases hs
      · exact h r' q' hq'
  | syncallDone | syncallErr => exact hset (syncallComplete_req ..) fun q₁ hq₁ => by cases hq₁
  | batched hbatched hqueued =>
    obtain ⟨active, rfl, -⟩ := hbatched.eq
    refine hset rfl fun q₁ hq₁ => ?_
    cases hq₁
    exact fun _ => rfl
  | @syncunlinkedDone k₁ k' q₁ hcompletes hdone =>
    obtain ⟨-, hreq, -⟩ := hcompletes.keeps hq
    have hdrop {f : ℕ → Option SyncReq} (hf : update f r none r' = some q') : r' ≠ r ∧ f r' = some q' := by
      rcases of_update hf with ⟨-, hx⟩ | hf
      · cases hx
      · exact hf
    have hold (hne : r' ≠ r) (hk₁ : k₁.req r' = some q') : Turned q' := by
      rw [hreq, update_of_ne hne] at hk₁
      exact h r' q' hk₁
    unfold SyncWorker.syncBatchesComplete at hdone
    dsimp only at hdone
    split at hdone
    · next syncallReq ht =>
      obtain ⟨pq, hpq, rfl⟩ := map_eq_some_iff.1 hdone
      split at hq'
      · obtain ⟨hne, hq'⟩ := hdrop hq'
        rcases of_update hq' with ⟨-, hx⟩ | ⟨-, hq'⟩
        · cases hx
          exact fun hs => by rcases hs with hs | hs <;> cases hs
        · exact hold hne hq'
      · obtain ⟨hne, hq'⟩ := hdrop hq'
        exact hold hne hq'
    · rw [← Option.some.inj hdone] at hq'
      obtain ⟨hne, hq'⟩ := hdrop hq'
      exact hold hne hq'

/-! ## Completions -/

theorem syncallComplete_completed (k : SyncWorker) (r : ℕ) (q : SyncReq) :
    (k.syncallComplete r q).completed = k.completed ++ [⟨r, q.type, q.hasError, q.began⟩] := by
  unfold SyncWorker.syncallComplete
  dsimp only
  split <;> rfl

theorem fdataSynced_completed (k : SyncWorker) (r : ℕ) {q : SyncReq} (hfsync : q.type = .fsync ∨ q.type = .syncall)
    (success : Bool) : ∃ new, (fdataSynced k r q success).completed = k.completed ++ new ∧ ∀ c ∈ new, c.req = r ∧
      c.type = .fsync := by
  unfold Sync.fdataSynced
  dsimp only
  split
  · exact ⟨[], (append_nil _).symm, nofun⟩
  · next ht =>
    refine ⟨_, rfl, fun c hc => ?_⟩
    cases mem_singleton.1 hc
    exact ⟨rfl, hfsync.resolve_right ht⟩

theorem syncBatchesComplete_completed (h : k.syncBatchesComplete r q = some k') :
    ∃ new, k'.completed = k.completed ++ new ∧ ∀ c ∈ new, c.req = r ∧ c.type = q.type ∧ c.began = q.began := by
  unfold SyncWorker.syncBatchesComplete at h
  dsimp only at h
  split at h
  · obtain ⟨pq, -, rfl⟩ := map_eq_some_iff.1 h
    refine ⟨[], ?_, nofun⟩
    split <;> exact (append_nil _).symm
  · cases h
    refine ⟨_, rfl, fun c hc => ?_⟩
    cases mem_singleton.1 hc
    exact ⟨rfl, rfl, rfl⟩

/-- What the completions that a call reports say of the inodes: after a syncall without an error there are no dirty and
no unlinked ones; a syncunlinked was complete, or all unlinked inodes are in batches that failed. -/
def Reports (v : InodeView) (input : CallInput) (k : SyncWorker) (r : ℕ) (q : SyncReq) (k' : SyncWorker)
    (new : List Completion) : Prop :=
  k'.completed = k.completed ++ new ∧ ∀ c ∈ new, c.req = r ∧
    (c.type = .syncall → c.hasError = true ∨ k.unlinkedInodeSet = ∅ ∧ k.dirtyInodeSet = ∅) ∧
    (∀ cb, c.type = .syncunlinked cb → c.began = q.began ∧ q.state = .syncBatchesComplete ∨
      c.began = some ⟨v.nextChange, v.has⟩ ∧ ∀ i ∈ k.unlinkedInodeSet, i ∈ failedInodes input.batches)

theorem Outcome.completes (ho : Outcome v input k r q k') (htyped : Typed q.type q.state) :
    ∃ new, Reports v input k r q k' new := by
  have hsame (hc : k'.completed = k.completed) : ∃ new, Reports v input k r q k' new :=
    ⟨[], by rw [hc, append_nil], nofun⟩
  cases ho with
  | again | flushed | reads | journals | waitsSyncall | before | picks | lost | waitsSyncunlinked => exact hsame rfl
  | @synced active success hsyncing hsuccess hhas =>
    obtain ⟨new, hnew, hc⟩ :=
      fdataSynced_completed (setActive k active) r (type_of_fsync hsyncing.state htyped) success
    refine ⟨new, hnew, fun c hmem => ⟨(hc c hmem).1, fun ht => ?_, fun cb ht => ?_⟩⟩
    · rw [(hc c hmem).2] at ht
      cases ht
    · rw [(hc c hmem).2] at ht
      cases ht
  | syncallDone hstarts hunlinked hdirty =>
    refine ⟨_, syncallComplete_completed .., fun c hmem => ?_⟩
    cases mem_singleton.1 hmem
    refine ⟨rfl, fun _ => .inr ⟨hunlinked, hdirty⟩, fun cb ht => ?_⟩
    rw [type_of_syncall hstarts.state htyped] at ht
    cases ht
  | syncallErr hstate =>
    refine ⟨_, syncallComplete_completed .., fun c hmem => ?_⟩
    cases mem_singleton.1 hmem
    refine ⟨rfl, fun _ => .inl rfl, fun cb ht => ?_⟩
    rw [type_of_syncall (.inr (.inr hstate)) htyped] at ht
    cases ht
  | batched hbatched hqueued =>
    obtain ⟨active, rfl, -⟩ := hbatched.eq
    exact hsame rfl
  | syncunlinkedDone hcompletes hdone =>
    obtain ⟨new, hnew, hc⟩ := syncBatchesComplete_completed hdone
    have hsyncall {q1 : SyncReq} (ht1 : q1.type = q.type)
        (hstate : q.state = .syncunlinkedGuard ∨ q.state = .syncBatchesComplete) : q1.type ≠ .syncall := by
      obtain ⟨cb, hcb⟩ := type_of_syncunlinked hstate htyped
      rw [ht1, hcb]
      exact nofun
    cases hcompletes with
    | later hstate =>
      refine ⟨new, hnew, fun c hmem => ⟨(hc c hmem).1, fun ht => ?_, fun cb ht => .inl ⟨(hc c hmem).2.2, hstate⟩⟩⟩
      exact absurd ((hc c hmem).2.1.symm.trans ht) (hsyncall rfl (.inr hstate))
    | empty hguard hidle hempty =>
      refine ⟨new, hnew, fun c hmem => ⟨(hc c hmem).1, fun ht => ?_, fun cb ht => .inr ⟨(hc c hmem).2.2, ?_⟩⟩⟩
      · exact absurd ((hc c hmem).2.1.symm.trans ht) (hsyncall rfl (.inl hguard))
      · rw [hempty]
        exact fun i hi => absurd hi (Finset.notMem_empty i)
    | failed hbatched hall =>
      have hguard := hbatched.guard
      refine ⟨new, ?_, fun c hmem => ⟨(hc c hmem).1, fun ht => ?_, fun cb ht => .inr ⟨(hc c hmem).2.2, fun i hi => ?_⟩⟩⟩
      · obtain ⟨active, rfl, -⟩ := hbatched.eq
        exact hnew
      · exact absurd ((hc c hmem).2.1.symm.trans ht) (hsyncall rfl (.inl hguard))
      · rcases hbatched.covers hi with hin | ⟨e, he, -⟩
        · exact hin
        · rw [hall] at he
          exact absurd he not_mem_nil

variable {e : SyncEntry} {success : Bool}

theorem callback_completed (h : k.callback v e success = some k')
    (hfsync : e.batched = false → ∀ q, k.req e.req = some q → q.type = .fsync ∨ q.type = .syncall) :
    ∃ new, k'.completed = k.completed ++ new ∧ ∀ c ∈ new, c.req = e.req ∧ c.type = .fsync := by
  unfold SyncWorker.callback at h
  cases hb : e.batched with
  | true =>
    rw [hb, if_pos rfl] at h
    obtain ⟨k1, hk1, hk'⟩ := bind_eq_some_iff.1 h
    obtain ⟨-, rfl⟩ := recordBatchInoAppFsyncDone_eq_some.1 hk1
    obtain ⟨q, hq, rfl⟩ := map_eq_some_iff.1 hk'
    refine ⟨[], ?_, nofun⟩
    dsimp only
    split <;> exact (append_nil _).symm
  | false =>
    rw [hb, if_neg (by decide)] at h
    obtain ⟨q, hq, h⟩ := bind_eq_some_iff.1 h
    obtain ⟨-, rfl⟩ := onFdataSyncComplete_eq_some.1 h
    exact fdataSynced_completed k e.req (hfsync hb q hq) success

/-! ## Changes -/

/-- An entry of the inode with its body serialized is in the journal's hands. -/
def Serialized (s : Syncs) (i : ℕ) : Prop :=
  ∃ w, ∃ e ∈ (s.worker w).entries, i ∈ e.inodes ∧ e.body.isSome = true

/-- No entry fails while one of its inodes has changes in its log entry, no change is logged while an entry of the
inode that has its body serialized is in the journal's hands, and an inode is unlinked by the worker that has it. -/
def Careful (l : Syncs.Label) (s : Syncs) : Prop :=
  match l with
  | .log _ ino => ¬ Serialized s ino
  | .ownerDeallocResources w ino _ => s.location ino = .worker w ∧ ¬ Serialized s ino
  | .fail w j => ∀ e, (s.worker w).entries[j]? = some e → ∀ i ∈ e.inodes, s.logEntry i = []
  | .goOn _ input => input.fails = false ∧ ∀ i ∈ failedInodes input.batches, s.logEntry i = []
  | _ => True

/-- The inode has a change in memory that was marked dirty. -/
def Unsynced (s : Syncs) (i : ℕ) : Prop := ∃ c ∈ s.logEntry i, c.id < s.marked i

/-- The inode has a change in memory that frees blocks. -/
def Unfreed (s : Syncs) (i : ℕ) : Prop := ∃ c ∈ s.logEntry i, c.dealloc.isSome = true

/-- All changes up to the unlink of an inode, if that was before, are committed. -/
def FreedSince (s : Syncs) (b : Began) (i : ℕ) : Prop :=
  ∀ d ∈ s.history i, d.dealloc.isSome = true → d.id < b.nextChange → ∀ c ∈ s.history i, c.id ≤ d.id → c ∈ s.committed i

/-- The invariant: every change is in memory or committed, an entry under way has what it will
commit, and an inode with changes is in the sets of the worker that has it. -/
structure Kept (s : Syncs) : Prop where
  history (i : ℕ) (c : Change) : c ∈ s.history i → c ∈ s.committed i ∨ c ∈ s.logEntry i
  numbered (i : ℕ) (c : Change) : c ∈ s.committed i ∨ c ∈ s.logEntry i → c ∈ s.history i ∧ c.id < s.nextChange
  later (i : ℕ) (c d : Change) : c ∈ s.logEntry i → d ∈ s.committed i → d.id < c.id
  body (w : ℕ) (e : SyncEntry) (b : ℕ → List Change) (i : ℕ) : e ∈ (s.worker w).entries → e.body = some b →
    i ∈ e.inodes → (∀ c ∈ s.logEntry i, c ∈ b i) ∧ ∀ c ∈ b i, c ∈ s.logEntry i ∨ c ∈ s.committed i
  freed (i : ℕ) (c : Change) : c ∈ s.committed i → c.dealloc.isSome = true → c ∈ s.freed i
  disk (i : ℕ) : s.location i = .disk → s.logEntry i = []
  marked (i : ℕ) : s.marked i ≤ s.nextChange
  dirty (w i : ℕ) : s.location i = .worker w → Unsynced s i → i ∈ (s.worker w).dirtyInodeSet
  unlinked (w i : ℕ) : s.location i = .worker w → Unfreed s i → i ∈ (s.worker w).unlinkedInodeSet
  exported (i : ℕ) (d u : Bool) : s.location i = .exported d u →
    (Unsynced s i → d = true) ∧ (Unfreed s i → u = true)
  began (w r : ℕ) (b : Began) : beganOf (s.worker w) r = some b → b.nextChange ≤ s.nextChange ∧
    ∀ i, b.had i = true → FreedSince s b i ∨ ∃ e ∈ (s.worker w).entries, e.req = r ∧ i ∈ e.inodes
  target (w : ℕ) (e : SyncEntry) (q : SyncReq) : e ∈ (s.worker w).entries → e.batched = false →
    (s.worker w).req e.req = some q → e.inodes = [q.fileIno]
  turned (w r : ℕ) (q : SyncReq) : (s.worker w).req r = some q → Turned q

variable {s s' : Syncs} {w : ℕ} {l : Syncs.Label}

theorem FreedSince.of_empty (h : Kept s) {b : Began} (hlog : s.logEntry i = []) : FreedSince s b i :=
  fun d _ _ _ c hc _ => (h.history i c hc).resolve_right (by rw [hlog]; exact not_mem_nil)

theorem Kept.freedSince (h : Kept s) {b : Began} (hloc : s.location i = .worker w)
    (hi : i ∉ (s.worker w).unlinkedInodeSet) : FreedSince s b i := by
  intro d hd hdealloc _ c hc hle
  have hdc : d ∈ s.committed i := (h.history i d hd).resolve_right fun hlog =>
    hi (h.unlinked w i hloc ⟨d, hlog, hdealloc⟩)
  refine (h.history i c hc).resolve_right fun hlog => ?_
  have := h.later i c d hlog hdc
  omega

theorem Kept.setWorker (h : Kept s) (inodes : List ℕ) (hd : k'.dirtyInodeSet =
    (s.worker w).dirtyInodeSet \ inodes.toFinset)
    (hu : k'.unlinkedInodeSet = (s.worker w).unlinkedInodeSet \ inodes.toFinset)
      (hinodes : ∀ i ∈ inodes, s.logEntry i = [])
    (hentries : ∀ e ∈ k'.entries, ∀ b, e.body = some b → ∃ e0 ∈ (s.worker w).entries, e0.inodes = e.inodes ∧
      (e0.body = some b ∨ b = s.logEntry))
    (hbegan : ∀ r b, beganOf k' r = some b → (beganOf (s.worker w) r = some b ∧ ∀ i,
      (∃ e ∈ (s.worker w).entries, e.req = r ∧ i ∈ e.inodes) →
        s.logEntry i = [] ∨ ∃ e ∈ k'.entries, e.req = r ∧ i ∈ e.inodes) ∨
      b = ⟨s.nextChange, (s.view w).has⟩ ∧ ∀ i ∈ (s.worker w).unlinkedInodeSet, s.logEntry i = [] ∨
        ∃ e ∈ k'.entries, e.req = r ∧ i ∈ e.inodes)
    (htarget : ∀ e ∈ k'.entries, e.batched = false → ∀ q, k'.req e.req = some q → e.inodes = [q.fileIno])
    (hturned : ∀ r q, k'.req r = some q → Turned q) : Kept (s.setWorker w k') := by
  have hkeep {i : ℕ} {S : Finset ℕ} (hne : s.logEntry i ≠ []) (hi : i ∈ S) : i ∈ S \ inodes.toFinset :=
    Finset.mem_sdiff.2 ⟨hi, fun hin => hne (hinodes i (List.mem_toFinset.1 hin))⟩
  have hne {i : ℕ} {P : Change → Prop} (hex : ∃ c ∈ s.logEntry i, P c) : s.logEntry i ≠ [] := fun hnil => by
    obtain ⟨c, hc, -⟩ := hex
    rw [hnil] at hc
    exact absurd hc not_mem_nil
  refine ⟨h.history, h.numbered, h.later, fun w' e b i he hb hi => ?_, h.freed, h.disk, h.marked,
    fun w' i hloc hun => ?_, fun w' i hloc hun => ?_, h.exported, fun w' r b hb => ?_, fun w' e q he hb hq => ?_,
      fun w' r q hq => ?_⟩
  · rcases eq_or_ne w' w with rfl | hw
    · rw [setWorker_self] at he
      obtain ⟨e0, he0, hin, hb0 | rfl⟩ := hentries e he b hb
      · exact h.body w' e0 b i he0 hb0 (by rw [hin]; exact hi)
      · exact ⟨fun c hc => hc, fun c hc => .inl hc⟩
    · rw [setWorker_of_ne hw] at he
      exact h.body w' e b i he hb hi
  · have hold := h.dirty w' i hloc hun
    rcases eq_or_ne w' w with rfl | hw
    · rw [setWorker_self, hd]
      exact hkeep (hne hun) hold
    · rw [setWorker_of_ne hw]
      exact hold
  · have hold := h.unlinked w' i hloc hun
    rcases eq_or_ne w' w with rfl | hw
    · rw [setWorker_self, hu]
      exact hkeep (hne hun) hold
    · rw [setWorker_of_ne hw]
      exact hold
  · rcases eq_or_ne w' w with rfl | hw
    · rw [setWorker_self] at hb ⊢
      rcases hbegan r b hb with ⟨hb, hcover⟩ | ⟨rfl, hcover⟩
      · refine ⟨(h.began w' r b hb).1, fun i hi => ?_⟩
        rcases (h.began w' r b hb).2 i hi with hfreed | he
        · exact .inl hfreed
        · exact (hcover i he).imp (FreedSince.of_empty h) id
      · refine ⟨Nat.le_refl _, fun i hi => ?_⟩
        have hloc : s.location i = .worker w' := (view_has ..).1 hi
        by_cases hin : i ∈ (s.worker w').unlinkedInodeSet
        · exact (hcover i hin).imp (FreedSince.of_empty h) id
        · exact .inl (h.freedSince hloc hin)
    · rw [setWorker_of_ne hw] at hb ⊢
      exact h.began w' r b hb
  · rcases eq_or_ne w' w with rfl | hw
    · rw [setWorker_self] at he hq
      exact htarget e he hb q hq
    · rw [setWorker_of_ne hw] at he hq
      exact h.target w' e q he hb hq
  · rcases eq_or_ne w' w with rfl | hw
    · rw [setWorker_self] at hq
      exact hturned r q hq
    · rw [setWorker_of_ne hw] at hq
      exact h.turned w' r q hq

theorem callback_req (h : k.callback v e success = some k') :
    ∃ q x, k.req e.req = some q ∧ k'.req = update k.req e.req x ∧ ∀ q', x = some q' → q'.began = q.began ∧
      q'.fileIno = q.fileIno ∧
        (q'.state = .syncBatchesInprogress ∨ q'.state = .syncBatchesComplete → e.batched = true) := by
  unfold SyncWorker.callback at h
  split at h
  · next hb =>
    obtain ⟨k1, hk1, hk'⟩ := bind_eq_some_iff.1 h
    obtain ⟨-, rfl⟩ := recordBatchInoAppFsyncDone_eq_some.1 hk1
    obtain ⟨q, hq, rfl⟩ := map_eq_some_iff.1 hk'
    dsimp only
    split <;> exact ⟨q, _, hq, rfl, fun q' hq' => by cases hq'; exact ⟨rfl, rfl, fun _ => hb⟩⟩
  · obtain ⟨q, hq, h⟩ := bind_eq_some_iff.1 h
    obtain ⟨-, rfl⟩ := onFdataSyncComplete_eq_some.1 h
    unfold Sync.fdataSynced
    dsimp only
    split
    · refine ⟨q, _, hq, rfl, fun q' hq' => ?_⟩
      cases hq'
      refine ⟨rfl, rfl, fun hs => ?_⟩
      cases success <;> simp at hs
    · exact ⟨q, none, hq, rfl, fun q' hq' => by cases hq'⟩

theorem Kept.callback (h : Kept s) (hplaced : Placed [] (s.worker w)) {j : ℕ}
    (hj : (s.worker w).entries[j]? = some e) (hcb :
      { s.worker w with entries := (s.worker w).entries.eraseIdx j }.callback v e success = some k')
    (hempty : ∀ i ∈ e.inodes, s.logEntry i = []) : Kept (s.setWorker w k') := by
  obtain ⟨inodes, hd, hu, hentries, hbatched, hsingle⟩ := callback_sets hcb
  obtain ⟨q, x, hq, hreq, hx⟩ := callback_req hcb
  have hin : inodes = e.inodes := by
    cases hb : e.batched with
    | true => exact hbatched hb
    | false =>
      obtain ⟨q1, hq1, rfl⟩ := hsingle hb
      exact (h.target w e q1 (mem_of_getElem? hj) hb hq1).symm
  have hold {e' : SyncEntry} (he' : e' ∈ k'.entries) : e' ∈ (s.worker w).entries := by
    rw [hentries] at he'
    exact mem_of_mem_eraseIdx he'
  refine h.setWorker _ hd hu (fun i hi => hempty i (hin ▸ hi)) (fun e' he' b hb => ⟨e', hold he', rfl, .inl hb⟩)
    (fun r b hb => .inl ⟨?_, fun i hi => ?_⟩) (fun e' he' hb q' hq' => ?_) fun r q' hq' => ?_
  · exact beganOf_of_update hq hreq (fun q' hq' => (hx q' hq').1) hb
  · obtain ⟨e', he', hr, hi⟩ := hi
    rcases mem_cons.1 ((entries_perm hj).mem_iff.1 he') with rfl | he'
    · exact .inl (hempty i hi)
    · exact .inr ⟨e', by rw [hentries]; exact he', hr, hi⟩
  · rw [hreq] at hq'
    rcases of_update hq' with ⟨heq, rfl⟩ | ⟨-, hq'⟩
    · rw [(hx q' rfl).2.1]
      exact h.target w e' q (hold he') hb (by rw [heq]; exact hq)
    · exact h.target w e' q' (hold he') hb hq'
  · rw [hreq] at hq'
    rcases of_update hq' with ⟨rfl, rfl⟩ | ⟨-, hq'⟩
    · intro hs
      obtain ⟨q1, hq1, hb⟩ := hplaced.sound.live e (mem_of_getElem? hj)
      cases hq.symm.trans hq1
      rw [(hx q' rfl).1]
      exact h.turned w e.req q hq (.inl (hb.1 ((hx q' rfl).2.2 hs)))
    · exact h.turned w r q' hq'

theorem Kept.onSuccessfulJournalWrite (h : Kept s) {b : ℕ → List Change}
    (he : e ∈ (s.worker w).entries) (hb : e.body = some b) : Kept (s.onSuccessfulJournalWrite e.inodes b) := by
  have hcommitted {i : ℕ} {c : Change} (hc : c ∈ s.committed i) :
    c ∈ (s.onSuccessfulJournalWrite e.inodes b).committed i := by
    unfold Syncs.onSuccessfulJournalWrite
    dsimp only
    split
    · exact mem_append_left _ hc
    · exact hc
  have hlogged {i : ℕ} {c : Change} (hc : c ∈ s.logEntry i) : c ∈ (s.onSuccessfulJournalWrite e.inodes b).committed i ∨
        i ∉ e.inodes ∧ c ∈ (s.onSuccessfulJournalWrite e.inodes b).logEntry i := by
    unfold Syncs.onSuccessfulJournalWrite
    dsimp only
    split
    · next hi => exact .inl (mem_append_right _ ((h.body w e b i he hb hi).1 c hc))
    · next hi => exact .inr ⟨hi, hc⟩
  have hlog {i : ℕ} {c : Change} (hc : c ∈ (s.onSuccessfulJournalWrite e.inodes b).logEntry i) :
    i ∉ e.inodes ∧ c ∈ s.logEntry i := by
    unfold Syncs.onSuccessfulJournalWrite at hc
    dsimp only at hc
    split at hc
    · exact absurd hc not_mem_nil
    · next hi => exact ⟨hi, hc⟩
  have hof {i : ℕ} {c : Change} (hc : c ∈ (s.onSuccessfulJournalWrite e.inodes b).committed i) :
      c ∈ s.committed i ∨ i ∈ e.inodes ∧ c ∈ s.logEntry i := by
    unfold Syncs.onSuccessfulJournalWrite at hc
    dsimp only at hc
    split at hc
    · next hi =>
      rcases mem_append.1 hc with hc | hc
      · exact .inl hc
      · rcases (h.body w e b i he hb hi).2 c hc with hc | hc
        · exact .inr ⟨hi, hc⟩
        · exact .inl hc
    · exact .inl hc
  refine ⟨fun i c hc => ?_, fun i c hc => ?_, fun i c d hc hd => ?_, fun w' e' b' i he' hb' hi => ?_,
    fun i c hc hf => ?_,
    fun i hi => ?_, h.marked, fun w' i hloc hun => ?_, fun w' i hloc hun => ?_, fun i d u hloc => ?_,
      fun w' r b' hb' => ?_,
    h.target, h.turned⟩
  · rcases h.history i c hc with hc | hc
    · exact .inl (hcommitted hc)
    · exact (hlogged hc).imp id And.right
  · refine h.numbered i c ?_
    rcases hc with hc | hc
    · exact (hof hc).imp id And.right
    · exact .inr (hlog hc).2
  · obtain ⟨hi, hc⟩ := hlog hc
    rcases hof hd with hd | ⟨hin, -⟩
    · exact h.later i c d hc hd
    · exact absurd hin hi
  · refine ⟨fun c hc => (h.body w' e' b' i he' hb' hi).1 c (hlog hc).2, fun c hc => ?_⟩
    rcases (h.body w' e' b' i he' hb' hi).2 c hc with hc | hc
    · exact (hlogged hc).symm.imp And.right id
    · exact .inr (hcommitted hc)
  · have hfreed {c : Change} (hc : c ∈ s.freed i) : c ∈ (s.onSuccessfulJournalWrite e.inodes b).freed i := by
      unfold Syncs.onSuccessfulJournalWrite
      dsimp only
      split
      · exact mem_append_left _ hc
      · exact hc
    rcases hof hc with hc | ⟨hi, hc⟩
    · exact hfreed (h.freed i c hc hf)
    · unfold Syncs.onSuccessfulJournalWrite
      dsimp only
      rw [if_pos hi]
      exact mem_append_right _ (mem_filter.2 ⟨hc, hf⟩)
  · unfold Syncs.onSuccessfulJournalWrite
    dsimp only
    split
    · rfl
    · exact h.disk i hi
  · obtain ⟨c, hc, hm⟩ := hun
    exact h.dirty w' i hloc ⟨c, (hlog hc).2, hm⟩
  · obtain ⟨c, hc, hm⟩ := hun
    exact h.unlinked w' i hloc ⟨c, (hlog hc).2, hm⟩
  · refine ⟨fun ⟨c, hc, hm⟩ => (h.exported i d u hloc).1 ⟨c, (hlog hc).2, hm⟩, fun ⟨c, hc, hm⟩ =>
      (h.exported i d u hloc).2 ⟨c, (hlog hc).2, hm⟩⟩
  · refine ⟨(h.began w' r b' hb').1, fun i hi => ?_⟩
    rcases (h.began w' r b' hb').2 i hi with hfreed | hentry
    · exact .inl fun d hd hdealloc hlt c hc hle => hcommitted (hfreed d hd hdealloc hlt c hc hle)
    · exact .inr hentry

/-! ## Changes of inodes and of where they are -/

section

variable (h : Kept s)

include h

theorem Kept.relocate {d u : Finset ℕ} {loc : ℕ → Location} (hdisk : ∀ i, loc i = .disk → s.logEntry i = [])
    (hdirty : ∀ w' i, loc i = .worker w' → Unsynced s i → i ∈ if w' = w then d else (s.worker w').dirtyInodeSet)
    (hunlinked : ∀ w' i, loc i = .worker w' → Unfreed s i → i ∈ if w' = w then u else (s.worker w').unlinkedInodeSet)
    (hexported : ∀ i d u, loc i = .exported d u → (Unsynced s i → d = true) ∧ (Unfreed s i → u = true)) :
    Kept { s.setWorker w { s.worker w with dirtyInodeSet := d, unlinkedInodeSet := u } with location := loc } := by
  have hworker (w' : ℕ) : (s.setWorker w { s.worker w with dirtyInodeSet := d, unlinkedInodeSet := u }).worker w' =
    { s.worker w' with
        dirtyInodeSet := if w' = w then d else (s.worker w').dirtyInodeSet
        unlinkedInodeSet := if w' = w then u else (s.worker w').unlinkedInodeSet } := by
    rcases eq_or_ne w' w with rfl | hw
    · rw [setWorker_self, if_pos rfl, if_pos rfl]
    · rw [setWorker_of_ne hw, if_neg hw, if_neg hw]
  refine ⟨h.history, h.numbered, h.later, fun w' e b i he => ?_, h.freed, hdisk, h.marked, fun w' i hloc hun => ?_,
    fun w' i hloc hun => ?_, hexported, fun w' r b hb => ?_, fun w' e q he hb hq => ?_, fun w' r q hq => ?_⟩
  all_goals dsimp only at *
  · rw [hworker] at he
    exact h.body w' e b i he
  · rw [hworker]
    exact hdirty w' i hloc hun
  · rw [hworker]
    exact hunlinked w' i hloc hun
  · rw [hworker] at hb ⊢
    exact h.began w' r b hb
  · rw [hworker] at he hq
    exact h.target w' e q he hb hq
  · rw [hworker] at hq
    exact h.turned w' r q hq

theorem Kept.grow {d u : Finset ℕ} (hd : (s.worker w).dirtyInodeSet ⊆ d) (hu : (s.worker w).unlinkedInodeSet ⊆ u) :
    Kept (s.setWorker w { s.worker w with dirtyInodeSet := d, unlinkedInodeSet := u }) := by
  refine h.relocate h.disk (fun w' i hloc hun => ?_) (fun w' i hloc hun => ?_) h.exported
  · split
    · next heq => exact hd (heq ▸ h.dirty w' i hloc hun)
    · exact h.dirty w' i hloc hun
  · split
    · next heq => exact hu (heq ▸ h.unlinked w' i hloc hun)
    · exact h.unlinked w' i hloc hun

theorem Kept.mark (hloc : s.location i = .worker w) (hi : i ∈ (s.worker w).dirtyInodeSet) :
    Kept { s with marked := update s.marked i s.nextChange } := by
  have hother {i' : ℕ} (hne : i' ≠ i) (hun : Unsynced { s with marked := update s.marked i s.nextChange } i') :
    Unsynced s i' := by
    obtain ⟨c, hc, hm⟩ := hun
    dsimp only at hm
    rw [update_of_ne hne] at hm
    exact ⟨c, hc, hm⟩
  refine ⟨h.history, h.numbered, h.later, h.body, h.freed, h.disk, fun i' => ?_, fun w' i' hloc' hun => ?_, h.unlinked,
    fun i' d u hloc' => ⟨fun hun => ?_, (h.exported i' d u hloc').2⟩, h.began, h.target, h.turned⟩
  · dsimp only
    rcases eq_or_ne i' i with rfl | hne
    · rw [update_self]
    · rw [update_of_ne hne]
      exact h.marked i'
  · rcases eq_or_ne i' i with rfl | hne
    · cases hloc.symm.trans hloc'
      exact hi
    · exact h.dirty w' i' hloc' (hother hne hun)
  · rcases eq_or_ne i' i with rfl | hne
    · cases hloc.symm.trans hloc'
    · exact (h.exported i' d u hloc').1 (hother hne hun)

theorem Kept.addChange (hser : ¬ Serialized s i) (hloc : s.location i = .worker w)
    (dealloc : Option (List (ℕ × ℕ))) (hdealloc : dealloc.isSome = true → i ∈ (s.worker w).unlinkedInodeSet) :
      Kept (s.addChange i dealloc) := by
  have hlog (i' : ℕ) : (s.addChange i dealloc).logEntry i' = s.logEntry i' ++ if i' = i then
    [⟨s.nextChange, dealloc⟩] else [] := by
    dsimp only [Syncs.addChange]
    rcases eq_or_ne i' i with rfl | hne
    · rw [update_self, if_pos rfl]
    · rw [update_of_ne hne, if_neg hne, append_nil]
  have hhist (i' : ℕ) : (s.addChange i dealloc).history i' = s.history i' ++ if i' = i then
    [⟨s.nextChange, dealloc⟩] else [] := by
    dsimp only [Syncs.addChange]
    rcases eq_or_ne i' i with rfl | hne
    · rw [update_self, if_pos rfl]
    · rw [update_of_ne hne, if_neg hne, append_nil]
  have hnew {i' : ℕ} {c : Change} (hc : c ∈ if i' = i then [(⟨s.nextChange, dealloc⟩ : Change)] else []) :
      i' = i ∧ c = ⟨s.nextChange, dealloc⟩ := by
    split at hc
    · next heq => exact ⟨heq, mem_singleton.1 hc⟩
    · exact absurd hc not_mem_nil
  have hunsynced {i' : ℕ} (hun : Unsynced (s.addChange i dealloc) i') : Unsynced s i' := by
    obtain ⟨c, hc, hm⟩ := hun
    rw [hlog] at hc
    rcases mem_append.1 hc with hc | hc
    · exact ⟨c, hc, hm⟩
    · obtain ⟨-, rfl⟩ := hnew hc
      have := h.marked i'
      exact absurd (show s.nextChange < s.marked i' from hm) (by omega)
  have hunfreed {i' : ℕ} (hun : Unfreed (s.addChange i dealloc) i') :
    Unfreed s i' ∨ i' = i ∧ dealloc.isSome = true := by
    obtain ⟨c, hc, hf⟩ := hun
    rw [hlog] at hc
    rcases mem_append.1 hc with hc | hc
    · exact .inl ⟨c, hc, hf⟩
    · obtain ⟨rfl, rfl⟩ := hnew hc
      exact .inr ⟨rfl, hf⟩
  refine ⟨fun i' c hc => ?_, fun i' c hc => ?_, fun i' c d hc hd => ?_, fun w' e b i' he hb hi => ⟨fun c hc => ?_,
    fun c hc => ?_⟩, h.freed, fun i' hi => ?_, fun i' => ?_, fun w' i' hloc' hun => h.dirty w' i' hloc' (hunsynced hun),
    fun w' i' hloc' hun => ?_, fun i' d u hloc' => ⟨fun hun => (h.exported i' d u hloc').1 (hunsynced hun),
      fun hun => ?_⟩,
    fun w' r b hb => ?_, h.target, h.turned⟩
  · rw [hhist] at hc
    rw [hlog, mem_append]
    rcases mem_append.1 hc with hc | hc
    · exact (h.history i' c hc).imp id .inl
    · exact .inr (.inr hc)
  · rw [hlog, mem_append] at hc
    rw [hhist, mem_append]
    rcases hc with hc | hc | hc
    · exact ⟨.inl (h.numbered i' c (.inl hc)).1, Nat.lt_succ_of_lt (h.numbered i' c (.inl hc)).2⟩
    · exact ⟨.inl (h.numbered i' c (.inr hc)).1, Nat.lt_succ_of_lt (h.numbered i' c (.inr hc)).2⟩
    · refine ⟨.inr hc, ?_⟩
      obtain ⟨-, rfl⟩ := hnew hc
      exact Nat.lt_succ_self _
  · rw [hlog] at hc
    rcases mem_append.1 hc with hc | hc
    · exact h.later i' c d hc hd
    · obtain ⟨-, rfl⟩ := hnew hc
      exact (h.numbered i' d (.inl hd)).2
  · rw [hlog] at hc
    rcases mem_append.1 hc with hc | hc
    · exact (h.body w' e b i' he hb hi).1 c hc
    · obtain ⟨rfl, -⟩ := hnew hc
      exact absurd ⟨w', e, he, hi, by rw [hb]; rfl⟩ hser
  · rw [hlog, mem_append]
    exact ((h.body w' e b i' he hb hi).2 c hc).imp .inl id
  · rw [hlog, h.disk i' hi, if_neg]
    · rfl
    · rintro rfl
      cases hloc.symm.trans hi
  · exact Nat.le_succ_of_le (h.marked i')
  · rcases hunfreed hun with hun | ⟨rfl, hsome⟩
    · exact h.unlinked w' i' hloc' hun
    · cases hloc.symm.trans hloc'
      exact hdealloc hsome
  · rcases hunfreed hun with hun | ⟨rfl, hsome⟩
    · exact (h.exported i' d u hloc').2 hun
    · cases hloc.symm.trans hloc'
  · obtain ⟨hle, hcover⟩ := h.began w' r b hb
    refine ⟨Nat.le_succ_of_le hle, fun i' hi => (hcover i' hi).imp (fun hfreed => ?_) id⟩
    intro d hd hsome hlt c hc hcd
    rw [hhist] at hd hc
    have hold {x : Change} (hx : x ∈ s.history i' ++ if i' = i then [⟨s.nextChange, dealloc⟩] else [])
        (hlt : x.id < b.nextChange) : x ∈ s.history i' := by
      rcases mem_append.1 hx with hx | hx
      · exact hx
      · obtain ⟨-, rfl⟩ := hnew hx
        exact absurd hlt (by dsimp only; omega)
    exact hfreed d (hold hd hlt) hsome hlt c (hold hc (by omega)) hcd

theorem Kept.load (hloc : s.location i = .disk) : Kept { s with location := update s.location i (.worker w) } := by
  have hlog := h.disk i hloc
  have hne {i' : ℕ} {P : Change → Prop} (hex : ∃ c ∈ s.logEntry i', P c) : i' ≠ i := by
    rintro rfl
    obtain ⟨c, hc, -⟩ := hex
    rw [hlog] at hc
    exact absurd hc not_mem_nil
  refine ⟨h.history, h.numbered, h.later, h.body, h.freed, fun i' hi => ?_, h.marked, fun w' i' hloc' hun => ?_,
    fun w' i' hloc' hun => ?_, fun i' d u hloc' => ⟨fun hun => ?_, fun hun => ?_⟩, h.began, h.target, h.turned⟩
  all_goals dsimp only at *
  · rcases eq_or_ne i' i with rfl | hne
    · exact hlog
    · rw [update_of_ne hne] at hi
      exact h.disk i' hi
  · rw [update_of_ne (hne hun)] at hloc'
    exact h.dirty w' i' hloc' hun
  · rw [update_of_ne (hne hun)] at hloc'
    exact h.unlinked w' i' hloc' hun
  · rw [update_of_ne (hne hun)] at hloc'
    exact (h.exported i' d u hloc').1 hun
  · rw [update_of_ne (hne hun)] at hloc'
    exact (h.exported i' d u hloc').2 hun

theorem Kept.exportInode (hloc : s.location i = .worker w) : Kept (s.exportInode w i) := by
  have hother {x : Location} {i' : ℕ} {d u : Bool} (hi : update s.location i (.exported d u) i' = x)
      (hx : ∀ d u, x ≠ .exported d u) : i' ≠ i ∧ s.location i' = x := by
    rcases eq_or_ne i' i with rfl | hne
    · exact absurd ((update_self ..).symm.trans hi).symm (hx d u)
    · exact ⟨hne, (update_of_ne hne ..).symm.trans hi⟩
  refine h.relocate (fun i' hi => ?_) (fun w' i' hloc' hun => ?_) (fun w' i' hloc' hun => ?_) fun i' d u hloc' => ?_
  · exact h.disk i' (hother hi nofun).2
  · obtain ⟨hne, hloc'⟩ := hother hloc' nofun
    split
    · next heq => exact Finset.mem_erase.2 ⟨hne, heq ▸ h.dirty w' i' hloc' hun⟩
    · exact h.dirty w' i' hloc' hun
  · obtain ⟨hne, hloc'⟩ := hother hloc' nofun
    split
    · next heq => exact Finset.mem_erase.2 ⟨hne, heq ▸ h.unlinked w' i' hloc' hun⟩
    · exact h.unlinked w' i' hloc' hun
  · rcases eq_or_ne i' i with rfl | hne
    · cases (update_self ..).symm.trans hloc'
      exact ⟨fun hun => decide_eq_true (h.dirty w i' hloc hun), fun hun => decide_eq_true (h.unlinked w i' hloc hun)⟩
    · exact h.exported i' d u ((update_of_ne hne ..).symm.trans hloc')

theorem Kept.importInode {d u : Bool} (hloc : s.location i = .exported d u) : Kept (s.importInode w i d u) := by
  have hmem {c : Bool} {S : Finset ℕ} {i' : ℕ} (hi : i' ∈ S) : i' ∈ if c then insert i S else S := by
    split
    · exact Finset.mem_insert_of_mem hi
    · exact hi
  refine h.relocate (fun i' hi => ?_) (fun w' i' hloc' hun => ?_) (fun w' i' hloc' hun => ?_) fun i' d' u' hloc' => ?_
  all_goals rcases eq_or_ne i' i with rfl | hne
  · cases (update_self ..).symm.trans hi
  · exact h.disk i' ((update_of_ne hne ..).symm.trans hi)
  · cases (update_self ..).symm.trans hloc'
    rw [if_pos rfl, (h.exported i' d u hloc).1 hun, if_pos rfl]
    exact Finset.mem_insert_self ..
  · have hold := h.dirty w' i' ((update_of_ne hne ..).symm.trans hloc') hun
    split
    · next heq => exact hmem (heq ▸ hold)
    · exact hold
  · cases (update_self ..).symm.trans hloc'
    rw [if_pos rfl, (h.exported i' d u hloc).2 hun, if_pos rfl]
    exact Finset.mem_insert_self ..
  · have hold := h.unlinked w' i' ((update_of_ne hne ..).symm.trans hloc') hun
    split
    · next heq => exact hmem (heq ▸ hold)
    · exact hold
  · cases (update_self ..).symm.trans hloc'
  · exact h.exported i' d' u' ((update_of_ne hne ..).symm.trans hloc')

end

/-! ## Runs -/

theorem Kept.quiet (h : Kept s) (hd : k'.dirtyInodeSet = (s.worker w).dirtyInodeSet)
    (hu : k'.unlinkedInodeSet = (s.worker w).unlinkedInodeSet) (hentries : k'.entries = (s.worker w).entries)
    (hbegan : ∀ r b, beganOf k' r = some b → beganOf (s.worker w) r = some b)
    (htarget : ∀ r q, k'.req r = some q → r ∈ (s.worker w).entries.map SyncEntry.req →
      ∃ q0, (s.worker w).req r = some q0 ∧ q0.fileIno = q.fileIno)
        (hturned : ∀ r q, k'.req r = some q → Turned q) : Kept (s.setWorker w k') := by
  refine h.setWorker [] (by rw [hd]; simp) (by rw [hu]; simp) (nofun)
    (fun e he b hb => ⟨e, by rw [← hentries]; exact he, rfl, .inl hb⟩)
    (fun r b hb => .inl ⟨hbegan r b hb, fun i hi => .inr (by rw [hentries]; exact hi)⟩) (fun e he hb q hq => ?_)
    hturned
  rw [hentries] at he
  obtain ⟨q0, hq0, hf⟩ := htarget e.req q hq (List.mem_map_of_mem he)
  rw [← hf]
  exact h.target w e q0 he hb hq0

theorem Kept.goOn (h : Kept s) (hplaced : Placed [] (s.worker w)) (hfails : input.fails = false)
    (hbatches : ∀ i ∈ failedInodes input.batches, s.logEntry i = [])
    (hgo : (s.worker w).goOn (s.view w) input = some k') : Kept (s.setWorker w k') := by
  rcases hplaced.sound.goOn_cases hgo with ⟨rest, -, rfl⟩ | ⟨frame, p, rest, r, q, -, -, hq, hsound, -, ho⟩
  · obtain ⟨hd, hu, hentries⟩ := nextSyncunlinked_sets { s.worker w with calls := rest }
    have hreq : ({ s.worker w with calls := rest }.nextSyncunlinked).req = (s.worker w).req := by
      unfold SyncWorker.nextSyncunlinked
      split <;> rfl
    refine h.quiet hd hu hentries (fun r b hb => ?_) (fun r q hq _ => ⟨q, by rw [← hreq]; exact hq, rfl⟩)
      fun r q hq => h.turned w r q (by rw [hreq] at hq; exact hq)
    unfold beganOf at hb ⊢
    rwa [hreq] at hb
  · have hnone := (hsound.fresh _ (Nat.le_refl _)).1
    obtain ⟨inodes, hd, hu, hin⟩ := ho.sets
    obtain ⟨es, hentries, hes, hbegan⟩ := ho.submits hnone hq
    have hempty {i : ℕ} (hi : i ∈ inodes) : s.logEntry i = [] := by
      rcases hin i hi with hlog | hf | hf
      · exact hlog
      · rw [hfails] at hf
        cases hf
      · exact hbatches i hf
    refine h.setWorker _ hd hu (fun i hi => hempty hi) (fun e he b hb => ?_) (fun r' b hb => ?_)
      (fun e he hb q' hq' => ?_) fun r' q' hq' => ho.turned hq (h.turned w) hq'
    · rw [hentries] at he
      rcases mem_append.1 he with he | he
      · exact ⟨e, he, rfl, .inl hb⟩
      · rw [(hes e he).1] at hb
        cases hb
    · rcases hbegan r' b hb with hb | ⟨hb, hcover⟩
      · refine .inl ⟨hb, fun i hi => .inr ?_⟩
        obtain ⟨e, he, hr⟩ := hi
        exact ⟨e, by rw [hentries]; exact mem_append_left _ he, hr⟩
      · refine .inr ⟨hb, fun i hi => ?_⟩
        rcases hcover i hi with hf | ⟨e, he, hr⟩
        · exact .inl (hbatches i hf)
        · exact .inr ⟨e, by rw [hentries]; exact mem_append_right _ he, hr⟩
    · rw [hentries] at he
      rcases mem_append.1 he with he | he
      · have hmem : e.req ∈ (s.worker w).entries.map SyncEntry.req := List.mem_map_of_mem he
        have hne : e.req ≠ r := fun heq => hsound.held_entry hq (heq ▸ hmem)
        have hnew : e.req ≠ (s.worker w).nextReq := fun heq =>
          (hsound.fresh _ (Nat.le_refl _)).2.2.2 (show (s.worker w).nextReq ∈ _ from heq ▸ hmem)
        rcases Outcome.others (k := { s.worker w with calls := rest }) hq ho hne hnew with heq | ⟨pq, -, hpq, heq⟩
        · exact h.target w e q' he hb (heq.symm.trans hq')
        · cases heq.symm.trans hq'
          exact h.target w e pq he hb hpq
      · obtain ⟨hr, hinodes, hfile⟩ := (hes e he).2 hb
        rw [hr] at hq'
        rw [hinodes, hfile q' hq']

theorem Kept.still (h : Kept s) (hd : k'.dirtyInodeSet = (s.worker w).dirtyInodeSet)
    (hu : k'.unlinkedInodeSet = (s.worker w).unlinkedInodeSet) (hentries : k'.entries = (s.worker w).entries)
    (hreq : k'.req = (s.worker w).req) : Kept (s.setWorker w k') := by
  refine h.quiet hd hu hentries (fun r b hb => ?_) (fun r q hq _ => ⟨q, by rw [← hreq]; exact hq, rfl⟩)
    fun r q hq => h.turned w r q (by rw [← hreq]; exact hq)
  unfold beganOf at hb ⊢
  rwa [hreq] at hb

theorem Kept.accept (h : Kept s) (hplaced : Placed [] (s.worker w)) {client : SyncWorker.ClientReq} {stale : ℕ}
    (ha : (s.worker w).accept v client stale = some k') : Kept (s.setWorker w k') := by
  obtain ⟨hd, hu, hentries, hreq⟩ : k'.dirtyInodeSet = (s.worker w).dirtyInodeSet ∧
      k'.unlinkedInodeSet = (s.worker w).unlinkedInodeSet ∧ k'.entries = (s.worker w).entries ∧
      k'.req = update (s.worker w).req (s.worker w).nextReq (some (SyncWorker.newReq stale client)) := by
    unfold SyncWorker.accept at ha
    cases client with
    | fsync ino =>
      dsimp only at ha
      split at ha
      · cases ha
        exact ⟨rfl, rfl, rfl, rfl⟩
      · cases ha
    | syncall | syncunlinked =>
      cases ha
      exact ⟨rfl, rfl, rfl, rfl⟩
  refine h.quiet hd hu hentries (fun r b hb => ?_) (fun r q hq hr => ?_) fun r q hq => ?_
  · rw [beganOf_update hreq] at hb
    rcases eq_or_ne r (s.worker w).nextReq with rfl | hne
    · rw [update_self] at hb
      cases client <;> cases hb
    · rwa [update_of_ne hne] at hb
  · have hne : r ≠ (s.worker w).nextReq := fun heq => (hplaced.sound.fresh r (by omega)).2.2.2 hr
    rw [hreq, update_of_ne hne] at hq
    exact ⟨q, hq, rfl⟩
  · rw [hreq] at hq
    rcases of_update hq with ⟨-, hx⟩ | ⟨-, hq⟩
    · cases hx
      intro hs
      cases client <;> rcases hs with hs | hs <;> cases hs
    · exact h.turned w r q hq

theorem Kept.ownerDeallocResources (h : Kept s) {ino : ℕ} {bitmaps : List (ℕ × ℕ)} (hloc : s.location ino = .worker w)
    (hser₀ : ¬ Serialized s ino) : Kept (s.ownerDeallocResources w ino bitmaps) := by
  have hins := h.grow (w := w) (d := insert ino (s.worker w).dirtyInodeSet)
    (u := insert ino (s.worker w).unlinkedInodeSet) (Finset.subset_insert ..) (Finset.subset_insert ..)
  have hser : ¬ Serialized (s.setWorker w { s.worker w with
      dirtyInodeSet := insert ino (s.worker w).dirtyInodeSet
      unlinkedInodeSet := insert ino (s.worker w).unlinkedInodeSet }) ino := by
    rintro ⟨w', e, he, hi⟩
    refine hser₀ ⟨w', e, ?_, hi⟩
    rcases eq_or_ne w' w with rfl | hw
    · rw [setWorker_self] at he
      exact he
    · rw [setWorker_of_ne hw] at he
      exact he
  have hadd := hins.addChange (w := w) hser hloc (some bitmaps) fun _ => by
    rw [setWorker_self]
    exact Finset.mem_insert_self ..
  have hmark := hadd.mark (w := w) (i := ino) hloc (by
    dsimp only [Syncs.addChange]
    rw [setWorker_self]
    exact Finset.mem_insert_self ..)
  have heq : s.ownerDeallocResources w ino bitmaps = { Syncs.addChange (s.setWorker w { s.worker w with
      dirtyInodeSet := insert ino (s.worker w).dirtyInodeSet
      unlinkedInodeSet := insert ino (s.worker w).unlinkedInodeSet }) ino (some bitmaps) with
      marked := update s.marked ino (s.nextChange + 1) } := by
    simp only [Syncs.ownerDeallocResources, Syncs.writeFileInode, Syncs.setWorker, Syncs.addChange, update_self,
      update_idem]
  rw [heq]
  exact hmark

theorem Kept.flushDone (h : Kept s) (hk' : (s.worker w).flushDone r = some k') : Kept (s.setWorker w k') := by
  unfold SyncWorker.flushDone at hk'
  split at hk'
  · obtain ⟨q, hq, rfl⟩ := map_eq_some_iff.1 hk'
    refine h.quiet rfl rfl rfl (fun r' b hb => ?_) (fun r' q' hq' _ => ?_) fun r' q' hq' => ?_
    · exact beganOf_of_update hq rfl (fun q' hq' => by cases hq'; rfl) hb
    · rcases of_update hq' with ⟨rfl, hx⟩ | ⟨-, hq'⟩
      · cases hx
        exact ⟨q, hq, rfl⟩
      · exact ⟨q', hq', rfl⟩
    · rcases of_update hq' with ⟨rfl, hx⟩ | ⟨-, hq'⟩
      · cases hx
        exact fun hs => by rcases hs with hs | hs <;> cases hs
      · exact h.turned w r' q' hq'
  · cases hk'

/-- The body of an entry is what is logged when it is serialized. -/
theorem Kept.serialize (h : Kept s) {j : ℕ} (hj : (s.worker w).entries[j]? = some e) :
    Kept (s.setWorker w { s.worker w with
      entries := (s.worker w).entries.set j { e with body := some s.logEntry } }) := by
  have hmem := mem_of_getElem? hj
  have hof {e' : SyncEntry} (he' : e' ∈ (s.worker w).entries.set j { e with body := some s.logEntry }) :
      e' ∈ (s.worker w).entries ∨ e' = { e with body := some s.logEntry } := mem_or_eq_of_mem_set he'
  refine h.setWorker [] (by simp) (by simp) (fun _ h => by cases h)
    (fun e' he' b hb => ?_) (fun r b hb => .inl ⟨hb, fun i hi => .inr ?_⟩) (fun e' he' hb q hq => ?_)
    fun r q hq => h.turned w r q hq
  · rcases hof he' with he' | rfl
    · exact ⟨e', he', rfl, .inl hb⟩
    · exact ⟨e, hmem, rfl, .inr (Option.some.inj hb).symm⟩
  · obtain ⟨e', he', hr, hi⟩ := hi
    obtain ⟨n, hn⟩ := mem_iff_getElem?.1 he'
    rcases eq_or_ne n j with rfl | hne
    · cases hj.symm.trans hn
      exact ⟨_, mem_set (List.getElem?_eq_some_iff.1 hj).1 _, hr, hi⟩
    · refine ⟨e', mem_iff_getElem?.2 ⟨n, ?_⟩, hr, hi⟩
      rw [List.getElem?_set_ne hne.symm]
      exact hn
  · rcases hof he' with he' | rfl
    · exact h.target w e' q he' hb hq
    · exact h.target w e q hmem hb hq

theorem Kept.succeed (h : Kept s) (hplaced : Placed [] (s.worker w)) {j : ℕ} {body : ℕ → List Change}
    (hj : (s.worker w).entries[j]? = some e) (hbody : e.body = some body)
    (hk' : { s.worker w with entries := (s.worker w).entries.eraseIdx j }.callback (s.view w) e true = some k') :
    Kept ((s.onSuccessfulJournalWrite e.inodes body).setWorker w k') := by
  have hwrite := h.onSuccessfulJournalWrite (mem_of_getElem? hj) hbody
  refine hwrite.callback (w := w) hplaced hj hk' fun i hi => ?_
  unfold Syncs.onSuccessfulJournalWrite
  dsimp only
  rw [if_pos hi]

theorem Kept.step (h : Kept s) (ho : Ordered s) (hcare : Careful l s) (hstep : Syncs.step l s = some s') : Kept s' := by
  replace hstep := act_of_step hstep
  cases l with
  | log w ino =>
    obtain ⟨hloc, hstep⟩ := ite_none_right_eq_some.1 hstep
    cases hstep
    exact h.addChange hcare hloc none fun h => by cases h
  | writeFileInode w ino =>
    obtain ⟨hloc, hstep⟩ := ite_none_right_eq_some.1 hstep
    cases hstep
    have hins := h.grow (w := w) (d := insert ino (s.worker w).dirtyInodeSet) (Finset.subset_insert ..)
      (Finset.Subset.refl _)
    refine hins.mark (w := w) hloc ?_
    rw [setWorker_self]
    exact Finset.mem_insert_self ..
  | ownerDeallocResources w ino bitmaps =>
    cases hstep
    exact h.ownerDeallocResources hcare.1 hcare.2
  | load w ino =>
    obtain ⟨hloc, hstep⟩ := ite_none_right_eq_some.1 hstep
    cases hstep
    exact h.load hloc
  | exportInode w ino =>
    obtain ⟨hloc, hstep⟩ := ite_none_right_eq_some.1 hstep
    cases hstep
    exact h.exportInode hloc.1
  | importInode w ino =>
    unfold Syncs.act at hstep
    dsimp only at hstep
    split at hstep
    · next dirty unlinked hloc =>
      cases hstep
      exact h.importInode hloc
    · cases hstep
  | accept w client stale =>
    obtain ⟨k', hk', rfl⟩ := map_eq_some_iff.1 hstep
    exact h.accept (ho.placed w) hk'
  | goOn w input =>
    obtain ⟨k', hk', rfl⟩ := map_eq_some_iff.1 hstep
    exact h.goOn (ho.placed w) hcare.1 hcare.2 hk'
  | ready w =>
    obtain ⟨k', hk', rfl⟩ := map_eq_some_iff.1 hstep
    unfold SyncWorker.ready at hk'
    split at hk'
    · cases hk'
    · rw [← Option.some.inj hk']
      exact h.still rfl rfl rfl rfl
  | flushDone w r =>
    obtain ⟨k', hk', rfl⟩ := map_eq_some_iff.1 hstep
    exact h.flushDone hk'
  | readDone w read =>
    obtain ⟨k', hk', rfl⟩ := map_eq_some_iff.1 hstep
    unfold SyncWorker.readDone at hk'
    split at hk'
    · rw [← Option.some.inj hk']
      exact h.still rfl rfl rfl rfl
    · cases hk'
  | serialize w j =>
    obtain ⟨e, hj, hstep⟩ := bind_eq_some_iff.1 hstep
    split at hstep
    · cases hstep
      exact h.serialize hj
    · cases hstep
  | succeed w j =>
    obtain ⟨e, hj, hstep⟩ := bind_eq_some_iff.1 hstep
    obtain ⟨body, hbody, hstep⟩ := bind_eq_some_iff.1 hstep
    obtain ⟨k', hk', rfl⟩ := map_eq_some_iff.1 hstep
    exact h.succeed (ho.placed w) hj hbody hk'
  | fail w j =>
    obtain ⟨e, hj, hstep⟩ := bind_eq_some_iff.1 hstep
    obtain ⟨k', hk', rfl⟩ := map_eq_some_iff.1 hstep
    exact h.callback (ho.placed w) hj hk' (hcare e hj)

end Ufs.Proof.Sync
