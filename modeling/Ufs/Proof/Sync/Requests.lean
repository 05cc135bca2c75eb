import Ufs.Impl.Sync

/-!
# The requests of a worker that syncs

A request of a worker is in a call that has not returned, in one of the queues, with a flush or a
read, with the syncunlinked that a syncall started, or in the journal's hands: in one of these
places, once, and in a state that goes with the place (`Sound`). While a function works on a request
it has it in hand (`held`); taking it from its place (`Sound.take`) and putting it in another
(`Sound.put`, `Sound.journal`, `Sound.drop`) are the halves of every move. `Outcome` lists what
becomes of a request in hand.
-/

namespace Ufs.Proof.Sync

open Impl
open Function (update update_of_ne update_self update_eq_self update_idem)
open SyncWorker (IsFsyncState DividesInto call recordBatchInoAppFsyncDone setReq submitBatch goOn)
open Prod (snd)
open List Option
open SyncEntry (req)

/-- Where a request can be. -/
inductive Place where
  | processReq
  | processSyncall
  | processSyncunlinked
  | syncallQueue
  | syncunlinkedQueue
  | ctx
  | ready
  | flush
  | read
deriving DecidableEq

/-- The place of a request that a call is about. -/
def frameToken : Frame → Option (Place × ℕ)
  | .processReq r => some (.processReq, r)
  | .processSyncall r => some (.processSyncall, r)
  | .processSyncunlinked r => some (.processSyncunlinked, r)
  | .onFsReqCompletion => none

/-- The requests in their places, but for those in the journal's hands. -/
def tokens (k : SyncWorker) : List (Place × ℕ) :=
  k.calls.filterMap frameToken ++ k.syncallRequests.map (Place.syncallQueue, ·) ++
    k.syncunlinkedRequests.map (Place.syncunlinkedQueue, ·) ++ k.localReqCtxs.map (Place.ctx, ·) ++
    k.readyReqs.map (Place.ready, ·) ++ k.flushWaits.map (Place.flush, ·) ++
    k.blockReads.map fun read => (Place.read, read.1)

/-- 1 in the states in which the request waits for the journal. -/
def inJournal : SyncState → ℕ
  | .fsyncJournal | .syncBatchesInprogress => 1
  | _ => 0

/-- How many entries of a request are in the journal's hands. -/
def pending (q : SyncReq) : ℕ :=
  match q.state with
  | .fsyncJournal => 1
  | .syncBatchesInprogress => q.syncBatchesCreated - q.syncBatchesCompleted
  | _ => 0

/-- The states of a request at each place. -/
def Allowed : Place → SyncState → Prop
  | .processReq, σ => inJournal σ = 0 ∧ σ ≠ .fsyncDataSyncWait
  | .processSyncall, σ => σ = .syncallGuard ∨ σ = .syncallInit ∨ σ = .syncallErr
  | .processSyncunlinked, σ => σ = .syncunlinkedGuard
  | .syncallQueue, σ => σ = .syncallGuard
  | .syncunlinkedQueue, σ => σ = .syncunlinkedGuard
  | .ctx, σ => σ = .syncallInit
  | .ready, σ => σ = .fsyncDataBio ∨ σ = .fsyncDataSyncDone ∨ σ = .syncallInit ∨ σ = .syncallErr ∨
      σ = .syncBatchesComplete
  | .flush, σ => σ = .fsyncDataSyncWait
  | .read, σ => σ = .fsyncDataSyncDone

def Typed : SyncType → SyncState → Prop
  | .fsync, σ => IsFsyncState σ
  | .syncall, σ => IsFsyncState σ ∨ σ = .syncallGuard ∨ σ = .syncallInit ∨ σ = .syncallErr
  | .syncunlinked _, σ => σ = .syncunlinkedGuard ∨ σ = .syncBatchesInprogress ∨ σ = .syncBatchesComplete

/-- Every request that is there is in hand, in one place, or in the journal's hands, and only once. -/
structure Sound (held : List ℕ) (k : SyncWorker) : Prop where
  fresh (r : ℕ) : k.nextReq ≤ r → k.req r = none ∧ r ∉ held ∧ r ∉ (tokens k).map Prod.snd ∧
    r ∉ k.entries.map SyncEntry.req
  once (r : ℕ) (q : SyncReq) : k.req r = some q →
    held.count r + ((tokens k).map Prod.snd).count r + inJournal q.state = 1
  allowed (p : Place) (r : ℕ) (q : SyncReq) : (p, r) ∈ tokens k → k.req r = some q → Allowed p q.state
  typed (r : ℕ) (q : SyncReq) : k.req r = some q → Typed q.type q.state
  entries (r : ℕ) (q : SyncReq) : k.req r = some q → (k.entries.map SyncEntry.req).count r = pending q
  live (e : SyncEntry) : e ∈ k.entries →
    ∃ q, k.req e.req = some q ∧ (e.batched = true ↔ q.state = .syncBatchesInprogress)
  progress (r : ℕ) (q : SyncReq) : k.req r = some q → q.state = .syncBatchesInprogress →
    q.syncBatchesCompleted < q.syncBatchesCreated

variable {held : List ℕ} {k k' : SyncWorker} {r : ℕ} {q q' : SyncReq} {p : Place}

theorem inJournal_of_allowed {σ : SyncState} (h : Allowed p σ) : inJournal σ = 0 := by
  cases p with
  | processReq => exact h.1
  | processSyncall => rcases h with rfl | rfl | rfl <;> rfl
  | ready => rcases h with rfl | rfl | rfl | rfl | rfl <;> rfl
  | _ => cases h; rfl

theorem pending_of_inJournal (h : inJournal q.state = 0) : pending q = 0 := by
  unfold pending
  split <;> simp_all [inJournal]

theorem of_update {α : Type} {f : ℕ → Option α} {r' : ℕ} {x : Option α} {y : α} (h : update f r x r' = some y) :
    r' = r ∧ x = some y ∨ r' ≠ r ∧ f r' = some y := by
  rcases eq_or_ne r' r with rfl | hne
  · rw [update_self] at h
    exact .inl ⟨rfl, h⟩
  · rw [update_of_ne hne] at h
    exact .inr ⟨hne, h⟩

/-! ## In hand -/

theorem Sound.held_eq (h : Sound (r :: held) k) (hq : k.req r = some q) :
    r ∉ held ∧ r ∉ (tokens k).map snd ∧ inJournal q.state = 0 := by
  have honce := h.once r q hq
  rw [count_cons_self] at honce
  refine ⟨?_, ?_, by omega⟩
  · rw [← count_eq_zero]; omega
  · rw [← count_eq_zero]; omega

theorem Sound.held_entry (h : Sound (r :: held) k) (hq : k.req r = some q) : r ∉ k.entries.map req := by
  rw [← count_eq_zero, h.entries r q hq]
  exact pending_of_inJournal (h.held_eq hq).2.2

theorem Sound.congr (h : Sound held k) (hreq : k'.req = k.req) (hnext : k'.nextReq = k.nextReq)
    (hentries : k'.entries = k.entries) (htokens : tokens k' = tokens k) : Sound held k' where
  fresh := by rw [hreq, hnext, hentries, htokens]; exact h.fresh
  once := by rw [hreq, htokens]; exact h.once
  allowed := by rw [hreq, htokens]; exact h.allowed
  typed := by rw [hreq]; exact h.typed
  entries := by rw [hreq, hentries]; exact h.entries
  live := by rw [hreq, hentries]; exact h.live
  progress := by rw [hreq]; exact h.progress

theorem Sound.lt (h : Sound held k) (hq : k.req r = some q) : r < k.nextReq := by
  by_contra hge
  rw [(h.fresh r (Nat.not_lt.1 hge)).1] at hq
  cases hq

/-- Only one request changes, with its tokens and its entries; for this one there are the facts to show. -/
theorem Sound.change {held' : List ℕ} {x : Option SyncReq} {a b l : List (Place × ℕ)} {c d m : List SyncEntry}
    (h : Sound held k)
    (hreq : k'.req = update k.req r x) (hnext : k.nextReq ≤ k'.nextReq) (hr : r < k'.nextReq)
      (hheld : ∀ r', r' ≠ r → held'.count r' = held.count r')
    (htok : (tokens k).Perm (a ++ l)) (htok' : (tokens k').Perm (b ++ l)) (hab : ∀ t ∈ a ++ b, t.2 = r)
    (hent : k.entries.Perm (c ++ m)) (hent' : k'.entries.Perm (d ++ m)) (hcd : ∀ e ∈ c ++ d, e.req = r)
    (hat : ∀ q, x = some q → held'.count r + ((tokens k').map snd).count r + inJournal q.state = 1 ∧
      (∀ p, (p, r) ∈ tokens k' → Allowed p q.state) ∧ Typed q.type q.state ∧ (k'.entries.map req).count r = pending q ∧
      (q.state = .syncBatchesInprogress → q.syncBatchesCompleted < q.syncBatchesCreated))
    (hlive : ∀ e ∈ k'.entries, e.req = r → ∃ q, x = some q ∧
      (e.batched = true ↔ q.state = .syncBatchesInprogress)) : Sound held' k' := by
  have hzero {α : Type} {f : α → ℕ} {l l' : List α} (hl : ∀ t ∈ l ++ l', f t = r) {r' : ℕ} (hne : r' ≠ r) :
      (l.map f).count r' = 0 ∧ (l'.map f).count r' = 0 := by
    refine ⟨count_eq_zero.2 fun hin => ?_, count_eq_zero.2 fun hin => ?_⟩
    · obtain ⟨t, ht, rfl⟩ := List.mem_map.1 hin
      exact hne (hl t (mem_append_left _ ht))
    · obtain ⟨t, ht, rfl⟩ := List.mem_map.1 hin
      exact hne (hl t (mem_append_right _ ht))
  have htokens {r' : ℕ} (hne : r' ≠ r) : ((tokens k').map snd).count r' = ((tokens k).map snd).count r' := by
    rw [(htok'.map snd).count_eq, (htok.map snd).count_eq, map_append, map_append,
      count_append, count_append, (hzero hab hne).1, (hzero hab hne).2]
  have hentries {r' : ℕ} (hne : r' ≠ r) : (k'.entries.map req).count r' = (k.entries.map req).count r' := by
    rw [(hent'.map req).count_eq, (hent.map req).count_eq, map_append, map_append,
      count_append, count_append, (hzero hcd hne).1, (hzero hcd hne).2]
  have hold {r' : ℕ} {q1 : SyncReq} (hq1 : k'.req r' = some q1) : r' = r ∧ x = some q1 ∨ r' ≠ r ∧ k.req r' = some q1 :=
    of_update (hreq ▸ hq1)
  refine ⟨fun r' hr' => ?_, fun r' q1 hq1 => ?_, fun p' r' q1 hmem hq1 => ?_, fun r' q1 hq1 => ?_,
    fun r' q1 hq1 => ?_, fun e he => ?_, fun r' q1 hq1 hs => ?_⟩
  · have hne : r' ≠ r := by omega
    obtain ⟨hnone, hh, ht, he⟩ := h.fresh r' (by omega)
    rw [← count_eq_zero] at hh ht he
    rw [hreq, update_of_ne hne]
    exact ⟨hnone, count_eq_zero.1 ((hheld r' hne).trans hh), count_eq_zero.1 ((htokens hne).trans ht),
      count_eq_zero.1 ((hentries hne).trans he)⟩
  · rcases hold hq1 with ⟨rfl, hx⟩ | ⟨hne, hq1⟩
    · exact (hat q1 hx).1
    · rw [hheld r' hne, htokens hne]
      exact h.once r' q1 hq1
  · rcases hold hq1 with ⟨rfl, hx⟩ | ⟨hne, hq1⟩
    · exact (hat q1 hx).2.1 p' hmem
    · refine h.allowed p' r' q1 (htok.mem_iff.2 (mem_append_right _ ?_)) hq1
      exact (mem_append.1 (htok'.mem_iff.1 hmem)).resolve_left fun hin => hne (hab _ (mem_append_right _ hin))
  · rcases hold hq1 with ⟨rfl, hx⟩ | ⟨-, hq1⟩
    · exact (hat q1 hx).2.2.1
    · exact h.typed r' q1 hq1
  · rcases hold hq1 with ⟨rfl, hx⟩ | ⟨hne, hq1⟩
    · exact (hat q1 hx).2.2.2.1
    · rw [hentries hne]
      exact h.entries r' q1 hq1
  · rcases eq_or_ne e.req r with heq | hne
    · obtain ⟨q1, hx, hb⟩ := hlive e he heq
      exact ⟨q1, by rw [hreq, heq, update_self]; exact hx, hb⟩
    · have hmem := (mem_append.1 (hent'.mem_iff.1 he)).resolve_left fun hin => hne (hcd e (mem_append_right _ hin))
      obtain ⟨q1, hq1, hb⟩ := h.live e (hent.mem_iff.2 (mem_append_right _ hmem))
      exact ⟨q1, by rw [hreq, update_of_ne hne]; exact hq1, hb⟩
  · rcases hold hq1 with ⟨rfl, hx⟩ | ⟨-, hq1⟩
    · exact (hat q1 hx).2.2.2.2 hs
    · exact h.progress r' q1 hq1 hs

theorem Sound.take (h : Sound held k) (hreq : k'.req = k.req) (hnext : k'.nextReq = k.nextReq)
    (hentries : k'.entries = k.entries) (htokens : (tokens k).Perm ((p, r) :: tokens k')) : Sound (r :: held) k' := by
  have hlt : r < k.nextReq := by
    by_contra hge
    exact (h.fresh r (Nat.not_lt.1 hge)).2.2.1 (mem_map_of_mem (htokens.mem_iff.2 (mem_cons_self ..)))
  have hcount := (htokens.map snd).count_eq r
  rw [map_cons, count_cons_self] at hcount
  refine h.change (x := k.req r) (a := [(p, r)]) (b := []) (c := []) (d := []) (by rw [hreq, update_eq_self]) hnext.ge
    (hnext ▸ hlt) (fun r' hne => count_cons_of_ne hne.symm) htokens (.refl _) (by simp) (.of_eq hentries.symm)
    (.refl _) (by simp) (fun q hq => ⟨?_, fun p' hp' => ?_, h.typed r q hq, ?_, h.progress r q hq⟩) fun e he heq => ?_
  · have honce := h.once r q hq
    rw [count_cons_self]
    omega
  · exact h.allowed p' r q (htokens.mem_iff.2 (mem_cons_of_mem _ hp')) hq
  · rw [hentries]
    exact h.entries r q hq
  · rw [hentries] at he
    obtain ⟨q, hq, hb⟩ := h.live e he
    exact ⟨q, heq ▸ hq, hb⟩

section

variable (h : Sound (r :: held) k) (hq : k.req r = some q) (hreq : k'.req = update k.req r (some q'))
    (hnext : k'.nextReq = k.nextReq)

include h hq hreq hnext

theorem Sound.settle {τ : List Place} {ε : List SyncEntry} (htokens : (tokens k').Perm (τ.map (·, r) ++ tokens k))
    (hentries : k'.entries = k.entries ++ ε) (hps : ∀ p ∈ τ, Allowed p q'.state)
    (hes : ∀ e ∈ ε, e.req = r ∧ (e.batched = true ↔ q'.state = .syncBatchesInprogress))
    (honce : τ.length + inJournal q'.state = 1) (hpending : pending q' = ε.length)
    (hprogress : q'.state = .syncBatchesInprogress → ε ≠ []) (htyped : Typed q'.type q'.state) : Sound held k' := by
  obtain ⟨hheld, htok, -⟩ := h.held_eq hq
  have hent := h.held_entry hq
  have hplaces : ((τ.map (·, r)).map snd).count r = τ.length := by
    rw [List.map_map, count_eq_length.2 fun x hx => ?_, length_map]
    obtain ⟨p, -, rfl⟩ := List.mem_map.1 hx
    rfl
  have hreqs : (ε.map req).count r = ε.length := by
    rw [count_eq_length.2 fun x hx => ?_, length_map]
    obtain ⟨e, he, rfl⟩ := List.mem_map.1 hx
    exact (hes e he).1.symm
  refine h.change (a := []) (c := []) hreq hnext.ge (hnext ▸ h.lt hq) (fun r' hne => (count_cons_of_ne hne.symm).symm)
    (.refl _) htokens (by simp) (.refl _) (by rw [hentries]; exact perm_append_comm) (fun e he => (hes e he).1)
    (fun q1 hq1 => ?_) fun e he heq => ?_
  · cases hq1
    refine ⟨?_, fun p hp => ?_, htyped, ?_, fun hs => ?_⟩
    · rw [(htokens.map snd).count_eq, map_append, count_append, hplaces, count_eq_zero.2 hheld, count_eq_zero.2 htok]
      omega
    · rcases mem_append.1 (htokens.mem_iff.1 hp) with hin | hin
      · obtain ⟨p', hp', heq⟩ := List.mem_map.1 hin
        cases heq
        exact hps _ hp'
      · exact absurd (mem_map_of_mem hin) htok
    · rw [hentries, map_append, count_append, hreqs, count_eq_zero.2 hent, hpending, Nat.zero_add]
    · have hlen := length_pos_iff.2 (hprogress hs)
      unfold pending at hpending
      rw [hs] at hpending
      dsimp only at hpending
      omega
  · rw [hentries, mem_append] at he
    exact ⟨q', rfl, (hes e (he.resolve_left fun hin => hent (heq ▸ mem_map_of_mem hin))).2⟩

theorem Sound.put (hentries : k'.entries = k.entries) (htokens : (tokens k').Perm ((p, r) :: tokens k))
    (hallowed : Allowed p q'.state) (htyped : Typed q'.type q'.state) : Sound held k' := by
  have hj := inJournal_of_allowed hallowed
  refine h.settle hq hreq hnext (τ := [p]) (ε := []) htokens (by rw [hentries, append_nil])
    (fun p' hp' => ?_) (nofun) ?_ (pending_of_inJournal hj) (fun hs => ?_) htyped
  · cases mem_singleton.1 hp'
    exact hallowed
  · rw [hj]; rfl
  · rw [hs] at hj
    cases hj

end

theorem Sound.drop (h : Sound (r :: held) k) (hq : k.req r = some q) (hreq : k'.req = update k.req r none)
    (hnext : k'.nextReq = k.nextReq) (hentries : k'.entries = k.entries) {τ : List Place}
    (htokens : (tokens k').Perm (τ.map (·, r) ++ tokens k)) : Sound held k' := by
  refine h.change (a := []) (c := []) (d := []) hreq hnext.ge (hnext ▸ h.lt hq)
    (fun r' hne => (count_cons_of_ne hne.symm).symm) (.refl _) htokens (by simp) (.refl _) (.of_eq hentries) (by simp)
    (nofun) fun e he heq => ?_
  rw [hentries] at he
  exact absurd (heq ▸ mem_map_of_mem he) (h.held_entry hq)

theorem Sound.new (h : Sound held k) (hreq : k'.req = update k.req k.nextReq (some q'))
    (hnext : k'.nextReq = k.nextReq + 1) (hentries : k'.entries = k.entries) (htokens : tokens k' = tokens k)
    (hj : inJournal q'.state = 0) (htyped : Typed q'.type q'.state) : Sound (k.nextReq :: held) k' := by
  obtain ⟨-, hheld, htok, hent⟩ := h.fresh k.nextReq (Nat.le_refl _)
  refine h.change (a := []) (b := []) (c := []) (d := []) hreq (by omega) (by omega)
    (fun r' hne => count_cons_of_ne hne.symm) (.refl _) (.of_eq htokens) (by simp) (.refl _) (.of_eq hentries) (by simp)
    (fun q1 hq1 => ?_) fun e he heq => ?_
  · cases hq1
    rw [htokens, hentries]
    refine ⟨?_, fun p hp => absurd (mem_map_of_mem hp) htok, htyped, ?_, fun hs => ?_⟩
    · rw [count_cons_self, count_eq_zero.2 hheld, count_eq_zero.2 htok, hj]
    · rw [pending_of_inJournal hj]
      exact count_eq_zero.2 hent
    · rw [hs] at hj
      cases hj
  · rw [hentries] at he
    exact absurd (heq ▸ mem_map_of_mem he) hent

/-! ## Places -/

theorem count_tokens (k : SyncWorker) (t : Place × ℕ) :
    (tokens k).count t = (k.calls.filterMap frameToken).count t +
      (k.syncallRequests.map (Place.syncallQueue, ·)).count t +
      (k.syncunlinkedRequests.map (Place.syncunlinkedQueue, ·)).count t + (k.localReqCtxs.map (Place.ctx, ·)).count t +
      (k.readyReqs.map (Place.ready, ·)).count t + (k.flushWaits.map (Place.flush, ·)).count t +
      (k.blockReads.map fun read => (Place.read, read.1)).count t := by
  simp only [tokens, count_append]

theorem tokens_call {f : Frame} (h : frameToken f = some (p, r)) : tokens (k.call f) = (p, r) :: tokens k := by
  simp only [tokens, call, filterMap_cons, h, cons_append]

theorem perm_tokens {α : Type} {g : α → Place × ℕ} {l l' q : List α} (h : l'.Perm (l ++ q))
    (hk : ∀ t, (tokens k').count t + (q.map g).count t = (tokens k).count t + (l'.map g).count t) :
      (tokens k').Perm (l.map g ++ tokens k) := by
  rw [perm_iff_count]
  intro t
  have hl := (h.map g).count_eq t
  have ht := hk t
  rw [map_append, count_append] at hl
  rw [count_append]
  omega

section

variable {l l' : List ℕ}

theorem tokens_ready (h : l'.Perm (l ++ k.readyReqs)) : (tokens { k with readyReqs := l' }).Perm
    (l.map (Place.ready, ·) ++ tokens k) :=
  perm_tokens h fun t => by rw [count_tokens, count_tokens]; dsimp only; omega

theorem tokens_syncallQueue (h : l'.Perm (l ++ k.syncallRequests)) :
    (tokens { k with syncallRequests := l' }).Perm (l.map (Place.syncallQueue, ·) ++ tokens k) :=
  perm_tokens h fun t => by rw [count_tokens, count_tokens]; dsimp only; omega

theorem tokens_syncunlinkedQueue (h : l'.Perm (l ++ k.syncunlinkedRequests)) :
    (tokens { k with syncunlinkedRequests := l' }).Perm (l.map (Place.syncunlinkedQueue, ·) ++ tokens k) :=
  perm_tokens h fun t => by rw [count_tokens, count_tokens]; dsimp only; omega

theorem tokens_ctx (h : l'.Perm (l ++ k.localReqCtxs)) : (tokens { k with localReqCtxs := l' }).Perm
    (l.map (Place.ctx, ·) ++ tokens k) :=
  perm_tokens h fun t => by rw [count_tokens, count_tokens]; dsimp only; omega

theorem tokens_flush (h : l'.Perm (l ++ k.flushWaits)) : (tokens { k with flushWaits := l' }).Perm
    (l.map (Place.flush, ·) ++ tokens k) :=
  perm_tokens h fun t => by rw [count_tokens, count_tokens]; dsimp only; omega

end

theorem tokens_read {l l' : List (ℕ × Finset ℕ)} (h : l'.Perm (l ++ k.blockReads)) :
    (tokens { k with blockReads := l' }).Perm ((l.map fun read => (Place.read, read.1)) ++ tokens k) :=
  perm_tokens h fun t => by rw [count_tokens, count_tokens]; dsimp only; omega

/-! ## What completions do to the worker -/

def reset (k : SyncWorker) (inodes : List ℕ) : SyncWorker :=
  { k with
    dirtyInodeSet := k.dirtyInodeSet \ inodes.toFinset
    unlinkedInodeSet := k.unlinkedInodeSet \ inodes.toFinset
    inoHasActiveAppFsyncSet := k.inoHasActiveAppFsyncSet \ inodes.toFinset }

variable {v : InodeView} {input : CallInput}

theorem reset_reset (k : SyncWorker) (l l' : List ℕ) : reset (reset k l) l' = reset k (l ++ l') := by
  simp only [reset, toFinset_append, sdiff_sdiff_left, Finset.sup_eq_union]

theorem recordInoAppFsyncDone_eq_some {ino : ℕ} : k.recordInoAppFsyncDone v ino = some k' ↔ v.has ino = true ∧
    reset k [ino] = k' := by
  unfold SyncWorker.recordInoAppFsyncDone SyncWorker.resetFileIndoeDirty
  by_cases h : v.has ino = true
  · rw [if_pos h, some_inj]
    simp only [h, true_and, reset, toFinset_cons, toFinset_nil, insert_empty_eq, Finset.sdiff_singleton_eq_erase]
  · simp [h]

variable {inodes : List ℕ}

theorem recordBatchInoAppFsyncDone_eq_some :
    recordBatchInoAppFsyncDone v inodes k = some k' ↔ (∀ i ∈ inodes, v.has i = true) ∧ reset k inodes = k' := by
  induction inodes generalizing k with
  | nil => simp [recordBatchInoAppFsyncDone, reset]
  | cons ino inodes ih =>
    unfold recordBatchInoAppFsyncDone
    simp only [bind_eq_some_iff, recordInoAppFsyncDone_eq_some, ih, forall_mem_cons]
    constructor
    · intro ⟨k1, ⟨hhas, hk1⟩, hall, hk'⟩
      refine ⟨⟨hhas, hall⟩, ?_⟩
      rw [← hk', ← hk1, reset_reset, singleton_append]
    · intro ⟨⟨hhas, hall⟩, hk'⟩
      refine ⟨reset k [ino], ⟨hhas, rfl⟩, hall, ?_⟩
      rw [reset_reset, singleton_append, hk']

/-- What `onFdataSyncComplete` leaves. -/
def fdataSynced (k : SyncWorker) (r : ℕ) (q : SyncReq) (success : Bool) : SyncWorker :=
  let k := reset k [q.fileIno]
  let q := { q with hasError := q.hasError || !success }
  if q.type = .syncall then
    (k.setReq r { q with state := if success then .syncallInit else .syncallErr }).submitReadyReq r
  else k.submitFsReqCompletion r q

theorem onFdataSyncComplete_eq_some {success : Bool} :
    k.onFdataSyncComplete v r q success = some k' ↔ v.has q.fileIno = true ∧ fdataSynced k r q success = k' := by
  unfold SyncWorker.onFdataSyncComplete fdataSynced
  simp only [map_eq_some_iff, recordInoAppFsyncDone_eq_some]
  constructor
  · intro ⟨k1, ⟨hhas, hk1⟩, hk'⟩
    refine ⟨hhas, ?_⟩
    rw [← hk', ← hk1]
    cases success <;> simp
  · intro ⟨hhas, hk'⟩
    refine ⟨_, ⟨hhas, rfl⟩, ?_⟩
    rw [← hk']
    cases success <;> simp

def batchDone (q : SyncReq) (success : Bool) : SyncReq :=
  { q with
    syncBatchesCompleted := q.syncBatchesCompleted + 1
    syncBatchesFailed := if success then q.syncBatchesFailed else q.syncBatchesFailed + 1
    state := if q.syncBatchesCompleted + 1 = q.syncBatchesCreated then .syncBatchesComplete else q.state }

theorem onBatchedJournalWriteComplete_eq_some (hq : k.req r = some q) {success : Bool} :
    k.onBatchedJournalWriteComplete v r inodes success = some k' ↔ (∀ i ∈ inodes, v.has i = true) ∧
      { (reset k inodes).setReq r (batchDone q success) with
        readyReqs := k.readyReqs ++ if q.syncBatchesCompleted + 1 = q.syncBatchesCreated then [r] else [] } = k' := by
  unfold SyncWorker.onBatchedJournalWriteComplete
  simp only [bind_eq_some_iff, map_eq_some_iff, recordBatchInoAppFsyncDone_eq_some]
  have hreq : (reset k inodes).req r = some q := hq
  constructor
  · intro ⟨k1, ⟨hhas, hk1⟩, q1, hq1, hk'⟩
    refine ⟨hhas, ?_⟩
    rw [← hk1, hreq] at hq1
    cases hq1
    rw [← hk', ← hk1]
    by_cases hlast : q.syncBatchesCompleted + 1 = q.syncBatchesCreated
    · simp only [hlast, if_true, batchDone]
      rfl
    · simp only [hlast, if_false, batchDone, append_nil]
      rfl
  · intro ⟨hhas, hk'⟩
    refine ⟨_, ⟨hhas, rfl⟩, q, hreq, ?_⟩
    rw [← hk']
    by_cases hlast : q.syncBatchesCompleted + 1 = q.syncBatchesCreated
    · simp only [hlast, if_true, batchDone]
      rfl
    · simp only [hlast, if_false, batchDone, append_nil]
      rfl

/-! ## Batches -/

def failedInodes (batches : List (List ℕ × Bool)) : List ℕ := (batches.filter (·.2)).flatMap Prod.fst

def queuedEntries (r : ℕ) (batches : List (List ℕ × Bool)) : List SyncEntry :=
  (batches.filter (!·.2)).map fun batch => ⟨r, true, batch.1, none⟩

/-- A request after the submission of batches of which some fail. -/
def batchesFailed (q : SyncReq) (n : ℕ) : SyncReq :=
  { q with
    syncBatchesCompleted := q.syncBatchesCompleted + n
    syncBatchesFailed := q.syncBatchesFailed + n
    state := if n ≠ 0 ∧ q.syncBatchesCompleted + n = q.syncBatchesCreated then .syncBatchesComplete else q.state }

/-- What submissions leave: some inodes were reset, some entries are in the journal's hands, and the request may be
ready. -/
def submitted (k : SyncWorker) (r : ℕ) (q : SyncReq) (active : Finset ℕ) (inodes : List ℕ) (ε : List SyncEntry)
    (ready : List ℕ) : SyncWorker :=
  { (reset k inodes).setReq r q with
    inoHasActiveAppFsyncSet := active
    entries := k.entries ++ ε
    readyReqs := k.readyReqs ++ ready }

theorem submitted_submitted (q₁ : SyncReq) (active active1 : Finset ℕ) (inodes inodes1 : List ℕ)
    (ε es1 : List SyncEntry) (ready ready1 : List ℕ) : submitted
      (submitted k r q₁ active1 inodes1 es1 ready1) r q active inodes ε ready =
      submitted k r q active (inodes1 ++ inodes) (es1 ++ ε) (ready1 ++ ready) := by
  simp only [submitted, reset, setReq, update_idem, toFinset_append, sdiff_sdiff_left, Finset.sup_eq_union,
    append_assoc]

def readyAfter (q : SyncReq) (n r : ℕ) : List ℕ :=
  if n ≠ 0 ∧ q.syncBatchesCompleted + n = q.syncBatchesCreated then [r] else []

theorem submitBatch_queued (hq : k.req r = some q) : submitBatch v r k (inodes, false) =
      some (submitted k r q (k.inoHasActiveAppFsyncSet ∪ inodes.toFinset) [] [⟨r, true, inodes, none⟩] []) := by
  have hreq : update k.req r (some q) = k.req := by rw [← hq, update_eq_self]
  simp [submitBatch, submitted, reset, setReq, hreq]

theorem submitBatch_failed (hq : k.req r = some q) (h : submitBatch v r k (inodes, true) = some k') :
    (∀ i ∈ inodes, v.has i = true) ∧ k' = submitted k r (batchesFailed q 1)
      (k.inoHasActiveAppFsyncSet \ inodes.toFinset) inodes []
        (readyAfter q 1 r) := by
  unfold submitBatch at h
  rw [if_pos rfl] at h
  have hspec := fun hq => (onBatchedJournalWriteComplete_eq_some (q := q) hq).1 h
  obtain ⟨hhas, rfl⟩ := hspec hq
  refine ⟨hhas, ?_⟩
  simp only [submitted, reset, setReq, batchDone, batchesFailed, readyAfter, Finset.union_sdiff_right,
    append_nil, ne_eq, one_ne_zero, not_false_eq_true, true_and, Bool.false_eq_true, if_false]

theorem batchesFailed_batchesFailed (q : SyncReq) (n : ℕ) (h : q.syncBatchesCompleted + 1 + n ≤ q.syncBatchesCreated) :
    batchesFailed (batchesFailed q 1) n = batchesFailed q (1 + n) := by
  have hs : (batchesFailed (batchesFailed q 1) n).state = (batchesFailed q (1 + n)).state := by
    dsimp only [batchesFailed]
    by_cases hn : n = 0
    · simp [hn]
    · simp [hn, show q.syncBatchesCompleted + 1 ≠ q.syncBatchesCreated by omega, Nat.add_assoc]
  simp only [batchesFailed, Nat.add_assoc] at hs ⊢
  rw [hs]

theorem submitBatches_spec {batches : List (List ℕ × Bool)} (hq : k.req r = some q)
    (hle : q.syncBatchesCompleted + batches.length ≤ q.syncBatchesCreated)
      (h : SyncWorker.submitBatches v r batches k = some k') :
    (∀ i ∈ failedInodes batches, v.has i = true) ∧
    ∃ active, k' = submitted k r (batchesFailed q (batches.filter (·.2)).length) active (failedInodes batches)
        (queuedEntries r batches) (readyAfter q (batches.filter (·.2)).length r) ∧
      ∀ i ∈ active, i ∈ k.inoHasActiveAppFsyncSet ∧ i ∉ failedInodes batches ∨ ∃ e ∈ queuedEntries r batches,
        i ∈ e.inodes := by
  induction batches generalizing k q with
  | nil =>
    have hk : k = k' := Option.some.inj h
    subst hk
    refine ⟨nofun, _, ?_, fun i hi => .inl ⟨hi, not_mem_nil⟩⟩
    have hreq : update k.req r (some q) = k.req := by rw [← hq, update_eq_self]
    simp [failedInodes, queuedEntries, batchesFailed, readyAfter, submitted, reset, setReq, hreq]
  | cons batch batches ih =>
    obtain ⟨k1, h1, h2⟩ := bind_eq_some_iff.1 h
    obtain ⟨inodes, fails⟩ := batch
    rw [length_cons] at hle
    cases fails with
    | false =>
      rw [submitBatch_queued hq, some_inj] at h1
      obtain ⟨hhas, active, hk', hactive⟩ := ih (k := k1) (q := q) (by rw [← h1]; exact update_self ..) (by omega) h2
      refine ⟨hhas, active, ?_, fun i hi => ?_⟩
      · rw [hk', ← h1, submitted_submitted]
        rfl
      · rcases hactive i hi with ⟨hin, hnot⟩ | ⟨e, he, hin⟩
        · rw [← h1] at hin
          rcases Finset.mem_union.1 hin with hin | hin
          · exact .inl ⟨hin, hnot⟩
          · exact .inr ⟨⟨r, true, inodes, none⟩, mem_cons_self .., List.mem_toFinset.1 hin⟩
        · exact .inr ⟨e, mem_cons_of_mem _ he, hin⟩
    | true =>
      obtain ⟨hhas1, hk1⟩ := submitBatch_failed hq h1
      have hfailed : failedInodes ((inodes, true) :: batches) = inodes ++ failedInodes batches := rfl
      have hqueued : queuedEntries r ((inodes, true) :: batches) = queuedEntries r batches := rfl
      have hlen : (((inodes, true) :: batches).filter (·.2)).length = 1 + (batches.filter (·.2)).length :=
        Nat.add_comm ..
      have hfilter := length_filter_le (·.2) batches
      obtain ⟨hhas, active, hk', hactive⟩ := ih (k := k1) (q := batchesFailed q 1)
        (by rw [hk1]; exact update_self ..) (by dsimp only [batchesFailed]; omega) h2
      have hready : readyAfter q 1 r ++ readyAfter (batchesFailed q 1) (batches.filter (·.2)).length r =
          readyAfter q (1 + (batches.filter (·.2)).length) r := by
        dsimp only [readyAfter, batchesFailed]
        by_cases hn : (batches.filter (·.2)).length = 0
        · simp [hn]
        · simp [hn, show q.syncBatchesCompleted + 1 ≠ q.syncBatchesCreated by omega, Nat.add_assoc]
      rw [hfailed, hqueued, hlen]
      refine ⟨fun i hi => (mem_append.1 hi).elim (hhas1 i) (hhas i), active, ?_, fun i hi => ?_⟩
      · rw [hk', hk1, submitted_submitted, batchesFailed_batchesFailed _ _ (by omega), hready, nil_append]
      · rcases hactive i hi with ⟨hin, hnot⟩ | hin
        · rw [hk1] at hin
          obtain ⟨hin, hout⟩ := Finset.mem_sdiff.1 hin
          exact .inl ⟨hin, fun h => (mem_append.1 h).elim (fun h => hout (List.mem_toFinset.2 h)) hnot⟩
        · exact .inr hin

/-! ## What becomes of a request in hand -/

/-- A syncall that comes to `SYNCALL_INIT`. -/
def Starts (k : SyncWorker) (q : SyncReq) : Prop :=
  q.state = .syncallGuard ∧ k.syncallInProgress = false ∨ q.state = .syncallInit

/-- An fsync that comes to `FSYNC_DATA_SYNC_DONE`, with the active fsyncs there are then. -/
def Syncing (k : SyncWorker) (q : SyncReq) (active : Finset ℕ) : Prop :=
  q.state = .fsyncDataBio ∧ active = insert q.fileIno k.inoHasActiveAppFsyncSet ∨
    q.state = .fsyncDataSyncDone ∧ active = k.inoHasActiveAppFsyncSet

def setActive (k : SyncWorker) (active : Finset ℕ) : SyncWorker := { k with inoHasActiveAppFsyncSet := active }

def begun (v : InodeView) (q : SyncReq) : SyncReq := { q with began := some ⟨v.nextChange, v.has⟩ }

def batching (v : InodeView) (q : SyncReq) (n : ℕ) : SyncReq :=
  { begun v q with
    state := .syncBatchesInprogress
    syncBatchesCreated := n
    syncBatchesCompleted := 0
    syncBatchesFailed := 0 }

/-- The submission of batches for the unlinked inodes, and what it leaves. -/
structure Batched (v : InodeView) (input : CallInput) (k : SyncWorker) (r : ℕ) (q : SyncReq) (k' : SyncWorker) :
    Prop where
  guard : q.state = .syncunlinkedGuard
  idle : k.syncunlinkedInProgress = false
  nonempty : k.unlinkedInodeSet ≠ ∅
  divides : DividesInto k.unlinkedInodeSet (input.batches.map Prod.fst)
  has : ∀ i ∈ k.unlinkedInodeSet, v.has i = true
  eq : ∃ active, k' = submitted { k with syncunlinkedInProgress := true } r
      (batchesFailed (batching v q input.batches.length) (input.batches.filter (·.2)).length) active
      (failedInodes input.batches) (queuedEntries r input.batches)
      (readyAfter (batching v q input.batches.length) (input.batches.filter (·.2)).length r) ∧
    ∀ i ∈ active, i ∈ k.inoHasActiveAppFsyncSet ∧ i ∉ failedInodes input.batches ∨
      ∃ e ∈ queuedEntries r input.batches, i ∈ e.inodes

/-- A syncunlinked comes to `SYNC_BATCHES_COMPLETE`: its last batch was done before, there is nothing to
be synced, or all batches failed at once. -/
inductive Completes (v : InodeView) (input : CallInput) (k : SyncWorker) (r : ℕ) (q : SyncReq) :
    SyncWorker → SyncReq → Prop where
  | later (hstate : q.state = .syncBatchesComplete) : Completes v input k r q k q
  | empty (hguard : q.state = .syncunlinkedGuard) (hidle : k.syncunlinkedInProgress = false)
      (hempty : k.unlinkedInodeSet = ∅) :
      Completes v input k r q
        ({ k with syncunlinkedInProgress := true }.setReq r { begun v q with state := .syncBatchesComplete })
        { begun v q with state := .syncBatchesComplete }
  | failed {k₁ : SyncWorker} (hbatched : Batched v input k r q k₁) (hall : queuedEntries r input.batches = []) :
      Completes v input k r q k₁
        (batchesFailed (batching v q input.batches.length) input.batches.length)

inductive Outcome (v : InodeView) (input : CallInput) (k : SyncWorker) (r : ℕ) (q : SyncReq) : SyncWorker → Prop where
  | again (hstate : q.state = .fsyncDataBio) :
      Outcome v input k r q ((setActive k (insert q.fileIno k.inoHasActiveAppFsyncSet)).submitReadyReq r)
  | flushed (hstate : q.state = .fsyncDataBio) :
      Outcome v input k r q
        { ((setActive k (insert q.fileIno k.inoHasActiveAppFsyncSet)).recordInoFsyncReqSubmitToDev q.fileIno).setReq r
            { q with state := .fsyncDataSyncWait } with
          flushWaits := k.flushWaits ++ [r] }
  | reads {active : Finset ℕ} (hsyncing : Syncing k q active) (hlog : v.logEntry q.fileIno ≠ [])
      (hbitmaps : (k.bitmapsToRead v q.fileIno).Nonempty) :
      Outcome v input k r q { (setActive k active).setReq r { q with state := .fsyncDataSyncDone } with
        blockReads := k.blockReads ++ [(r, k.bitmapsToRead v q.fileIno)] }
  | journals {active : Finset ℕ} (hsyncing : Syncing k q active) (hlog : v.logEntry q.fileIno ≠ []) :
      Outcome v input k r q { (setActive k active).setReq r { q with state := .fsyncJournal } with
        entries := k.entries ++ [⟨r, false, [q.fileIno], none⟩] }
  | synced {active : Finset ℕ} {success : Bool} (hsyncing : Syncing k q active)
      (hsuccess : if success then v.logEntry q.fileIno = [] else input.fails = true)
      (hhas : v.has q.fileIno = true) : Outcome v input k r q (fdataSynced (setActive k active) r q success)
  | waitsSyncall (hguard : q.state = .syncallGuard) (hflag : k.syncallInProgress = true) :
      Outcome v input k r q { k with syncallRequests := k.syncallRequests ++ [r] }
  | before (hstarts : Starts k q) (hunlinked : k.unlinkedInodeSet.Nonempty) :
      Outcome v input k r q
        (({ k with syncallInProgress := true }.setReq r { q with state := .syncallInit }).processSyncUnlinkedBeforeSyncall
          r input.stale)
  | picks (hstarts : Starts k q) (hunlinked : k.unlinkedInodeSet = ∅) (hpick : input.pick ∈ k.dirtyInodeSet)
      (hhas : v.has input.pick = true) :
      Outcome v input k r q (({ k with syncallInProgress := true }.setReq r
        { q with state := .fsyncDataBio, fileIno := input.pick }).submitReadyReq r)
  | lost (hstarts : Starts k q) (hunlinked : k.unlinkedInodeSet = ∅) (hpick : input.pick ∈ k.dirtyInodeSet)
      (hhas : v.has input.pick = false) :
      Outcome v input k r q ({ k with syncallInProgress := true }.setReq r { q with state := .syncallInit })
  | syncallDone (hstarts : Starts k q) (hunlinked : k.unlinkedInodeSet = ∅) (hdirty : k.dirtyInodeSet = ∅) :
      Outcome v input k r q (k.syncallComplete r q)
  | syncallErr (hstate : q.state = .syncallErr) : Outcome v input k r q
      (k.syncallComplete r { q with hasError := true })
  | waitsSyncunlinked (hguard : q.state = .syncunlinkedGuard) (hflag : k.syncunlinkedInProgress = true) :
      Outcome v input k r q { k with syncunlinkedRequests := k.syncunlinkedRequests ++ [r] }
  | batched {k' : SyncWorker} (hbatched : Batched v input k r q k') (hqueued : queuedEntries r input.batches ≠ []) :
      Outcome v input k r q k'
  | syncunlinkedDone {k₁ k' : SyncWorker} {q₁ : SyncReq} (hcompletes : Completes v input k r q k₁ q₁)
      (hdone : k₁.syncBatchesComplete r q₁ = some k') : Outcome v input k r q k'

theorem fsyncDataSyncDone_cases {active : Finset ℕ} (hsyncing : Syncing k q active)
    (h : (setActive k active).fsyncDataSyncDone v r q input = some k') : Outcome v input k r q k' := by
  unfold SyncWorker.fsyncDataSyncDone at h
  split at h
  · next hlog =>
    obtain ⟨hhas, rfl⟩ := onFdataSyncComplete_eq_some.1 h
    exact .synced hsyncing hlog hhas
  · next hlog =>
    dsimp only at h
    split at h
    · next hbitmaps =>
      cases h
      exact .reads hsyncing hlog hbitmaps
    · split at h
      · next hfails =>
        obtain ⟨hhas, rfl⟩ := onFdataSyncComplete_eq_some.1 h
        exact .synced hsyncing hfails hhas
      · cases h
        exact .journals hsyncing hlog

theorem processFdataSync_cases (hstate : q.state = .fsyncDataBio ∨ q.state = .fsyncDataSyncDone)
    (h : k.processFdataSync v r q input = some k') : Outcome v input k r q k' := by
  unfold SyncWorker.processFdataSync at h
  rcases hstate with hs | hs
  · rw [if_pos hs] at h
    dsimp only at h
    split at h
    · cases h
      exact .again hs
    · split at h
      · cases h
        exact .again hs
      · cases h
        exact .flushed hs
      · exact fsyncDataSyncDone_cases (.inl ⟨hs, rfl⟩) h
  · rw [if_neg (by rw [hs]; decide), if_pos hs] at h
    exact fsyncDataSyncDone_cases (.inr ⟨hs, rfl⟩) h

theorem syncallInit_cases (hstarts : Starts k q) (h : k.syncallInit v r q input = some k') :
    Outcome v input k r q k' := by
  unfold SyncWorker.syncallInit at h
  dsimp only at h
  split at h
  · next hunlinked =>
    cases h
    exact .before hstarts hunlinked
  · next hunlinked =>
    have hunlinked := Finset.not_nonempty_iff_eq_empty.1 hunlinked
    split at h
    · next hdirty =>
      cases h
      exact .syncallDone hstarts hunlinked hdirty
    · split at h
      · next hpick =>
        split at h
        · next hhas =>
          cases h
          exact .picks hstarts hunlinked hpick hhas
        · next hhas =>
          cases h
          exact .lost hstarts hunlinked hpick (Bool.not_eq_true _ ▸ hhas)
      · cases h

theorem processSyncall_cases (hstate : q.state = .syncallGuard ∨ q.state = .syncallInit ∨ q.state = .syncallErr)
    (h : k.processSyncall v r q input = some k') : Outcome v input k r q k' := by
  unfold SyncWorker.processSyncall at h
  rcases hstate with hs | hs | hs
  · rw [hs] at h
    dsimp only at h
    split at h
    · next hflag =>
      cases h
      exact .waitsSyncall hs hflag
    · next hflag => exact syncallInit_cases (.inl ⟨hs, Bool.not_eq_true _ ▸ hflag⟩) h
  · rw [hs] at h
    exact syncallInit_cases (.inr hs) h
  · rw [hs] at h
    cases h
    exact .syncallErr hs

theorem length_queuedEntries (r : ℕ) (batches : List (List ℕ × Bool)) :
    (queuedEntries r batches).length + (batches.filter (·.2)).length = batches.length := by
  rw [queuedEntries, length_map, Nat.add_comm]
  exact (length_eq_length_filter_add (l := batches) (·.2)).symm

theorem Batched.length_pos (h : Batched v input k r q k') : input.batches ≠ [] := by
  intro hnil
  have hflat := h.divides.2.1
  rw [hnil] at hflat
  exact h.nonempty hflat.symm

theorem Batched.req (h : Batched v input k r q k') :
    k'.req r = some (batchesFailed (batching v q input.batches.length) (input.batches.filter (·.2)).length) := by
  obtain ⟨active, rfl, -⟩ := h.eq
  exact update_self ..

theorem state_batchesFailed (hne : input.batches ≠ []) :
    (batchesFailed (batching v q input.batches.length) (input.batches.filter (·.2)).length).state =
      if queuedEntries r input.batches = [] then .syncBatchesComplete else .syncBatchesInprogress := by
  have hlen := length_queuedEntries r input.batches
  have hpos := length_pos_iff.2 hne
  by_cases hq : queuedEntries r input.batches = []
  · rw [hq, length_nil, Nat.zero_add] at hlen
    rw [if_pos hq]
    exact if_pos ⟨by omega, by dsimp only [batching]; omega⟩
  · have := length_pos_iff.2 hq
    rw [if_neg hq]
    exact if_neg fun h => by have := h.2; dsimp only [batching] at this; omega

theorem readyAfter_queued (hqueued : queuedEntries r input.batches ≠ []) :
    readyAfter (batching v q input.batches.length) (input.batches.filter (·.2)).length r = [] := by
  have hlen := length_queuedEntries r input.batches
  have := length_pos_iff.2 hqueued
  exact if_neg fun h => by have := h.2; dsimp only [batching] at this; omega

theorem submitted_setReq (q₁ : SyncReq) (active : Finset ℕ) (inodes : List ℕ) (ε : List SyncEntry) (ready : List ℕ) :
    submitted (k.setReq r q₁) r q active inodes ε ready = submitted k r q active inodes ε ready := by
  simp only [submitted, reset, setReq, update_idem]

section

variable (hguard : q.state = .syncunlinkedGuard) (hidle : k.syncunlinkedInProgress = false)

include hguard hidle

theorem submitSyncBatches_cases (h : { k with syncunlinkedInProgress := true }.submitSyncBatches v r
    (begun v q) input.batches = some k') :
    k.unlinkedInodeSet = ∅ ∧ k' = { k with syncunlinkedInProgress := true }.setReq r { begun v q with state := .syncBatchesComplete } ∨
    Batched v input k r q k' := by
  unfold SyncWorker.submitSyncBatches at h
  split at h
  · next hempty => exact .inl ⟨hempty, (Option.some.inj h).symm⟩
  · next hne =>
    split at h
    · next hdiv =>
      obtain ⟨-, active, hk', hactive⟩ := submitBatches_spec (q := batching v q input.batches.length)
        (update_self ..) (by dsimp only [batching]; omega) h
      rw [submitted_setReq] at hk'
      exact .inr ⟨hguard, hidle, hne, hdiv.1, hdiv.2, active, hk', hactive⟩
    · cases h

theorem syncunlinkedInit_cases (h : k.syncunlinkedInit v r q input = some k') : Outcome v input k r q k' := by
  obtain ⟨k1, hk1, h⟩ := bind_eq_some_iff.1 h
  obtain ⟨q1, hq1, h⟩ := bind_eq_some_iff.1 h
  rcases submitSyncBatches_cases hguard hidle hk1 with ⟨hempty, rfl⟩ | hbatched
  · have hq1' := (update_self ..).symm.trans hq1
    cases hq1'
    rw [if_pos rfl] at h
    exact .syncunlinkedDone (.empty hguard hidle hempty) h
  · rw [hbatched.req] at hq1
    cases hq1
    have hstate := state_batchesFailed (v := v) (q := q) (r := r) hbatched.length_pos
    by_cases hqueued : queuedEntries r input.batches = []
    · rw [if_pos (by rw [hstate, if_pos hqueued])] at h
      have hlen := length_queuedEntries r input.batches
      rw [hqueued, length_nil, Nat.zero_add] at hlen
      rw [hlen] at h
      exact .syncunlinkedDone (.failed hbatched hqueued) h
    · rw [if_neg (by rw [hstate, if_neg hqueued]; decide)] at h
      cases h
      exact .batched hbatched hqueued

end

theorem processSyncunlinked_cases (hstate : q.state = .syncunlinkedGuard ∨ q.state = .syncBatchesComplete)
    (h : k.processSyncunlinked v r q input = some k') : Outcome v input k r q k' := by
  unfold SyncWorker.processSyncunlinked at h
  rcases hstate with hs | hs
  · rw [hs] at h
    dsimp only at h
    split at h
    · next hflag =>
      cases h
      exact .waitsSyncunlinked hs hflag
    · next hflag => exact syncunlinkedInit_cases hs (Bool.not_eq_true _ ▸ hflag) h
  · rw [hs] at h
    exact .syncunlinkedDone (.later hs) h

theorem processReq_cases (htyped : Typed q.type q.state) (hallowed : Allowed .processReq q.state)
    (h : k.processReq v r q input = some k') : Outcome v input k r q k' := by
  have hfsync (hs : IsFsyncState q.state) : q.state = .fsyncDataBio ∨ q.state = .fsyncDataSyncDone := by
    rcases hs with hs | hs | hs | hs
    · exact .inl hs
    · exact absurd hs hallowed.2
    · exact .inr hs
    · have hj := hallowed.1
      rw [hs] at hj
      cases hj
  unfold SyncWorker.processReq at h
  cases ht : q.type with
  | fsync =>
    rw [ht] at h htyped
    exact processFdataSync_cases (hfsync htyped) h
  | syncall =>
    rw [ht] at h htyped
    dsimp only at h
    split at h
    · next hs => exact processFdataSync_cases (hfsync hs) h
    · next hs => exact processSyncall_cases (htyped.resolve_left hs) h
  | syncunlinked afterSyncunlinked =>
    rw [ht] at h htyped
    refine processSyncunlinked_cases ?_ h
    rcases htyped with hs | hs | hs
    · exact .inl hs
    · have hj := hallowed.1
      rw [hs] at hj
      cases hj
    · exact .inr hs

/-- A call goes on: either `processSyncunlinked` after its completion callback, or the request of the call is taken in
hand. -/
theorem Sound.goOn_cases (h : Sound [] k) (hgo : k.goOn v input = some k') :
    (∃ rest, k.calls = .onFsReqCompletion :: rest ∧ k' = { k with calls := rest }.nextSyncunlinked) ∨
    ∃ frame p rest r q, k.calls = frame :: rest ∧ frameToken frame = some (p, r) ∧ k.req r = some q ∧
      Sound [r] { k with calls := rest } ∧ Allowed p q.state ∧ Outcome v input { k with calls := rest } r q k' := by
  unfold goOn at hgo
  cases hc : k.calls with
  | nil =>
    rw [hc] at hgo
    cases hgo
  | cons frame rest =>
    rw [hc] at hgo
    have htokens {p : Place} {r : ℕ} (hf : frameToken frame = some (p, r)) :
      tokens k = (p, r) :: tokens { k with calls := rest } := by
      rw [← tokens_call hf]
      simp only [call, ← hc]
    have htake {p : Place} {r : ℕ} (hf : frameToken frame = some (p, r)) : Sound [r] { k with calls := rest } :=
      h.take rfl rfl rfl (.of_eq (htokens hf))
    have hallowed {p : Place} {r : ℕ} {q : SyncReq} (hf : frameToken frame = some (p, r)) (hq : k.req r = some q) :
        Allowed p q.state := h.allowed p r q (by rw [htokens hf]; exact mem_cons_self ..) hq
    cases frame with
    | processReq r =>
      obtain ⟨q, hq, hgo⟩ := bind_eq_some_iff.1 hgo
      exact .inr ⟨_, _, rest, r, q, rfl, rfl, hq, htake rfl, hallowed rfl hq,
        processReq_cases (h.typed r q hq) (hallowed rfl hq) hgo⟩
    | processSyncall r =>
      obtain ⟨q, hq, hgo⟩ := bind_eq_some_iff.1 hgo
      exact .inr ⟨_, _, rest, r, q, rfl, rfl, hq, htake rfl, hallowed rfl hq,
        processSyncall_cases (hallowed (r := r) rfl hq) hgo⟩
    | processSyncunlinked r =>
      obtain ⟨q, hq, hgo⟩ := bind_eq_some_iff.1 hgo
      exact .inr ⟨_, _, rest, r, q, rfl, rfl, hq, htake rfl, hallowed rfl hq,
        processSyncunlinked_cases (.inl (hallowed (r := r) rfl hq)) hgo⟩
    | onFsReqCompletion => exact .inl ⟨rest, rfl, (Option.some.inj hgo).symm⟩

end Ufs.Proof.Sync
