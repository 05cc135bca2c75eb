import Ufs.Proof.Sync.Requests

/-!
# Requests stay in their places

Every step of a worker keeps `Sound`, and with it what ties a syncall to the syncunlinked it started (`Children`).
-/

namespace Ufs.Proof.Sync

open Impl
open Function (update update_of_ne update_self update_eq_self update_idem)
open SyncWorker (IsFsyncState setReq newReq)
open List Option

variable {held : List ℕ} {k k' : SyncWorker} {r : ℕ} {q q' : SyncReq} {p : Place} {v : InodeView} {input : CallInput}

theorem Sound.move (h : Sound held k) (hreq : k'.req = k.req) (hnext : k'.nextReq = k.nextReq)
    (hentries : k'.entries = k.entries) {p' : Place} {l : List (Place × ℕ)} (htokens : (tokens k).Perm ((p, r) :: l))
    (htokens' : (tokens k').Perm ((p', r) :: l)) (hallowed : ∀ σ, Allowed p σ → Allowed p' σ) : Sound held k' := by
  have hmap : ((tokens k').map Prod.snd).Perm ((tokens k).map Prod.snd) :=
    (htokens'.map Prod.snd).trans (htokens.map Prod.snd).symm
  refine ⟨?_, ?_, fun p1 r' q1 hmem hq1 => ?_, ?_, ?_, ?_, ?_⟩
  · simpa only [hnext, hreq, hentries, hmap.mem_iff] using h.fresh
  · simpa only [hreq, hmap.count_eq] using h.once
  · rw [hreq] at hq1
    rcases mem_cons.1 (htokens'.mem_iff.1 hmem) with heq | hmem
    · cases heq
      exact hallowed _ (h.allowed p r q1 (htokens.mem_iff.2 (mem_cons_self ..)) hq1)
    · exact h.allowed p1 r' q1 (htokens.mem_iff.2 (mem_cons_of_mem _ hmem)) hq1
  · rw [hreq]; exact h.typed
  · rw [hreq, hentries]; exact h.entries
  · rw [hreq, hentries]; exact h.live
  · rw [hreq]; exact h.progress

/-! ## Syncalls and the syncunlinked they started -/

/-- The type of a request. -/
def typeOf (k : SyncWorker) (r : ℕ) : Option SyncType := (k.req r).map SyncReq.type

/-- The syncalls that wait for a syncunlinked are there, and each has started one that is there. -/
structure Children (k : SyncWorker) : Prop where
  nodup : k.localReqCtxs.Nodup
  live (p : ℕ) : p ∈ k.localReqCtxs → typeOf k p = some .syncall
  child (p : ℕ) : p ∈ k.localReqCtxs → ∃ c, typeOf k c = some (.syncunlinked (some p))
  parent (c p : ℕ) : typeOf k c = some (.syncunlinked (some p)) → p ∈ k.localReqCtxs
  unique (c c' p : ℕ) : typeOf k c = some (.syncunlinked (some p)) → typeOf k c' = some (.syncunlinked (some p)) →
    c = c'

theorem Children.congr (h : Children k) (htype : typeOf k' = typeOf k) (hctx : k'.localReqCtxs = k.localReqCtxs) :
    Children k' where
  nodup := by rw [hctx]; exact h.nodup
  live := by rw [htype, hctx]; exact h.live
  child := by rw [htype, hctx]; exact h.child
  parent := by rw [htype, hctx]; exact h.parent
  unique := by rw [htype]; exact h.unique

theorem typeOf_update {x : Option SyncReq} (hreq : k'.req = update k.req r x) :
    typeOf k' = update (typeOf k) r (x.map SyncReq.type) := by
  funext r'
  unfold typeOf
  rw [hreq]
  rcases eq_or_ne r' r with rfl | hne
  · rw [update_self, update_self]
  · rw [update_of_ne hne, update_of_ne hne]

theorem typeOf_setReq (hq : k.req r = some q) (hreq : k'.req = update k.req r (some q')) (ht : q'.type = q.type) :
    typeOf k' = typeOf k := by
  rw [typeOf_update hreq, Function.update_eq_self_iff, typeOf, hq]
  exact congrArg some ht

section

variable (h : Children k)

include h

/-- One request is made or ends. -/
theorem Children.change {x : Option SyncType} (htype : typeOf k' = update (typeOf k) r x)
    (hnodup : k'.localReqCtxs.Nodup) (hlive : ∀ p ∈ k'.localReqCtxs, typeOf k' p = some .syncall)
    (hchild : ∀ p ∈ k'.localReqCtxs, p ∈ k.localReqCtxs ∧ typeOf k r ≠ some (.syncunlinked (some p)) ∨
      x = some (.syncunlinked (some p)))
    (hkept : ∀ p ∈ k.localReqCtxs, p ∈ k'.localReqCtxs ∨ typeOf k r = some (.syncunlinked (some p)))
    (hnew : ∀ p, x = some (.syncunlinked (some p)) → p ∈ k'.localReqCtxs ∧ p ∉ k.localReqCtxs) : Children k' := by
  have hof {c p : ℕ} (hc : typeOf k' c = some (.syncunlinked (some p))) :
      c = r ∧ x = some (.syncunlinked (some p)) ∨ c ≠ r ∧ typeOf k c = some (.syncunlinked (some p)) :=
    of_update (htype ▸ hc)
  refine ⟨hnodup, hlive, fun p hp => ?_, fun c p hc => ?_, fun c c' p hc hc' => ?_⟩
  · rcases hchild p hp with ⟨hp, hnot⟩ | hx
    · obtain ⟨c, hc⟩ := h.child p hp
      have hne : c ≠ r := fun heq => hnot (heq ▸ hc)
      exact ⟨c, by rw [htype, update_of_ne hne]; exact hc⟩
    · exact ⟨r, by rw [htype, update_self]; exact hx⟩
  · rcases hof hc with ⟨-, hx⟩ | ⟨hne, hc⟩
    · exact (hnew p hx).1
    · exact (hkept p (h.parent c p hc)).resolve_right fun hr => hne (h.unique c r p hc hr)
  · rcases hof hc with ⟨rfl, hx⟩ | ⟨-, hc⟩ <;> rcases hof hc' with ⟨rfl, hx'⟩ | ⟨-, hc'⟩
    · rfl
    · exact absurd (h.parent c' p hc') (hnew p hx).2
    · exact absurd (h.parent c p hc) (hnew p hx').2
    · exact h.unique c c' p hc hc'

theorem Children.drop (htype : typeOf k' = update (typeOf k) r none) (hctx : k'.localReqCtxs = k.localReqCtxs)
    (hr : r ∉ k.localReqCtxs)
    (hnot : ∀ p, typeOf k r ≠ some (.syncunlinked (some p))) : Children k' := by
  refine h.change htype (hctx ▸ h.nodup) (fun p hp => ?_) (fun p hp => .inl ⟨hctx ▸ hp, hnot p⟩)
    (fun p hp => .inl (hctx ▸ hp)) nofun
  have hne : p ≠ r := fun heq => hr (heq ▸ hctx ▸ hp)
  rw [htype, update_of_ne hne]
  exact h.live p (hctx ▸ hp)

theorem Children.new {t : SyncType} (htype : typeOf k' = update (typeOf k) r (some t))
    (hr : typeOf k r = none) (hctx : k'.localReqCtxs = k.localReqCtxs) (hnot : ∀ p, t ≠ .syncunlinked (some p)) :
      Children k' := by
  refine h.change htype (hctx ▸ h.nodup) (fun p hp => ?_) (fun p hp => .inl ⟨hctx ▸ hp, by rw [hr]; nofun⟩)
    (fun p hp => .inl (hctx ▸ hp)) fun p hp => absurd (Option.some.inj hp) (hnot p)
  have hlive := h.live p (hctx ▸ hp)
  rw [htype, update_of_ne fun heq => by rw [heq, hr] at hlive; cases hlive]
  exact hlive

theorem Children.start {c : ℕ} (htype : typeOf k' = update (typeOf k) c (some (.syncunlinked (some r))))
    (hc : typeOf k c = none)
    (hr : typeOf k r = some .syncall) (hctx : k'.localReqCtxs = r :: k.localReqCtxs) (hnew : r ∉ k.localReqCtxs) :
      Children k' := by
  have hmem {p : ℕ} : p ∈ k'.localReqCtxs ↔ p = r ∨ p ∈ k.localReqCtxs := by rw [hctx, mem_cons]
  refine h.change htype (hctx ▸ nodup_cons.2 ⟨hnew, h.nodup⟩) (fun p hp => ?_) (fun p hp => ?_)
    (fun p hp => .inl (hmem.2 (.inr hp))) fun p hp => ?_
  · have hlive : typeOf k p = some .syncall := by
      rcases hmem.1 hp with rfl | hp
      · exact hr
      · exact h.live p hp
    rw [htype, update_of_ne fun heq => by rw [heq, hc] at hlive; cases hlive]
    exact hlive
  · rcases hmem.1 hp with rfl | hp
    · exact .inr rfl
    · exact .inl ⟨hp, by rw [hc]; nofun⟩
  · cases hp
    exact ⟨hmem.2 (.inl rfl), hnew⟩

theorem Children.finish {p : ℕ} (htype : typeOf k' = update (typeOf k) r none)
    (hr : typeOf k r = some (.syncunlinked (some p))) (hctx : k'.localReqCtxs = k.localReqCtxs.erase p) :
      Children k' := by
  have hmem {p' : ℕ} : p' ∈ k'.localReqCtxs ↔ p' ≠ p ∧ p' ∈ k.localReqCtxs := by rw [hctx, h.nodup.mem_erase_iff]
  refine h.change htype (hctx ▸ h.nodup.erase p) (fun p' hp => ?_) (fun p' hp => .inl ⟨(hmem.1 hp).2, ?_⟩)
    (fun p' hp => ?_) nofun
  · have hlive := h.live p' (hmem.1 hp).2
    rw [htype, update_of_ne fun heq => by rw [heq, hr] at hlive; cases hlive]
    exact hlive
  · rw [hr]
    rintro ⟨⟩
    exact (hmem.1 hp).1 rfl
  · rcases eq_or_ne p' p with rfl | hne
    · exact .inr hr
    · exact .inl (hmem.2 ⟨hne, hp⟩)

end

/-! ## Requests in hand -/

/-- The dirty inodes that the worker does not have are unlinked ones. -/
def Owned (v : InodeView) (k : SyncWorker) : Prop := ∀ i ∈ k.dirtyInodeSet, v.has i = true ∨ i ∈ k.unlinkedInodeSet

theorem mem_tokens_ctx (h : r ∈ k.localReqCtxs) : (.ctx, r) ∈ tokens k := by
  unfold tokens
  simp only [mem_append, List.mem_map]
  exact .inl (.inl (.inl (.inr ⟨r, h, rfl⟩)))

theorem Sound.held_ctx (h : Sound (r :: held) k) (hq : k.req r = some q) : r ∉ k.localReqCtxs := fun hin =>
  (h.held_eq hq).2.1 (List.mem_map.2 ⟨(.ctx, r), mem_tokens_ctx hin, rfl⟩)

theorem type_of_fsync (hs : IsFsyncState q.state) (h : Typed q.type q.state) : q.type = .fsync ∨ q.type = .syncall := by
  cases ht : q.type with
  | fsync => exact .inl rfl
  | syncall => exact .inr rfl
  | syncunlinked p =>
    rw [ht] at h
    rcases h with h | h | h <;> rw [h] at hs <;> exact absurd hs (by decide)

theorem type_of_syncall (hs : q.state = .syncallGuard ∨ q.state = .syncallInit ∨ q.state = .syncallErr)
    (h : Typed q.type q.state) : q.type = .syncall := by
  cases ht : q.type with
  | fsync =>
    rw [ht] at h
    rcases hs with hs | hs | hs <;> rw [hs] at h <;> simp [Typed, IsFsyncState] at h
  | syncall => rfl
  | syncunlinked p =>
    rw [ht] at h
    rcases hs with hs | hs | hs <;> rw [hs] at h <;> simp [Typed] at h

theorem type_of_syncunlinked (hs : q.state = .syncunlinkedGuard ∨ q.state = .syncBatchesComplete)
    (h : Typed q.type q.state) : ∃ p, q.type = .syncunlinked p := by
  cases ht : q.type with
  | fsync =>
    rw [ht] at h
    rcases hs with hs | hs <;> rw [hs] at h <;> simp [Typed, IsFsyncState] at h
  | syncall =>
    rw [ht] at h
    rcases hs with hs | hs <;> rw [hs] at h <;> simp [Typed, IsFsyncState] at h
  | syncunlinked p => exact ⟨p, rfl⟩

theorem Starts.state (h : Starts k q) : q.state = .syncallGuard ∨ q.state = .syncallInit ∨ q.state = .syncallErr := by
  rcases h with h | h
  · exact .inl h.1
  · exact .inr (.inl h)

theorem Syncing.state {active : Finset ℕ} (h : Syncing k q active) : IsFsyncState q.state := by
  rcases h with h | h
  · exact .inl h.1
  · exact .inr (.inr (.inl h.1))

/-- Requests in their places, and syncalls with what they started. -/
structure Placed (held : List ℕ) (k : SyncWorker) : Prop where
  sound : Sound held k
  children : Children k

theorem update_req (hq : k.req r = some q) : update k.req r (some q) = k.req := by
  rw [← hq, update_eq_self]

/-- The request that a syncall starts for the unlinked inodes. -/
def startedReq (r stale : ℕ) : SyncReq :=
  ⟨.syncunlinked (some r), .syncunlinkedGuard, 0, false, stale, stale, stale, none⟩

theorem Completes.keeps {k₁ : SyncWorker} {q₁ : SyncReq} (h : Completes v input k r q k₁ q₁) (hq : k.req r = some q) :
    q₁.type = q.type ∧ k₁.req = update k.req r (some q₁) ∧ k₁.nextReq = k.nextReq ∧ k₁.entries = k.entries ∧
      k₁.localReqCtxs = k.localReqCtxs ∧ k₁.calls = k.calls ∧
      ∃ τ : List Place, (tokens k₁).Perm (τ.map (·, r) ++ tokens k) ∧
        (queuedEntries r input.batches ≠ [] ∨ input.batches = [] → τ = []) := by
  cases h with
  | later hstate => exact ⟨rfl, (update_req hq).symm, rfl, rfl, rfl, rfl, [], .refl _, fun _ => rfl⟩
  | empty hguard hidle hempty => exact ⟨rfl, rfl, rfl, rfl, rfl, rfl, [], .refl _, fun _ => rfl⟩
  | failed hbatched hall =>
    obtain ⟨active, rfl, -⟩ := hbatched.eq
    have hlen := length_queuedEntries r input.batches
    rw [hall, length_nil, Nat.zero_add] at hlen
    refine ⟨rfl, ?_, rfl, ?_, rfl, rfl, [.ready], ?_, ?_⟩
    · rw [hlen]; rfl
    · rw [hall]
      exact append_nil _
    · have hready : readyAfter (batching v q input.batches.length) (input.batches.filter (·.2)).length r = [r] := by
        have := length_pos_iff.2 hbatched.length_pos
        rw [hlen]
        exact if_pos ⟨by omega, Nat.zero_add _⟩
      rw [hready]
      exact tokens_ready (l := [r]) perm_append_comm
    · rintro (h | h)
      · exact absurd hall h
      · exact absurd h hbatched.length_pos

theorem typed_of_fsync (hs : IsFsyncState q.state) (h : Typed q.type q.state) {σ : SyncState}
    (hσ : IsFsyncState σ) : Typed q.type σ := by
  rcases type_of_fsync hs h with ht | ht <;> rw [ht]
  · exact hσ
  · exact .inl hσ

section

variable (h : Placed (r :: held) k) (hq : k.req r = some q)

include h hq

theorem Placed.put (hreq : k'.req = update k.req r (some q')) (hnext : k'.nextReq = k.nextReq)
    (hentries : k'.entries = k.entries) (htokens : (tokens k').Perm ((p, r) :: tokens k))
    (hallowed : Allowed p q'.state) (htyped : Typed q'.type q'.state) (htype : q'.type = q.type)
    (hctx : k'.localReqCtxs = k.localReqCtxs) : Placed held k' where
  sound := h.sound.put hq hreq hnext hentries htokens hallowed htyped
  children := h.children.congr (typeOf_setReq hq hreq htype) hctx

theorem Placed.putBack (hreq : k'.req = k.req) (hnext : k'.nextReq = k.nextReq) (hentries : k'.entries = k.entries)
    (htokens : (tokens k').Perm ((p, r) :: tokens k)) (hallowed : Allowed p q.state)
      (hctx : k'.localReqCtxs = k.localReqCtxs) : Placed held k' :=
  h.put hq (by rw [hreq, update_req hq]) hnext hentries htokens hallowed (h.sound.typed r q hq) rfl hctx

theorem Placed.drop (hreq : k'.req = update k.req r none) (hnext : k'.nextReq = k.nextReq)
    (hentries : k'.entries = k.entries) {τ : List Place} (htokens : (tokens k').Perm (τ.map (·, r) ++ tokens k))
    (hnot : ∀ p, q.type ≠ .syncunlinked (some p)) (hctx : k'.localReqCtxs = k.localReqCtxs) : Placed held k' where
  sound := h.sound.drop hq hreq hnext hentries htokens
  children := by
    refine h.children.drop (typeOf_update hreq) hctx (h.sound.held_ctx hq) fun p ht => hnot p ?_
    rw [typeOf, hq] at ht
    exact Option.some.inj ht

theorem Placed.fdataSynced (q₁ : SyncReq) (ht : q₁.type = .fsync ∨ q₁.type = .syncall) (htype : q₁.type = q.type)
    (success : Bool) :
    Placed held (fdataSynced k r q₁ success) := by
  unfold Sync.fdataSynced
  rcases ht with ht | ht
  · rw [if_neg (by rw [ht]; decide)]
    refine h.drop hq rfl rfl rfl (τ := []) (.refl _) (fun p hp => ?_) rfl
    rw [htype, hp] at ht
    cases ht
  · rw [if_pos ht]
    refine h.put hq rfl rfl rfl (tokens_ready (l := [r]) perm_append_comm) ?_ ?_ htype rfl
    · cases success
      · exact .inr (.inr (.inr (.inl rfl)))
      · exact .inr (.inr (.inl rfl))
    · rw [ht]
      cases success
      · exact .inr (.inr (.inr rfl))
      · exact .inr (.inr (.inl rfl))

theorem Placed.syncallComplete (ht : q.type = .syncall) (q₁ : SyncReq) : Placed held (k.syncallComplete r q₁) := by
  have hdrop : Placed held { k.submitFsReqCompletion r q₁ with syncallInProgress := false } :=
    h.drop hq rfl rfl rfl (τ := []) (.refl _) (fun p hp => by rw [hp] at ht; cases ht) rfl
  unfold SyncWorker.syncallComplete
  dsimp only
  split
  · exact hdrop
  · next queued rest hrest =>
    have hallowed (σ : SyncState) (hσ : Allowed .syncallQueue σ) : Allowed .processSyncall σ := .inl hσ
    refine ⟨hdrop.sound.move rfl rfl rfl ?_ (.of_eq (tokens_call rfl)) hallowed, hdrop.children.congr rfl rfl⟩
    have htokens := tokens_syncallQueue (k := { k.submitFsReqCompletion r q₁ with
      syncallInProgress := false, syncallRequests := rest }) (l := [queued]) (.refl _)
    rw [singleton_append] at htokens
    rw [← hrest] at htokens
    exact htokens

theorem Placed.before (ht : q.type = .syncall) (stale : ℕ) :
    Placed held ((k.setReq r { q with state := .syncallInit }).processSyncUnlinkedBeforeSyncall r stale) := by
  have hctx : Sound held { k.setReq r { q with state := .syncallInit } with localReqCtxs := r :: k.localReqCtxs } :=
    h.sound.put hq rfl rfl rfl (tokens_ctx (l := [r]) (.refl _)) rfl (by rw [ht]; exact .inr (.inr (.inl rfl)))
  have hnone : k.req k.nextReq = none := (h.sound.fresh k.nextReq (Nat.le_refl _)).1
  have hne : k.nextReq ≠ r := fun heq => by rw [heq, hq] at hnone; cases hnone
  have htype : typeOf (k.setReq r { q with state := .syncallInit }) = typeOf k := typeOf_setReq hq rfl rfl
  have hnew : Sound (k.nextReq :: held) { k.setReq r { q with state := .syncallInit } with
      req := update (k.setReq r { q with state := .syncallInit }).req k.nextReq (some (startedReq r stale))
      nextReq := k.nextReq + 1
      localReqCtxs := r :: k.localReqCtxs } :=
    hctx.new rfl rfl rfl rfl rfl (.inl rfl)
  refine ⟨?_, ?_⟩
  · exact hnew.put (update_self ..) (update_req (q := startedReq r stale) (update_self ..)).symm rfl rfl
      (.of_eq (tokens_call (f := .processSyncunlinked k.nextReq) rfl)) rfl (.inl rfl)
  · refine h.children.start (r := r) (c := k.nextReq) ?_ ?_ ?_ rfl (h.sound.held_ctx hq)
    · rw [← htype]
      exact typeOf_update (k := k.setReq r { q with state := .syncallInit }) (r := k.nextReq)
        (x := some (startedReq r stale)) rfl
    · rw [typeOf, hnone]; rfl
    · rw [typeOf, hq]
      exact congrArg some ht

theorem Placed.syncBatchesComplete {k₁ : SyncWorker} {q₁ : SyncReq} (hcompletes : Completes v input k r q k₁ q₁)
    (ht : ∃ p, q.type = .syncunlinked p)
    (hdone : k₁.syncBatchesComplete r q₁ = some k') : Placed held k' := by
  obtain ⟨htype, hreq, hnext, hentries, hctx, -, τ, htokens, -⟩ := hcompletes.keeps hq
  obtain ⟨cb, ht⟩ := ht
  unfold SyncWorker.syncBatchesComplete at hdone
  rw [htype, ht] at hdone
  have hdrop : Sound held { k₁ with req := update k₁.req r none } :=
    h.sound.drop hq (by dsimp only; rw [hreq, update_idem]) hnext hentries htokens
  cases cb with
  | none =>
    cases hdone
    refine ⟨hdrop.congr rfl rfl rfl rfl, ?_⟩
    refine h.children.drop (r := r) ?_ hctx (h.sound.held_ctx hq) fun p hp => ?_
    · refine typeOf_update (x := none) ?_
      dsimp only [SyncWorker.submitFsReqCompletion, SyncWorker.call]
      rw [hreq, update_idem]
    · rw [typeOf, hq, map_some, ht] at hp
      cases hp
  | some p =>
    obtain ⟨pq, hpq, hk'⟩ := map_eq_some_iff.1 hdone
    have hr : typeOf k r = some (.syncunlinked (some p)) := by rw [typeOf, hq, map_some, ht]
    have hp := h.children.parent r p hr
    have hlive := h.children.live p hp
    have hne : p ≠ r := fun heq => by rw [heq, hr] at hlive; cases hlive
    have hpq' : k.req p = some pq := by
      have hpq : k₁.req p = some pq := hpq
      rwa [hreq, update_of_ne hne] at hpq
    have hpt : pq.type = .syncall := by
      rw [typeOf, hpq'] at hlive
      exact Option.some.inj hlive
    have hstate : pq.state = .syncallInit := h.sound.allowed .ctx p pq (mem_tokens_ctx hp) hpq'
    -- The syncall, in the state in which it is called.
    obtain ⟨pq', hpq1, hstate', htype', hreq'⟩ : ∃ pq' : SyncReq,
        update k₁.req r none p = some pq ∧ Allowed .processSyncall pq'.state ∧ pq'.type = pq.type ∧
        k'.req = update (update k₁.req r none) p (some pq') := by
      have hpq1 : update k₁.req r none p = some pq := by
        rw [update_of_ne hne]
        exact hpq
      by_cases he : (q₁.hasError || decide (q₁.syncBatchesFailed ≠ 0)) = true
      · refine ⟨{ pq with state := .syncallErr }, hpq1, .inr (.inr rfl), rfl, ?_⟩
        rw [← hk', if_pos he]
        exact Function.update_comm hne ..
      · refine ⟨pq, hpq1, .inr (.inl hstate), rfl, ?_⟩
        rw [← hk', if_neg he, ← hpq1, update_eq_self]
        rfl
    have hfields : k'.nextReq = k₁.nextReq ∧ k'.entries = k₁.entries ∧ k'.localReqCtxs = k₁.localReqCtxs.erase p ∧
        tokens k' = (.processSyncall, p) :: tokens { k₁ with localReqCtxs := k₁.localReqCtxs.erase p } := by
      rw [← hk']
      split <;> exact ⟨rfl, rfl, rfl, rfl⟩
    have htake : Sound (p :: held) { k₁ with
        req := update k₁.req r none, localReqCtxs := k₁.localReqCtxs.erase p } := by
      refine hdrop.take rfl rfl rfl (p := .ctx) ?_
      exact tokens_ctx (k := { k₁ with localReqCtxs := k₁.localReqCtxs.erase p }) (l := [p])
        (perm_cons_erase (by rw [hctx]; exact hp))
    refine ⟨htake.put hpq1 hreq' hfields.1 hfields.2.1 (.of_eq hfields.2.2.2) hstate' ?_, ?_⟩
    · rw [htype', hpt]
      exact .inr hstate'
    · refine h.children.finish ?_ hr (by rw [hfields.2.2.1, hctx])
      have h1 : typeOf { k₁ with req := update k₁.req r none } = update (typeOf k) r none :=
        typeOf_update (x := none) (by dsimp only; rw [hreq, update_idem])
      rw [← h1]
      exact typeOf_setReq (k := { k₁ with req := update k₁.req r none }) hpq1 hreq' htype'

theorem Placed.outcome (howned : Owned v k) (ho : Outcome v input k r q k') : Placed held k' := by
  have htyped := h.sound.typed r q hq
  cases ho with
  | again hstate =>
    exact h.putBack hq rfl rfl rfl (tokens_ready (l := [r]) perm_append_comm) (.inl hstate) rfl
  | flushed hstate =>
    exact h.put hq rfl rfl rfl (tokens_flush (l := [r]) perm_append_comm) rfl
      (typed_of_fsync (.inl hstate) htyped (.inr (.inl rfl))) rfl rfl
  | reads hsyncing hlog hbitmaps =>
    exact h.put hq rfl rfl rfl (tokens_read (l := [(r, k.bitmapsToRead v q.fileIno)]) perm_append_comm) rfl
      (typed_of_fsync hsyncing.state htyped (.inr (.inr (.inl rfl)))) rfl rfl
  | journals hsyncing hlog =>
    refine ⟨h.sound.settle hq rfl rfl (τ := []) (ε := [⟨r, false, [q.fileIno], none⟩]) (.refl _) rfl (nofun)
      (fun e he => ?_) rfl rfl (nofun)
      (typed_of_fsync hsyncing.state htyped (.inr (.inr (.inr rfl)))), h.children.congr (typeOf_setReq hq rfl rfl) rfl⟩
    cases mem_singleton.1 he
    exact ⟨rfl, by dsimp only; decide⟩
  | @synced active success hsyncing hsuccess hhas =>
    have hactive : Placed (r :: held) (setActive k active) := ⟨h.sound.congr rfl rfl rfl rfl, h.children.congr rfl rfl⟩
    exact hactive.fdataSynced hq q (type_of_fsync hsyncing.state htyped) rfl success
  | waitsSyncall hguard hflag =>
    exact h.putBack hq rfl rfl rfl (tokens_syncallQueue (l := [r]) perm_append_comm) hguard rfl
  | before hstarts hunlinked =>
    have hflag : Placed (r :: held) { k with syncallInProgress := true } :=
      ⟨h.sound.congr rfl rfl rfl rfl, h.children.congr rfl rfl⟩
    exact hflag.before hq (type_of_syncall hstarts.state htyped) input.stale
  | picks hstarts hunlinked hpick hhas =>
    refine h.put hq rfl rfl rfl (tokens_ready (l := [r]) perm_append_comm) (.inl rfl) ?_ rfl rfl
    rw [type_of_syncall hstarts.state htyped]
    exact .inl (.inl rfl)
  | lost hstarts hunlinked hpick hhas =>
    rcases howned _ hpick with hin | hin
    · rw [hhas] at hin
      cases hin
    · rw [hunlinked] at hin
      exact absurd hin (Finset.notMem_empty _)
  | syncallDone hstarts hunlinked hdirty => exact h.syncallComplete hq (type_of_syncall hstarts.state htyped) q
  | syncallErr hstate => exact h.syncallComplete hq (type_of_syncall (.inr (.inr hstate)) htyped) _
  | waitsSyncunlinked hguard hflag =>
    exact h.putBack hq rfl rfl rfl (tokens_syncunlinkedQueue (l := [r]) perm_append_comm) hguard rfl
  | batched hbatched hqueued =>
    have hstate := state_batchesFailed (v := v) (q := q) (r := r) hbatched.length_pos
    rw [if_neg hqueued] at hstate
    have hlen := length_queuedEntries r input.batches
    obtain ⟨active, rfl, -⟩ := hbatched.eq
    rw [readyAfter_queued hqueued]
    refine ⟨h.sound.settle hq rfl rfl (τ := []) (ε := queuedEntries r input.batches) ?_ rfl (nofun)
      (fun e he => ?_) ?_ ?_ (fun _ => hqueued) ?_,
      h.children.congr (typeOf_setReq hq rfl rfl) rfl⟩
    · exact tokens_ready (l := []) (.of_eq (append_nil _))
    · obtain ⟨batch, -, rfl⟩ := List.mem_map.1 he
      exact ⟨rfl, fun _ => hstate, fun _ => rfl⟩
    · rw [hstate]
      rfl
    · unfold pending
      rw [hstate]
      dsimp only [batchesFailed, batching]
      omega
    · obtain ⟨p, hp⟩ := type_of_syncunlinked (.inl hbatched.guard) htyped
      rw [hstate]
      dsimp only [batchesFailed, batching, begun]
      rw [hp]
      exact .inr (.inl rfl)
  | syncunlinkedDone hcompletes hdone =>
    refine h.syncBatchesComplete hq hcompletes (type_of_syncunlinked ?_ htyped) hdone
    cases hcompletes with
    | later hstate => exact .inr hstate
    | empty hguard hidle hempty => exact .inl hguard
    | failed hbatched hall => exact .inl hbatched.guard

end

/-! ## Entries that come back -/

variable {e : SyncEntry} {j : ℕ}

theorem entries_perm {l : List SyncEntry} (h : l[j]? = some e) : l.Perm (e :: l.eraseIdx j) := by
  obtain ⟨hj, rfl⟩ := List.getElem?_eq_some_iff.1 h
  exact (getElem_cons_eraseIdx_perm hj).symm

theorem Sound.returned {held' : List ℕ} (h : Sound held k) (hj : k.entries[j]? = some e)
    (hq : k.req e.req = some q) (hreq : k'.req = update k.req e.req (some q'))
    (hentries : k'.entries = k.entries.eraseIdx j) (htokens : tokens k' = tokens k) (hnext : k'.nextReq = k.nextReq)
    (hpending : pending q' + 1 = pending q) (htyped : Typed q'.type q'.state)
    (hheld : held' = held ∧ q'.state = q.state ∧ q'.syncBatchesCompleted < q'.syncBatchesCreated ∨
      held' = e.req :: held ∧ inJournal q'.state = 0) : Sound held' k' := by
  have hperm := entries_perm hj
  have hcount := (hperm.map SyncEntry.req).count_eq e.req
  rw [map_cons, count_cons_self, h.entries _ q hq] at hcount
  have hinj : inJournal q.state = 1 := by
    have honce := h.once _ q hq
    have hne : inJournal q.state ≠ 0 := fun h0 => by
      rw [pending_of_inJournal h0] at hpending
      omega
    omega
  have htok {p : Place} (hmem : (p, e.req) ∈ tokens k) : False := by
    rw [inJournal_of_allowed (h.allowed p _ q hmem hq)] at hinj
    cases hinj
  have honce := h.once _ q hq
  refine h.change (a := []) (b := []) (c := [e]) (d := []) hreq hnext.ge (hnext ▸ h.lt hq) (fun r hne => ?_) (.refl _)
    (.of_eq htokens) (by simp) hperm (.of_eq hentries) (by simp) (fun q1 hq1 => ?_) fun e' he' heq => ⟨q', rfl, ?_⟩
  · rcases hheld with ⟨rfl, -⟩ | ⟨rfl, -⟩
    · rfl
    · exact count_cons_of_ne hne.symm
  · cases hq1
    rw [htokens, hentries]
    refine ⟨?_, fun p hmem => (htok hmem).elim, htyped, by omega, fun hs => ?_⟩
    · rcases hheld with ⟨rfl, hs, -⟩ | ⟨rfl, hs⟩
      · rw [hs]
        exact honce
      · rw [count_cons_self, hs]
        omega
    · rcases hheld with ⟨-, -, hlt⟩ | ⟨-, hs'⟩
      · exact hlt
      · rw [hs] at hs'
        cases hs'
  · rw [hentries] at he'
    obtain ⟨q1, hq1, hb⟩ := h.live e' (hperm.mem_iff.2 (mem_cons_of_mem _ he'))
    rw [heq, hq] at hq1
    cases hq1
    rcases hheld with ⟨-, hs, -⟩ | ⟨-, hs⟩
    · rw [hs]
      exact hb
    · have hpos : 0 < ((k.entries.eraseIdx j).map SyncEntry.req).count e.req :=
        count_pos_iff.2 (heq ▸ List.mem_map_of_mem he')
      have := pending_of_inJournal hs
      omega

variable {success : Bool}

theorem Sound.callback_cases (h : Sound [] k) (hj : k.entries[j]? = some e)
    (hcb : { k with entries := k.entries.eraseIdx j }.callback v e success = some k') :
    ∃ q, k.req e.req = some q ∧ e.req ∉ (tokens k).map Prod.snd ∧
      (e.batched = false ∧ q.state = .fsyncJournal ∧ v.has q.fileIno = true ∧
        k' = fdataSynced { k with entries := k.entries.eraseIdx j } e.req q success ∨
      e.batched = true ∧ q.state = .syncBatchesInprogress ∧ (∀ i ∈ e.inodes, v.has i = true) ∧
        k' = { (reset { k with entries := k.entries.eraseIdx j } e.inodes).setReq e.req (batchDone q success) with
          readyReqs := k.readyReqs ++ if q.syncBatchesCompleted + 1 = q.syncBatchesCreated then [e.req] else [] }) := by
  obtain ⟨q, hq, hb⟩ := h.live e (mem_of_getElem? hj)
  have hmem : 0 < pending q := by
    rw [← h.entries _ q hq]
    exact count_pos_iff.2 (List.mem_map_of_mem (mem_of_getElem? hj))
  have hnot : e.req ∉ (tokens k).map Prod.snd := by
    have honce := h.once _ q hq
    have hin : inJournal q.state ≠ 0 := fun h0 => by
      rw [pending_of_inJournal h0] at hmem
      exact absurd hmem (Nat.lt_irrefl 0)
    rw [← count_eq_zero]
    omega
  refine ⟨q, hq, hnot, ?_⟩
  unfold SyncWorker.callback at hcb
  cases hbatched : e.batched with
  | false =>
    rw [hbatched, if_neg (by decide)] at hcb
    obtain ⟨q1, hq1, hcb⟩ := bind_eq_some_iff.1 hcb
    cases hq.symm.trans hq1
    obtain ⟨hhas, rfl⟩ := onFdataSyncComplete_eq_some.1 hcb
    refine .inl ⟨rfl, ?_, hhas, rfl⟩
    unfold pending at hmem
    split at hmem
    · assumption
    · next hs => exact absurd (hb.2 hs) (by rw [hbatched]; decide)
    · exact absurd hmem (Nat.lt_irrefl 0)
  | true =>
    rw [hbatched, if_pos rfl] at hcb
    have hspec := fun hq => (onBatchedJournalWriteComplete_eq_some (q := q) hq).1 hcb
    obtain ⟨hhas, rfl⟩ := hspec hq
    exact .inr ⟨rfl, hb.1 hbatched, hhas, rfl⟩

theorem Placed.callback (h : Placed [] k) (hj : k.entries[j]? = some e)
    (hcb : { k with entries := k.entries.eraseIdx j }.callback v e success = some k') : Placed [] k' := by
  obtain ⟨q, hq, -, ⟨-, hstate, -, rfl⟩ | ⟨-, hstate, -, rfl⟩⟩ := h.sound.callback_cases hj hcb
  · have htyped := h.sound.typed _ q hq
    have hfsync : IsFsyncState q.state := .inr (.inr (.inr hstate))
    have hreturned : Placed [e.req] { k with
        entries := k.entries.eraseIdx j
        req := update k.req e.req (some { q with state := .fsyncDataSyncDone }) } := by
      refine ⟨h.sound.returned hj hq rfl rfl rfl rfl ?_ ?_ (.inr ⟨rfl, rfl⟩),
        h.children.congr (typeOf_setReq hq rfl rfl) rfl⟩
      · unfold pending
        rw [hstate]
      · exact typed_of_fsync hfsync htyped (.inr (.inr (.inl rfl)))
    have hsynced := hreturned.fdataSynced (update_self ..) q (type_of_fsync hfsync htyped) rfl success
    have heq : Sync.fdataSynced { k with
        entries := k.entries.eraseIdx j
        req := update k.req e.req (some { q with state := .fsyncDataSyncDone }) } e.req q success =
        Sync.fdataSynced { k with entries := k.entries.eraseIdx j } e.req q success := by
      simp only [Sync.fdataSynced, reset, setReq, SyncWorker.submitReadyReq, SyncWorker.submitFsReqCompletion,
        update_idem]
    rw [heq] at hsynced
    exact hsynced
  · have htyped := h.sound.typed _ q hq
    have hlt := h.sound.progress _ q hq hstate
    have hpend : pending q = q.syncBatchesCreated - q.syncBatchesCompleted := by
      unfold pending
      rw [hstate]
    obtain ⟨cb, ht⟩ : ∃ cb, q.type = .syncunlinked cb := by
      cases ht : q.type with
      | fsync =>
        rw [ht, hstate] at htyped
        simp [Typed, IsFsyncState] at htyped
      | syncall =>
        rw [ht, hstate] at htyped
        simp [Typed, IsFsyncState] at htyped
      | syncunlinked cb => exact ⟨cb, rfl⟩
    by_cases hlast : q.syncBatchesCompleted + 1 = q.syncBatchesCreated
    · have hbatch : (batchDone q success).state = .syncBatchesComplete := if_pos hlast
      rw [if_pos hlast]
      have hreturned : Placed [e.req] { k with
          entries := k.entries.eraseIdx j
          req := update k.req e.req (some (batchDone q success)) } := by
        refine ⟨h.sound.returned hj hq rfl rfl rfl rfl ?_ ?_ (.inr ⟨rfl, ?_⟩),
          h.children.congr (typeOf_setReq hq rfl rfl) rfl⟩
        · rw [hpend, pending_of_inJournal (by rw [hbatch]; rfl)]
          omega
        · rw [hbatch, show (batchDone q success).type = q.type from rfl, ht]
          exact .inr (.inr rfl)
        · rw [hbatch]
          rfl
      refine hreturned.putBack (update_self ..) rfl rfl rfl (tokens_ready (l := [e.req]) perm_append_comm) ?_ rfl
      rw [hbatch]
      exact .inr (.inr (.inr (.inr rfl)))
    · have hbatch : (batchDone q success).state = q.state := if_neg hlast
      rw [if_neg hlast]
      refine ⟨h.sound.returned hj hq rfl rfl ?_ rfl ?_ ?_ (.inl ⟨rfl, hbatch, ?_⟩),
        h.children.congr (typeOf_setReq hq rfl rfl) rfl⟩
      · simp only [append_nil]
        rfl
      · unfold pending
        rw [hbatch, hstate]
        dsimp only [batchDone]
        omega
      · rw [hbatch, show (batchDone q success).type = q.type from rfl]
        exact htyped
      · dsimp only [batchDone]
        omega

/-! ## The sets of inodes -/

theorem syncallComplete_sets (k : SyncWorker) (r : ℕ) (q : SyncReq) :
    (k.syncallComplete r q).dirtyInodeSet = k.dirtyInodeSet ∧
      (k.syncallComplete r q).unlinkedInodeSet = k.unlinkedInodeSet ∧ (k.syncallComplete r q).entries = k.entries := by
  unfold SyncWorker.syncallComplete
  dsimp only
  split <;> exact ⟨rfl, rfl, rfl⟩

theorem syncBatchesComplete_sets (h : k.syncBatchesComplete r q = some k') :
    k'.dirtyInodeSet = k.dirtyInodeSet ∧ k'.unlinkedInodeSet = k.unlinkedInodeSet ∧ k'.entries = k.entries := by
  unfold SyncWorker.syncBatchesComplete at h
  dsimp only at h
  split at h
  · obtain ⟨pq, -, rfl⟩ := map_eq_some_iff.1 h
    split <;> exact ⟨rfl, rfl, rfl⟩
  · cases h
    exact ⟨rfl, rfl, rfl⟩

theorem Outcome.sets (ho : Outcome v input k r q k') : ∃ l : List ℕ,
    k'.dirtyInodeSet = k.dirtyInodeSet \ l.toFinset ∧ k'.unlinkedInodeSet = k.unlinkedInodeSet \ l.toFinset ∧
      ∀ i ∈ l, v.logEntry i = [] ∨ input.fails = true ∨ i ∈ failedInodes input.batches := by
  have hsame (hd : k'.dirtyInodeSet = k.dirtyInodeSet) (hu : k'.unlinkedInodeSet = k.unlinkedInodeSet) :
      ∃ l : List ℕ, k'.dirtyInodeSet = k.dirtyInodeSet \ l.toFinset ∧
        k'.unlinkedInodeSet = k.unlinkedInodeSet \ l.toFinset ∧
        ∀ i ∈ l, v.logEntry i = [] ∨ input.fails = true ∨ i ∈ failedInodes input.batches :=
    ⟨[], by rw [hd]; simp, by rw [hu]; simp, nofun⟩
  cases ho with
  | again | flushed | reads | journals | waitsSyncall | before | picks | lost | waitsSyncunlinked => exact hsame rfl rfl
  | @synced active success hsyncing hsuccess hhas =>
    refine ⟨[q.fileIno], ?_, ?_, fun i hi => ?_⟩
    · unfold Sync.fdataSynced
      dsimp only
      split <;> rfl
    · unfold Sync.fdataSynced
      dsimp only
      split <;> rfl
    · cases mem_singleton.1 hi
      cases success
      · exact .inr (.inl hsuccess)
      · exact .inl hsuccess
  | syncallDone | syncallErr => exact hsame (syncallComplete_sets ..).1 (syncallComplete_sets ..).2.1
  | batched hbatched hqueued =>
    obtain ⟨active, rfl, -⟩ := hbatched.eq
    exact ⟨failedInodes input.batches, rfl, rfl, fun i hi => .inr (.inr hi)⟩
  | syncunlinkedDone hcompletes hdone =>
    obtain ⟨hd, hu, -⟩ := syncBatchesComplete_sets hdone
    cases hcompletes with
    | later | empty => exact hsame hd hu
    | failed hbatched hall =>
      obtain ⟨active, rfl, -⟩ := hbatched.eq
      exact ⟨failedInodes input.batches, hd, hu, fun i hi => .inr (.inr hi)⟩

theorem nextSyncunlinked_sets (k : SyncWorker) :
    k.nextSyncunlinked.dirtyInodeSet = k.dirtyInodeSet ∧ k.nextSyncunlinked.unlinkedInodeSet = k.unlinkedInodeSet ∧
      k.nextSyncunlinked.entries = k.entries := by
  unfold SyncWorker.nextSyncunlinked
  split <;> exact ⟨rfl, rfl, rfl⟩

theorem Owned.sdiff (h : Owned v k) {l : List ℕ} (hd : k'.dirtyInodeSet = k.dirtyInodeSet \ l.toFinset)
    (hu : k'.unlinkedInodeSet = k.unlinkedInodeSet \ l.toFinset) : Owned v k' := by
  intro i hi
  rw [hd, Finset.mem_sdiff] at hi
  rcases h i hi.1 with hhas | hin
  · exact .inl hhas
  · rw [hu, Finset.mem_sdiff]
    exact .inr ⟨hin, hi.2⟩

theorem Outcome.others (hq : k.req r = some q) (ho : Outcome v input k r q k') {r' : ℕ} (hne : r' ≠ r)
    (hnew : r' ≠ k.nextReq) : k'.req r' = k.req r' ∨ ∃ pq, q.type = .syncunlinked (some r') ∧ k.req r' = some pq ∧
        k'.req r' = some { pq with state := .syncallErr } := by
  have hset {x : Option SyncReq} (hreq : k'.req = update k.req r x) : k'.req r' = k.req r' := by
    rw [hreq, update_of_ne hne]
  cases ho with
  | again | waitsSyncall | waitsSyncunlinked => exact .inl rfl
  | flushed | reads | journals | picks | lost => exact .inl (hset rfl)
  | synced =>
    unfold Sync.fdataSynced
    dsimp only
    split <;> exact .inl (update_of_ne hne ..)
  | before =>
    refine .inl ((update_of_ne hnew ..).trans (update_of_ne hne ..))
  | syncallDone | syncallErr =>
    unfold SyncWorker.syncallComplete
    dsimp only
    split <;> exact .inl (update_of_ne hne ..)
  | batched hbatched hqueued =>
    obtain ⟨active, rfl, -⟩ := hbatched.eq
    exact .inl (hset rfl)
  | @syncunlinkedDone k1 k' q1 hcompletes hdone =>
    obtain ⟨htype, hreq, -⟩ := hcompletes.keeps hq
    have hreq' : k1.req r' = k.req r' := by rw [hreq, update_of_ne hne]
    unfold SyncWorker.syncBatchesComplete at hdone
    dsimp only at hdone
    split at hdone
    · next syncallReq ht =>
      obtain ⟨pq, hpq, rfl⟩ := map_eq_some_iff.1 hdone
      split
      · rcases eq_or_ne r' syncallReq with rfl | hp
        · refine .inr ⟨pq, by rw [← htype]; exact ht, by rw [← hreq']; exact hpq, ?_⟩
          exact (update_of_ne hne ..).trans (update_self ..)
        · exact .inl (((update_of_ne hne ..).trans (update_of_ne hp ..)).trans hreq')
      · exact .inl ((update_of_ne hne ..).trans hreq')
    · cases hdone
      exact .inl ((update_of_ne hne ..).trans hreq')

/-! ## Steps of a worker -/

theorem Placed.nextSyncunlinked (h : Placed [] k) : Placed [] k.nextSyncunlinked := by
  unfold SyncWorker.nextSyncunlinked
  split
  · exact ⟨h.sound.congr rfl rfl rfl rfl, h.children.congr rfl rfl⟩
  · next queued rest hrest =>
    have hallowed (σ : SyncState) (hσ : Allowed .syncunlinkedQueue σ) : Allowed .processSyncunlinked σ := hσ
    refine ⟨h.sound.move rfl rfl rfl ?_ (.of_eq (tokens_call rfl)) hallowed, h.children.congr rfl rfl⟩
    have htokens := tokens_syncunlinkedQueue (k := { k with
      syncunlinkedInProgress := false, syncunlinkedRequests := rest }) (l := [queued]) (.refl _)
    rw [singleton_append] at htokens
    rw [← hrest] at htokens
    exact htokens

theorem Placed.goOn (h : Placed [] k) (howned : Owned v k) (hgo : k.goOn v input = some k') : Placed [] k' := by
  rcases h.sound.goOn_cases hgo with ⟨rest, hcalls, rfl⟩ | ⟨frame, p, rest, r, q, -, -, hq, hsound, -, ho⟩
  · refine Placed.nextSyncunlinked ⟨h.sound.congr rfl rfl rfl ?_, h.children.congr rfl rfl⟩
    unfold tokens
    rw [hcalls]
    rfl
  · exact Placed.outcome ⟨hsound, h.children.congr rfl rfl⟩ hq howned ho

/-- The worker after it has taken a client's request. -/
def received (k : SyncWorker) (client : SyncWorker.ClientReq) (stale : ℕ) (inProgress : ℕ → ℕ) : SyncWorker :=
  { k.setReq k.nextReq (SyncWorker.newReq stale client) with
    nextReq := k.nextReq + 1
    accepted := k.accepted ++ [k.nextReq]
    inProgressRequests := inProgress }.call (.processReq k.nextReq)

variable {client : SyncWorker.ClientReq} {stale : ℕ}

theorem accept_cases (ha : k.accept v client stale = some k') :
    (∀ ino, client = .fsync ino → v.has ino = true) ∧ ∃ inProgress, k' = received k client stale inProgress := by
  unfold SyncWorker.accept at ha
  cases client with
  | fsync ino =>
    dsimp only at ha
    split at ha
    · next hhas =>
      refine ⟨fun i hi => ?_, _, (Option.some.inj ha).symm⟩
      cases hi
      exact hhas
    · cases ha
  | syncall | syncunlinked =>
    refine ⟨fun i hi => ?_, _, (Option.some.inj ha).symm⟩
    cases hi

theorem newReq_state (stale : ℕ) (client : SyncWorker.ClientReq) :
    Typed (newReq stale client).type (newReq stale client).state ∧
      Allowed .processReq (newReq stale client).state ∧ ∀ p, (newReq stale client).type ≠ .syncunlinked (some p) := by
  cases client with
  | fsync ino => exact ⟨.inl rfl, ⟨rfl, nofun⟩, nofun⟩
  | syncall => exact ⟨.inr (.inl rfl), ⟨rfl, nofun⟩, nofun⟩
  | syncunlinked => exact ⟨.inl rfl, ⟨rfl, nofun⟩, nofun⟩

theorem Placed.accept (h : Placed [] k) (ha : k.accept v client stale = some k') : Placed [] k' := by
  obtain ⟨-, inProgress, rfl⟩ := accept_cases ha
  obtain ⟨htyped, hallowed, hclient⟩ := newReq_state stale client
  have hnone : k.req k.nextReq = none := (h.sound.fresh k.nextReq (Nat.le_refl _)).1
  have hnew : Sound [k.nextReq] { k.setReq k.nextReq (newReq stale client) with
      nextReq := k.nextReq + 1
      accepted := k.accepted ++ [k.nextReq]
      inProgressRequests := inProgress } :=
    h.sound.new rfl rfl rfl rfl hallowed.1 htyped
  refine ⟨hnew.put (update_self ..) (update_req (update_self ..)).symm rfl rfl
    (.of_eq (tokens_call (f := .processReq k.nextReq) rfl)) hallowed htyped, ?_⟩
  refine h.children.new (r := k.nextReq) (t := (newReq stale client).type)
    (typeOf_update (x := some (newReq stale client)) rfl) ?_ rfl hclient
  rw [typeOf, hnone]
  rfl

theorem ready_cases (hr : k.ready = some k') :
    ∃ r rest, k.readyReqs = r :: rest ∧ (tokens k).Perm ((.ready, r) :: tokens { k with readyReqs := rest }) ∧
      k' = { k with readyReqs := rest }.call (.processReq r) := by
  unfold SyncWorker.ready at hr
  split at hr
  · cases hr
  · next r rest hrest =>
    refine ⟨r, rest, hrest, ?_, (Option.some.inj hr).symm⟩
    have htokens := tokens_ready (k := { k with readyReqs := rest }) (l := [r]) (.refl _)
    rw [singleton_append] at htokens
    rw [← hrest] at htokens
    exact htokens

theorem Placed.ready (h : Placed [] k) (hr : k.ready = some k') : Placed [] k' := by
  obtain ⟨r, rest, -, htokens, rfl⟩ := ready_cases hr
  have hallowed (σ : SyncState) (hσ : Allowed .ready σ) : Allowed .processReq σ := by
    rcases hσ with rfl | rfl | rfl | rfl | rfl <;> exact ⟨rfl, by decide⟩
  exact ⟨h.sound.move rfl rfl rfl htokens (.of_eq (tokens_call rfl)) hallowed, h.children.congr rfl rfl⟩

theorem Sound.flushDone_cases (h : Sound held k) (hf : k.flushDone r = some k') :
    ∃ q, k.req r = some q ∧ q.state = .fsyncDataSyncWait ∧
      (tokens k).Perm ((.flush, r) :: tokens { k with flushWaits := k.flushWaits.erase r }) ∧
      k' = ({ k with flushWaits := k.flushWaits.erase r }.setReq r { q with state := .fsyncDataSyncDone }).submitReadyReq r := by
  unfold SyncWorker.flushDone at hf
  split at hf
  · next hin =>
    obtain ⟨q, hq, rfl⟩ := map_eq_some_iff.1 hf
    have htokens : (tokens k).Perm ((.flush, r) :: tokens { k with flushWaits := k.flushWaits.erase r }) :=
      tokens_flush (k := { k with flushWaits := k.flushWaits.erase r }) (l := [r]) (perm_cons_erase hin)
    exact ⟨q, hq, h.allowed .flush r q (htokens.mem_iff.2 (mem_cons_self ..)) hq, htokens, rfl⟩
  · cases hf

theorem Placed.flushDone (h : Placed [] k) (hf : k.flushDone r = some k') : Placed [] k' := by
  obtain ⟨q, hq, hstate, htokens, rfl⟩ := h.sound.flushDone_cases hf
  have htake : Placed [r] { k with flushWaits := k.flushWaits.erase r } :=
    ⟨h.sound.take rfl rfl rfl htokens, h.children.congr rfl rfl⟩
  refine htake.put hq rfl rfl rfl (tokens_ready (l := [r]) perm_append_comm) (.inr (.inl rfl)) ?_ rfl rfl
  exact typed_of_fsync (.inr (.inl hstate)) (h.sound.typed r q hq) (.inr (.inr (.inl rfl)))

variable {read : ℕ × Finset ℕ}

theorem readDone_cases (hr : k.readDone read = some k') : read ∈ k.blockReads ∧
    (tokens k).Perm ((.read, read.1) :: tokens { k with blockReads := k.blockReads.erase read }) ∧ k' = { k with
        blockReads := k.blockReads.erase read
        stableDataBitmaps := k.stableDataBitmaps ∪ read.2 }.submitReadyReq read.1 := by
  unfold SyncWorker.readDone at hr
  split at hr
  · next hin =>
    exact ⟨hin, tokens_read (k := { k with blockReads := k.blockReads.erase read }) (l := [read])
      (perm_cons_erase hin), (Option.some.inj hr).symm⟩
  · cases hr

theorem Placed.readDone (h : Placed [] k) (hr : k.readDone read = some k') : Placed [] k' := by
  obtain ⟨-, htokens, rfl⟩ := readDone_cases hr
  have hallowed (σ : SyncState) (hσ : Allowed .read σ) : Allowed .ready σ := .inr (.inl hσ)
  exact ⟨h.sound.move rfl rfl rfl htokens (tokens_ready (l := [read.1]) perm_append_comm) hallowed,
    h.children.congr rfl rfl⟩

theorem Placed.serialize (h : Placed [] k) (hj : k.entries[j]? = some e)
    (body : Option (ℕ → List Change)) : Placed [] { k with entries := k.entries.set j { e with body := body } } := by
  have hmap : (k.entries.set j { e with body := body }).map SyncEntry.req = k.entries.map SyncEntry.req := by
    obtain ⟨hlt, rfl⟩ := List.getElem?_eq_some_iff.1 hj
    rw [map_set]
    refine ext_getElem (by simp) fun n h1 h2 => ?_
    rw [getElem_set]
    split
    · next heq => subst heq; simp
    · rfl
  refine ⟨⟨?_, h.sound.once, h.sound.allowed, h.sound.typed, ?_, fun e' he' => ?_, h.sound.progress⟩,
    h.children.congr rfl rfl⟩
  · rw [hmap]
    exact h.sound.fresh
  · rw [hmap]
    exact h.sound.entries
  · rcases mem_or_eq_of_mem_set he' with he' | rfl
    · exact h.sound.live e' he'
    · exact h.sound.live e (mem_of_getElem? hj)

theorem fdataSynced_sets (k : SyncWorker) (r : ℕ) (q : SyncReq) (success : Bool) :
    (fdataSynced k r q success).dirtyInodeSet = k.dirtyInodeSet \ [q.fileIno].toFinset ∧
      (fdataSynced k r q success).unlinkedInodeSet = k.unlinkedInodeSet \ [q.fileIno].toFinset ∧
      (fdataSynced k r q success).entries = k.entries := by
  unfold Sync.fdataSynced
  dsimp only
  split <;> exact ⟨rfl, rfl, rfl⟩

theorem callback_sets (h : k.callback v e success = some k') : ∃ l : List ℕ,
    k'.dirtyInodeSet = k.dirtyInodeSet \ l.toFinset ∧ k'.unlinkedInodeSet = k.unlinkedInodeSet \ l.toFinset ∧
      k'.entries = k.entries ∧ (e.batched = true → l = e.inodes) ∧
        (e.batched = false → ∃ q, k.req e.req = some q ∧ l = [q.fileIno]) := by
  unfold SyncWorker.callback at h
  cases hb : e.batched with
  | true =>
    rw [hb, if_pos rfl] at h
    obtain ⟨k1, hk1, hk'⟩ := bind_eq_some_iff.1 h
    obtain ⟨-, rfl⟩ := recordBatchInoAppFsyncDone_eq_some.1 hk1
    obtain ⟨q, hq, rfl⟩ := map_eq_some_iff.1 hk'
    refine ⟨e.inodes, ?_⟩
    dsimp only
    split <;> exact ⟨rfl, rfl, rfl, fun _ => rfl, nofun⟩
  | false =>
    rw [hb, if_neg (by decide)] at h
    obtain ⟨q, hq, h⟩ := bind_eq_some_iff.1 h
    obtain ⟨-, rfl⟩ := onFdataSyncComplete_eq_some.1 h
    obtain ⟨hd, hu, he⟩ := fdataSynced_sets k e.req q success
    exact ⟨[q.fileIno], hd, hu, he, (nofun), fun _ => ⟨q, hq, rfl⟩⟩

/-! ## All workers -/

/-- On every worker the requests are in their places, and the dirty inodes are those it has or unlinked ones. -/
structure Ordered (s : Syncs) : Prop where
  placed (w : ℕ) : Placed [] (s.worker w)
  owned (w i : ℕ) : i ∈ (s.worker w).dirtyInodeSet → s.location i = .worker w ∨ i ∈ (s.worker w).unlinkedInodeSet

variable {s s' : Syncs} {l : Syncs.Label} {w : ℕ}

theorem view_has (s : Syncs) (w i : ℕ) : (s.view w).has i = true ↔ s.location i = .worker w := decide_eq_true_iff

theorem Ordered.ownedView (h : Ordered s) (w : ℕ) : Owned (s.view w) (s.worker w) := fun i hi => by
  rw [view_has]
  exact h.owned w i hi

theorem setWorker_self (s : Syncs) (w : ℕ) (k : SyncWorker) : (s.setWorker w k).worker w = k := update_self ..

theorem setWorker_of_ne {w' : ℕ} (h : w' ≠ w) (s : Syncs) (k : SyncWorker) :
    (s.setWorker w k).worker w' = s.worker w' := update_of_ne h ..

theorem accept_sets (ha : k.accept v client stale = some k') :
    k'.dirtyInodeSet = k.dirtyInodeSet ∧ k'.unlinkedInodeSet = k.unlinkedInodeSet := by
  obtain ⟨-, inProgress, rfl⟩ := accept_cases ha
  exact ⟨rfl, rfl⟩

theorem act_of_step (h : Syncs.step l s = some s') : s.act l = some s' := by
  unfold Syncs.step at h
  split at h
  · exact h
  · cases h

theorem Placed.sets (h : Placed [] k) (d u : Finset ℕ) : Placed
    [] { k with dirtyInodeSet := d, unlinkedInodeSet := u } :=
  ⟨h.sound.congr rfl rfl rfl rfl, h.children.congr rfl rfl⟩

/-- The steps of a worker, but for changes of the sets of inodes; those that take a call further come with its
input. -/
inductive WorkerStep (v : InodeView) (k : SyncWorker) : Option CallInput → SyncWorker → Prop where
  | accept {k' : SyncWorker} (client : SyncWorker.ClientReq) (stale : ℕ) (h : k.accept v client stale = some k') :
      WorkerStep v k none k'
  | goOn {k' : SyncWorker} (input : CallInput) (h : k.goOn v input = some k') : WorkerStep v k (some input) k'
  | ready {k' : SyncWorker} (h : k.ready = some k') : WorkerStep v k none k'
  | flushDone {k' : SyncWorker} (r : ℕ) (h : k.flushDone r = some k') : WorkerStep v k none k'
  | readDone {k' : SyncWorker} (read : ℕ × Finset ℕ) (h : k.readDone read = some k') : WorkerStep v k none k'
  | serialize (j : ℕ) (e : SyncEntry) (body : ℕ → List Change) (hj : k.entries[j]? = some e) :
      WorkerStep v k none { k with entries := k.entries.set j { e with body := some body } }
  | callback {k' : SyncWorker} (j : ℕ) (e : SyncEntry) (success : Bool) (hj : k.entries[j]? = some e)
      (h : { k with entries := k.entries.eraseIdx j }.callback v e success = some k') : WorkerStep v k none k'

variable {call : Option CallInput}

theorem WorkerStep.placed (hs : WorkerStep v k call k') (h : Placed [] k) (howned : Owned v k) : Placed [] k' := by
  cases hs with
  | accept client stale ha => exact h.accept ha
  | goOn input hgo => exact h.goOn howned hgo
  | ready hr => exact h.ready hr
  | flushDone r hf => exact h.flushDone hf
  | readDone read hr => exact h.readDone hr
  | serialize j e body hj => exact h.serialize hj _
  | callback j e success hj hcb => exact h.callback hj hcb

theorem WorkerStep.sets (hs : WorkerStep v k call k') (h : Placed [] k) : ∃ inodes : List ℕ,
    k'.dirtyInodeSet = k.dirtyInodeSet \ inodes.toFinset ∧ k'.unlinkedInodeSet =
      k.unlinkedInodeSet \ inodes.toFinset := by
  have hsame (hd : k'.dirtyInodeSet = k.dirtyInodeSet) (hu : k'.unlinkedInodeSet = k.unlinkedInodeSet) :
      ∃ inodes : List ℕ, k'.dirtyInodeSet = k.dirtyInodeSet \ inodes.toFinset ∧
        k'.unlinkedInodeSet = k.unlinkedInodeSet \ inodes.toFinset :=
    ⟨[], by rw [hd]; simp, by rw [hu]; simp⟩
  cases hs with
  | accept client stale ha => exact hsame (accept_sets ha).1 (accept_sets ha).2
  | goOn input hgo =>
    rcases h.sound.goOn_cases hgo with ⟨rest, -, rfl⟩ | ⟨frame, p, rest, r, q, -, -, hq, hsound, -, ho⟩
    · obtain ⟨hd, hu, -⟩ := nextSyncunlinked_sets { k with calls := rest }
      exact hsame hd hu
    · obtain ⟨inodes, hd, hu, -⟩ := ho.sets
      exact ⟨inodes, hd, hu⟩
  | ready hr =>
    unfold SyncWorker.ready at hr
    split at hr
    · cases hr
    · rw [← Option.some.inj hr] at hsame ⊢
      exact hsame rfl rfl
  | serialize => exact hsame rfl rfl
  | flushDone r hf =>
    unfold SyncWorker.flushDone at hf
    split at hf
    · obtain ⟨q, -, rfl⟩ := map_eq_some_iff.1 hf
      exact hsame rfl rfl
    · cases hf
  | readDone read hr =>
    unfold SyncWorker.readDone at hr
    split at hr
    · rw [← Option.some.inj hr] at hsame ⊢
      exact hsame rfl rfl
    · cases hr
  | callback j e success hj hcb =>
    obtain ⟨inodes, hd, hu, -⟩ := callback_sets hcb
    exact ⟨inodes, hd, hu⟩

/-- Whether a step is about an inode only. -/
def isInodeStep : Syncs.Label → Bool
  | .log .. | .writeFileInode .. | .ownerDeallocResources .. | .load .. | .exportInode .. | .importInode .. => true
  | _ => false

/-- What a step gives to the call that goes on. -/
def callInput : Syncs.Label → Option CallInput
  | .goOn _ input => some input
  | _ => none

/-- What a step does to the workers: only one of them moves, and it changes its sets of inodes or
takes a step of its own. -/
def Acts (s : Syncs) (l : Syncs.Label) (s' : Syncs) : Prop :=
  (∀ w, w ≠ l.wid → s'.worker w = s.worker w) ∧ ((isInodeStep l = true ∧
    ∃ d u, s'.worker l.wid = { s.worker l.wid with dirtyInodeSet := d, unlinkedInodeSet := u }) ∨
    isInodeStep l = false ∧ s'.location = s.location ∧
      WorkerStep (s.view l.wid) (s.worker l.wid) (callInput l) (s'.worker l.wid))

theorem acts_worker {s1 : Syncs} (hl : isInodeStep l = false) (hloc : s1.location = s.location)
    (hworker : s1.worker = update s.worker l.wid k) (hk : WorkerStep (s.view l.wid) (s.worker l.wid)
      (callInput l) k) : Acts s l s1 := by
  unfold Acts
  rw [hworker]
  refine ⟨fun w' hne => update_of_ne hne .., .inr ⟨hl, hloc, ?_⟩⟩
  rw [update_self]
  exact hk

theorem acts_sets {s1 : Syncs} {d u : Finset ℕ} (hl : isInodeStep l = true) (hworker : s1.worker =
    update s.worker l.wid { s.worker l.wid with dirtyInodeSet := d, unlinkedInodeSet := u }) : Acts s l s1 := by
  unfold Acts
  rw [hworker]
  refine ⟨fun w' hne => update_of_ne hne .., .inl ⟨hl, d, u, ?_⟩⟩
  rw [update_self]

theorem act_cases (h : s.act l = some s') : Acts s l s' := by
  cases l with
  | log w ino =>
    obtain ⟨-, h⟩ := ite_none_right_eq_some.1 h
    cases h
    exact ⟨fun w' _ => rfl, .inl ⟨rfl, _, _, rfl⟩⟩
  | writeFileInode w ino =>
    obtain ⟨-, h⟩ := ite_none_right_eq_some.1 h
    cases h
    exact acts_sets rfl rfl
  | ownerDeallocResources w ino bitmaps =>
    cases h
    refine acts_sets rfl (d := insert ino (s.worker w).dirtyInodeSet) (u := insert ino (s.worker w).unlinkedInodeSet) ?_
    simp only [Syncs.Label.wid, Syncs.ownerDeallocResources, Syncs.writeFileInode, Syncs.setWorker,
      Syncs.addChange, update_self, update_idem]
  | load w ino =>
    obtain ⟨-, h⟩ := ite_none_right_eq_some.1 h
    cases h
    exact ⟨fun w' _ => rfl, .inl ⟨rfl, _, _, rfl⟩⟩
  | exportInode w ino =>
    obtain ⟨-, h⟩ := ite_none_right_eq_some.1 h
    cases h
    exact acts_sets rfl rfl
  | importInode w ino =>
    unfold Syncs.act at h
    dsimp only at h
    split at h
    · cases h
      exact acts_sets rfl rfl
    · cases h
  | accept w client stale =>
    obtain ⟨k', hk', rfl⟩ := map_eq_some_iff.1 h
    exact acts_worker rfl rfl rfl (.accept client stale hk')
  | goOn w input =>
    obtain ⟨k', hk', rfl⟩ := map_eq_some_iff.1 h
    exact acts_worker rfl rfl rfl (.goOn input hk')
  | ready w =>
    obtain ⟨k', hk', rfl⟩ := map_eq_some_iff.1 h
    exact acts_worker rfl rfl rfl (.ready hk')
  | flushDone w r =>
    obtain ⟨k', hk', rfl⟩ := map_eq_some_iff.1 h
    exact acts_worker rfl rfl rfl (.flushDone r hk')
  | readDone w read =>
    obtain ⟨k', hk', rfl⟩ := map_eq_some_iff.1 h
    exact acts_worker rfl rfl rfl (.readDone read hk')
  | serialize w j =>
    obtain ⟨e, hj, h⟩ := bind_eq_some_iff.1 h
    split at h
    · cases h
      exact acts_worker rfl rfl rfl (.serialize j e _ hj)
    · cases h
  | succeed w j =>
    obtain ⟨e, hj, h⟩ := bind_eq_some_iff.1 h
    obtain ⟨body, -, h⟩ := bind_eq_some_iff.1 h
    obtain ⟨k', hk', rfl⟩ := map_eq_some_iff.1 h
    exact acts_worker rfl rfl rfl (.callback j e true hj hk')
  | fail w j =>
    obtain ⟨e, hj, h⟩ := bind_eq_some_iff.1 h
    obtain ⟨k', hk', rfl⟩ := map_eq_some_iff.1 h
    exact acts_worker rfl rfl rfl (.callback j e false hj hk')

theorem Ordered.owned_of_inodeStep (h : Ordered s) (hl : isInodeStep l = true) (hact : s.act l = some s') (w' i : ℕ)
    (hi : i ∈ (s'.worker w').dirtyInodeSet) : s'.location i = .worker w' ∨ i ∈ (s'.worker w').unlinkedInodeSet := by
  cases l with
  | log w ino =>
    obtain ⟨-, hact⟩ := ite_none_right_eq_some.1 hact
    rw [← Option.some.inj hact] at hi ⊢
    exact h.owned w' i hi
  | writeFileInode w ino =>
    obtain ⟨hloc, hact⟩ := ite_none_right_eq_some.1 hact
    rw [← Option.some.inj hact] at hi ⊢
    unfold Syncs.writeFileInode at hi ⊢
    rcases eq_or_ne w' w with rfl | hne
    · rw [setWorker_self] at hi ⊢
      rcases Finset.mem_insert.1 hi with rfl | hi
      · exact .inl hloc
      · exact h.owned w' i hi
    · rw [setWorker_of_ne hne] at hi ⊢
      exact h.owned w' i hi
  | ownerDeallocResources w ino bitmaps =>
    rw [← Option.some.inj hact] at hi ⊢
    simp only [Syncs.ownerDeallocResources, Syncs.writeFileInode, Syncs.setWorker, Syncs.addChange, update_self,
      update_idem] at hi ⊢
    rcases eq_or_ne w' w with rfl | hne
    · rw [update_self] at hi ⊢
      rcases Finset.mem_insert.1 hi with rfl | hi
      · exact .inr (Finset.mem_insert_self ..)
      · exact (h.owned w' i hi).imp id (Finset.mem_insert_of_mem ·)
    · rw [update_of_ne hne] at hi ⊢
      exact h.owned w' i hi
  | load w ino =>
    obtain ⟨hloc, hact⟩ := ite_none_right_eq_some.1 hact
    rw [← Option.some.inj hact] at hi ⊢
    dsimp only
    rcases h.owned w' i hi with hin | hin
    · have hne : i ≠ ino := fun heq => by rw [heq, hloc] at hin; cases hin
      rw [update_of_ne hne]
      exact .inl hin
    · exact .inr hin
  | exportInode w ino =>
    obtain ⟨hloc, hact⟩ := ite_none_right_eq_some.1 hact
    rw [← Option.some.inj hact] at hi ⊢
    unfold Syncs.exportInode at hi ⊢
    dsimp only at hi ⊢
    rcases eq_or_ne w' w with rfl | hne
    · rw [setWorker_self] at hi ⊢
      have hi := Finset.mem_erase.1 hi
      rw [update_of_ne hi.1]
      exact (h.owned w' i hi.2).imp id fun hin => Finset.mem_erase.2 ⟨hi.1, hin⟩
    · rw [setWorker_of_ne hne] at hi ⊢
      rcases h.owned w' i hi with hin | hin
      · have hi : i ≠ ino := fun heq => hne (by rw [heq, hloc.1] at hin; cases hin; rfl)
        rw [update_of_ne hi]
        exact .inl hin
      · exact .inr hin
  | importInode w ino =>
    unfold Syncs.act at hact
    dsimp only at hact
    split at hact
    · next dirty unlinked hloc =>
      rw [← Option.some.inj hact] at hi ⊢
      unfold Syncs.importInode at hi ⊢
      dsimp only at hi ⊢
      rcases eq_or_ne w' w with rfl | hne
      · rcases eq_or_ne i ino with rfl | hino
        · rw [update_self]
          exact .inl rfl
        · rw [setWorker_self] at hi ⊢
          rw [update_of_ne hino]
          dsimp only at hi ⊢
          have hi : i ∈ (s.worker w').dirtyInodeSet := by
            split at hi
            · exact Finset.mem_of_mem_insert_of_ne hi hino
            · exact hi
          refine (h.owned w' i hi).imp id fun hin => ?_
          split
          · exact Finset.mem_insert_of_mem hin
          · exact hin
      · rw [setWorker_of_ne hne] at hi ⊢
        rcases h.owned w' i hi with hin | hin
        · have hino : i ≠ ino := fun heq => by rw [heq, hloc] at hin; cases hin
          rw [update_of_ne hino]
          exact .inl hin
        · exact .inr hin
    · cases hact
  | accept | goOn | ready | flushDone | readDone | serialize | succeed | fail => cases hl

theorem Ordered.step (h : Ordered s) (hstep : Syncs.step l s = some s') : Ordered s' := by
  have hact := act_of_step hstep
  obtain ⟨hother, hcases⟩ := act_cases hact
  have hplaced (w : ℕ) : Placed [] (s'.worker w) := by
    rcases eq_or_ne w l.wid with rfl | hne
    · rcases hcases with ⟨-, d, u, hsets⟩ | ⟨-, -, hstep⟩
      · rw [hsets]
        exact (h.placed l.wid).sets d u
      · exact hstep.placed (h.placed l.wid) (h.ownedView l.wid)
    · rw [hother w hne]
      exact h.placed w
  refine ⟨hplaced, fun w i hi => ?_⟩
  rcases hcases with ⟨hl, -⟩ | ⟨-, hloc, hstep⟩
  · exact h.owned_of_inodeStep hl hact w i hi
  · rw [hloc]
    rcases eq_or_ne w l.wid with rfl | hne
    · obtain ⟨inodes, hd, hu⟩ := hstep.sets (h.placed l.wid)
      rw [← view_has]
      exact (h.ownedView l.wid).sdiff hd hu i hi
    · rw [hother w hne] at hi ⊢
      exact h.owned w i hi

theorem ordered_init : Ordered Syncs.init := by
  refine ⟨fun w => ⟨⟨fun r hr => ⟨rfl, not_mem_nil, not_mem_nil, not_mem_nil⟩, fun r q hq => ?_,
    fun p r q hmem => absurd hmem not_mem_nil, fun r q hq => ?_, fun r q hq => ?_,
    nofun, fun r q hq => ?_⟩,
    ⟨nodup_nil, nofun, nofun, fun c p hc => ?_, fun c c' p hc => ?_⟩⟩, fun w i hi => absurd hi (Finset.notMem_empty i)⟩
  · cases hq
  · cases hq
  · cases hq
  · cases hq
  · cases hc
  · cases hc

end Ufs.Proof.Sync
