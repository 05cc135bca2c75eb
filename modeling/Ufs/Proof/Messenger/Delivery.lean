import Ufs.Impl.MsgRing

/-!
# What the ring of messages delivers

In every run in which producers leave the loop of `shmipc_mgr_alloc_slot` in turn (`InTurn`),
`get_message` returns the messages as they were put and in the order of their tickets (`Delivers`).
The code does not keep the producers that wait for one slot in turn: a thread that draws a ticket
and is delayed is overtaken by the one that draws the slot's next ticket (`overtaken`).
-/

namespace Ufs.Proof.Messenger

open Impl FsProcMsgRing
open Function (update update_of_ne update_self)
open List

variable {ι : Type*}

/-- The slot of a message that can be taken. -/
def readySlot (msg : FsProcMsg) : ShmipcMsg := ⟨.readyForServer, msg.type, msg.ctx⟩

/-- What a ring of messages is for. -/
structure Delivers (s : FsProcMsgRing ι) : Prop where
  /-- Each message is returned once, as it was put and in the order of tickets. -/
  order : s.received <+: s.sent
  /-- A message that was put is in its slot until `get_message` takes it. -/
  kept : ∀ t msg, s.sent[t]? = some msg → s.consumerNext ≤ t →
    (∀ p loc msg', s.producers p ≠ .putMessage loc t msg') → s.ring (s.ringIdx t) = readySlot msg
  /-- The next message is ready, or the thread that puts it can go on. -/
  live : ∀ msg, s.sent[s.consumerNext]? = some msg → s.ring (s.ringIdx s.consumerNext) = readySlot msg ∨
    ∃ p loc, s.producers p = .putMessage loc s.consumerNext msg ∧
      (s.consumer = .idle → loc = .spin → (s.ring (s.ringIdx s.consumerNext)).status = .empty)

/-- The ticket of a thread that is in `shmipc_mgr_alloc_slot`. -/
def allocSlot : PutState → Option ℕ
  | .putMessage .spin t _ => some t
  | .putMessage .sawEmpty t _ => some t
  | _ => none

/-- The condition on a step: a producer that finds its slot empty has the first ticket for it of those that
are in `shmipc_mgr_alloc_slot`. -/
def InTurn (l : Label ι) (s : FsProcMsgRing ι) : Prop :=
  match l with
  | .producer p =>
    match s.producers p with
    | .putMessage .spin t _ => (s.ring (s.ringIdx t)).status = .empty →
        ∀ q, ∀ t' ∈ allocSlot (s.producers q), t' < t → s.ringIdx t' ≠ s.ringIdx t
    | _ => True
  | _ => True

instance InTurn.decidable [Fintype ι] (l : Label ι) (s : FsProcMsgRing ι) : Decidable (InTurn l s) :=
  match l with
  | .producer p =>
    match h : s.producers p with
    | .putMessage .spin t _ =>
      decidable_of_iff ((s.ring (s.ringIdx t)).status = .empty →
        ∀ q, ∀ t' ∈ allocSlot (s.producers q), t' < t → s.ringIdx t' ≠ s.ringIdx t) (by simp only [InTurn, h])
    | .putMessage .sawEmpty _ _ => isTrue (by simp only [InTurn, h])
    | .putMessage .reserved _ _ => isTrue (by simp only [InTurn, h])
    | .putMessage .copied _ _ => isTrue (by simp only [InTurn, h])
    | .idle => isTrue (by simp only [InTurn, h])
  | .putMessage _ _ => isTrue trivial
  | .consumer => isTrue trivial

/-! ## The invariant -/

/-- The thread that drew ticket `t` still has the message. -/
def Held (s : FsProcMsgRing ι) (t : ℕ) : Prop := ∃ p loc msg, s.producers p = .putMessage loc t msg

/-- It waits for its slot to be emptied. -/
def Spins (s : FsProcMsgRing ι) (t : ℕ) : Prop := ∃ p msg, s.producers p = .putMessage .spin t msg

/-- The slot of `t` is for the message of `t`: a thread has left the loop with that ticket, and the message
is not yet returned. -/
def Owns (s : FsProcMsgRing ι) (t : ℕ) : Prop := s.received.length ≤ t ∧ t < s.sent.length ∧ ¬ Spins s t

/-- What is in the slot of a thread that is at `loc`. -/
def SlotAt (loc : PutLoc) (msg : FsProcMsg) (x : ShmipcMsg) : Prop :=
  match loc with
  | .spin => True
  | .sawEmpty => x.status = .empty
  | .reserved => x.status = .reserved
  | .copied => x = ⟨.reserved, msg.type, msg.ctx⟩

/-- What the consumer has read of `msg`, which is in slot `idx`. -/
def ReadOf (idx : ℕ) (msg : FsProcMsg) (c : GetState) : Prop :=
  c = .gotMsg idx ∨ c = .gotType idx msg.type ∨ c = .gotCtx idx msg

/-- The consumer is idle, or reads the message with the first ticket that was not returned. -/
def Reads (s : FsProcMsgRing ι) : Prop :=
  (s.consumer = .idle ∧ s.consumerNext = s.received.length) ∨
    s.consumerNext = s.received.length + 1 ∧ ¬ Held s s.received.length ∧
      ∃ msg, s.sent[s.received.length]? = some msg ∧ ReadOf (s.ringIdx s.received.length) msg s.consumer

/-- The invariant of the ring: the holder of a ticket has its slot from the moment the message
before was taken, and a message put is in its slot until it is returned. -/
structure Inv (s : FsProcMsgRing ι) : Prop where
  next : s.producerNext = s.sent.length
  order : s.received <+: s.sent
  ticket : ∀ p loc t msg, s.producers p = .putMessage loc t msg →
    s.sent[t]? = some msg ∧ s.received.length ≤ t ∧ SlotAt loc msg (s.ring (s.ringIdx t))
  distinct : ∀ p q loc loc' t msg msg', s.producers p = .putMessage loc t msg →
    s.producers q = .putMessage loc' t msg' → p = q
  /-- The messages that had the slot before are returned. -/
  turn : ∀ t, Owns s t → ∀ t' < t, s.ringIdx t' = s.ringIdx t → t' < s.received.length
  ready : ∀ t msg, s.sent[t]? = some msg → s.received.length ≤ t → ¬ Held s t →
    s.ring (s.ringIdx t) = readySlot msg
  free : ∀ i, (∀ t, Owns s t → s.ringIdx t ≠ i) → (s.ring i).status = .empty
  reads : Reads s

variable {t' : ℕ}

section Invariant

variable {s : FsProcMsgRing ι} {p : ι} {loc : PutLoc} {t : ℕ} {msg : FsProcMsg}

theorem Inv.owner_unique (hi : Inv s) (h : Owns s t) (h' : Owns s t') (heq : s.ringIdx t = s.ringIdx t') : t = t' := by
  rcases Nat.lt_trichotomy t t' with hlt | heq' | hgt
  · have := hi.turn t' h' t hlt heq
    have := h.1
    omega
  · exact heq'
  · have := hi.turn t h t' hgt heq.symm
    have := h'.1
    omega

theorem Inv.owner_first (hi : Inv s) (h : Owns s t) (heq : s.ringIdx t = s.ringIdx s.received.length) :
    t = s.received.length := by
  rcases Nat.lt_or_eq_of_le h.1 with hlt | heq'
  · exact absurd (hi.turn t h _ hlt heq.symm) (Nat.lt_irrefl _)
  · exact heq'.symm

theorem owns_of_not_held (h : s.sent[t]? = some msg) (hr : s.received.length ≤ t) (hh : ¬ Held s t) : Owns s t :=
  ⟨hr, (List.getElem?_eq_some_iff.1 h).1, fun ⟨p, msg', hp⟩ => hh ⟨p, .spin, msg', hp⟩⟩

theorem Inv.owns_of_entered (hi : Inv s) (hp : s.producers p = .putMessage loc t msg) (hloc : loc ≠ .spin) :
    Owns s t := by
  obtain ⟨hs, hr, -⟩ := hi.ticket p loc t msg hp
  refine ⟨hr, (List.getElem?_eq_some_iff.1 hs).1, ?_⟩
  rintro ⟨q, msg', hq⟩
  obtain rfl := hi.distinct p q _ _ t _ _ hp hq
  rw [hp] at hq
  cases hq
  exact hloc rfl

theorem Inv.empty_of_spins (hi : Inv s) (hs : Spins s s.received.length) :
    (s.ring (s.ringIdx s.received.length)).status = .empty := by
  apply hi.free
  intro t ht heq
  obtain rfl := hi.owner_first ht heq
  exact ht.2.2 hs

theorem Inv.next_of_ready (hi : Inv s) (h : (s.ring (s.ringIdx s.received.length)).status = .readyForServer) :
    ∃ msg, s.sent[s.received.length]? = some msg ∧ ¬ Held s s.received.length := by
  have howner : ∃ t, Owns s t ∧ s.ringIdx t = s.ringIdx s.received.length := by
    by_contra hno
    push Not at hno
    rw [hi.free _ hno] at h
    cases h
  obtain ⟨t, ht, heq⟩ := howner
  obtain rfl := hi.owner_first ht heq
  refine ⟨_, List.getElem?_eq_getElem ht.2.1, ?_⟩
  rintro ⟨p, loc, msg, hp⟩
  obtain ⟨-, -, hslot⟩ := hi.ticket p loc _ msg hp
  cases loc with
  | spin => exact ht.2.2 ⟨p, msg, hp⟩
  | sawEmpty =>
    rw [show _ = _ from hslot] at h
    cases h
  | reserved =>
    rw [show _ = _ from hslot] at h
    cases h
  | copied =>
    rw [show _ = _ from hslot] at h
    cases h

theorem Inv.returned_of_empty (hi : Inv s) (hempty : (s.ring (s.ringIdx t)).status = .empty)
    (hturn : ∀ q, ∀ t' ∈ allocSlot (s.producers q), t' < t → s.ringIdx t' ≠ s.ringIdx t) (hlt : t' < t)
    (hsent : t < s.sent.length) (heq : s.ringIdx t' = s.ringIdx t) : t' < s.received.length := by
  by_contra hr
  have hstatus : (s.ring (s.ringIdx t')).status = .empty := heq ▸ hempty
  by_cases hh : Held s t'
  · obtain ⟨q, loc, msg', hq⟩ := hh
    have hslot := (hi.ticket q loc t' msg' hq).2.2
    cases loc with
    | spin => exact hturn q t' (by rw [hq]; rfl) hlt heq
    | sawEmpty => exact hturn q t' (by rw [hq]; rfl) hlt heq
    | reserved =>
      rw [show _ = _ from hslot] at hstatus
      cases hstatus
    | copied =>
      rw [show _ = _ from hslot] at hstatus
      cases hstatus
  · rw [hi.ready t' _ (List.getElem?_eq_getElem (hlt.trans hsent)) (Nat.le_of_not_lt hr) hh] at hstatus
    cases hstatus

theorem reads_of_held {s s' : FsProcMsgRing ι} (h : Reads s) (hc : s'.consumer = s.consumer)
    (hn : s'.consumerNext = s.consumerNext) (hr : s'.received = s.received) (hm : s'.mask = s.mask)
    (hs : ∀ (t : ℕ) msg, s.sent[t]? = some msg → s'.sent[t]? = some msg)
      (hh : ∀ t < s.sent.length, Held s' t → Held s t) : Reads s' := by
  unfold Reads ringIdx at *
  rw [hc, hn, hr, hm]
  rcases h with h | ⟨hnext, hno, msg, hmsg, hread⟩
  · exact .inl h
  · have hlt := (List.getElem?_eq_some_iff.1 hmsg).1
    exact .inr ⟨hnext, fun hc => hno (hh _ hlt hc), msg, hs _ _ hmsg, hread⟩

end Invariant

/-! ## The steps of the producers -/

section Producers

variable [DecidableEq ι] {s : FsProcMsgRing ι} {p : ι} {loc : PutLoc} {t : ℕ} {msg : FsProcMsg} {x : PutState}

theorem producers_setProducer (q : ι) : (s.setProducer p x).producers q = if q = p then x else s.producers q :=
    Function.update_apply ..

theorem producer_cases {q : ι} (h : (s.setProducer p x).producers q = .putMessage loc t msg) :
    (q = p ∧ x = .putMessage loc t msg) ∨ (q ≠ p ∧ s.producers q = .putMessage loc t msg) := by
  rw [producers_setProducer] at h
  split at h
  · exact .inl ⟨‹_›, h⟩
  · exact .inr ⟨‹_›, h⟩

theorem producer_of_ne {q : ι} {y : PutState} (h : s.producers q = .putMessage loc t msg) (hp : s.producers p = y)
    (hy : ∀ loc msg, y ≠ .putMessage loc t msg) : (s.setProducer p x).producers q = .putMessage loc t msg := by
  rw [producers_setProducer, if_neg]
  · exact h
  · rintro rfl
    exact hy loc msg (hp.symm.trans h)

theorem distinct_setProducer (hi : ∀ p q loc loc' t msg msg', s.producers p = .putMessage loc t msg →
      s.producers q = .putMessage loc' t msg' → p = q)
    (hx : ∀ loc t msg, x = .putMessage loc t msg → ∀ q loc' msg', s.producers q = .putMessage loc' t msg' → q = p)
    (q q' : ι) (loc loc' : PutLoc) (t : ℕ) (msg msg' : FsProcMsg)
      (h : (s.setProducer p x).producers q = .putMessage loc t msg)
    (h' : (s.setProducer p x).producers q' = .putMessage loc' t msg') : q = q' := by
  rcases producer_cases h with ⟨hq, hx1⟩ | ⟨-, hq⟩ <;> rcases producer_cases h' with ⟨hq', hx2⟩ | ⟨-, hq'⟩
  · exact hq.trans hq'.symm
  · exact hq.trans (hx _ _ _ hx1 q' _ _ hq').symm
  · exact (hx _ _ _ hx2 q _ _ hq).trans hq'.symm
  · exact hi _ _ _ _ _ _ _ hq hq'

/-- The state after `p` has drawn a ticket for `msg`. -/
def drawn (s : FsProcMsgRing ι) (p : ι) (msg : FsProcMsg) : FsProcMsgRing ι :=
  { s with producerNext := s.producerNext + 1, sent := s.sent ++ [msg] }.setProducer p
    (.putMessage .spin s.producerNext msg)

theorem held_drawn (hi : Inv s) (hp : s.producers p = .idle) :
    Held (drawn s p msg) t ↔ Held s t ∨ t = s.sent.length := by
  constructor
  · rintro ⟨q, loc, msg', hq⟩
    rcases producer_cases hq with ⟨-, hx⟩ | ⟨-, hq⟩
    · cases hx
      exact .inr hi.next
    · exact .inl ⟨q, loc, msg', hq⟩
  · rintro (⟨q, loc, msg', hq⟩ | rfl)
    · exact ⟨q, loc, msg', producer_of_ne hq hp nofun⟩
    · exact ⟨p, .spin, msg, by rw [drawn, producers_setProducer, if_pos rfl, hi.next]⟩

theorem spins_drawn (hi : Inv s) (hp : s.producers p = .idle) :
    Spins (drawn s p msg) t ↔ Spins s t ∨ t = s.sent.length := by
  constructor
  · rintro ⟨q, msg', hq⟩
    rcases producer_cases hq with ⟨-, hx⟩ | ⟨-, hq⟩
    · cases hx
      exact .inr hi.next
    · exact .inl ⟨q, msg', hq⟩
  · rintro (⟨q, msg', hq⟩ | rfl)
    · exact ⟨q, msg', producer_of_ne hq hp nofun⟩
    · exact ⟨p, msg, by rw [drawn, producers_setProducer, if_pos rfl, hi.next]⟩

theorem length_drawn : (drawn s p msg).sent.length = s.sent.length + 1 := length_append

theorem owns_drawn (hi : Inv s) (hp : s.producers p = .idle) : Owns (drawn s p msg) t ↔ Owns s t := by
  unfold Owns
  rw [spins_drawn hi hp, length_drawn]
  refine and_congr_right fun _ => ⟨fun ⟨hlt, hno⟩ => ⟨?_, fun h => hno (.inl h)⟩, fun ⟨hlt, hno⟩ => ⟨by omega, ?_⟩⟩
  · have : t ≠ s.sent.length := fun h => hno (.inr h)
    omega
  · rintro (h | rfl)
    · exact hno h
    · exact absurd hlt (Nat.lt_irrefl _)

theorem inv_drawn (hi : Inv s) (hp : s.producers p = .idle) : Inv (drawn s p msg) := by
  have hsent : ∀ (t : ℕ) msg', s.sent[t]? = some msg' → (drawn s p msg).sent[t]? = some msg' := fun t msg' h =>
    (List.getElem?_append_left (List.getElem?_eq_some_iff.1 h).1).trans h
  have hlt : ∀ {q loc t msg'}, s.producers q = .putMessage loc t msg' → t < s.sent.length := fun hq =>
    (List.getElem?_eq_some_iff.1 (hi.ticket _ _ _ _ hq).1).1
  refine ⟨?_, hi.order.trans (prefix_append _ _), ?_, ?_, ?_, ?_, ?_, ?_⟩
  · rw [length_drawn, ← hi.next]
    rfl
  · intro q loc t msg' hq
    rcases producer_cases hq with ⟨-, hx⟩ | ⟨-, hq⟩
    · cases hx
      rw [hi.next]
      exact ⟨List.getElem?_concat_length, hi.order.length_le, trivial⟩
    · obtain ⟨h1, h2, h3⟩ := hi.ticket q loc t msg' hq
      exact ⟨hsent t msg' h1, h2, h3⟩
  · refine distinct_setProducer hi.distinct fun loc t msg' hx q loc' msg'' hq => ?_
    cases hx
    have := hlt hq
    have := hi.next
    omega
  · intro t ht
    exact hi.turn t ((owns_drawn hi hp).1 ht)
  · intro t msg' hmsg hr hno
    rw [held_drawn hi hp, not_or] at hno
    have hlt' : t < s.sent.length := by
      have := (List.getElem?_eq_some_iff.1 hmsg).1
      rw [length_drawn] at this
      omega
    exact hi.ready t msg' ((List.getElem?_append_left hlt').symm.trans hmsg) hr hno.1
  · intro i hno
    exact hi.free i fun t ht => hno t ((owns_drawn hi hp).2 ht)
  · refine reads_of_held hi.reads rfl rfl rfl rfl hsent fun t hlt' h => ?_
    rcases (held_drawn hi hp).1 h with h | rfl
    · exact h
    · exact absurd hlt' (Nat.lt_irrefl _)

theorem held_setProducer (hp : s.producers p = .putMessage loc t msg) {loc' : PutLoc} :
    Held (s.setProducer p (.putMessage loc' t msg)) t' ↔ Held s t' := by
  constructor
  · rintro ⟨q, l, msg', hq⟩
    rcases producer_cases hq with ⟨-, hx⟩ | ⟨-, hq⟩
    · cases hx
      exact ⟨p, loc, msg, hp⟩
    · exact ⟨q, l, msg', hq⟩
  · rintro ⟨q, l, msg', hq⟩
    by_cases hqp : q = p
    · subst hqp
      rw [hp] at hq
      cases hq
      exact ⟨q, loc', msg, by rw [producers_setProducer, if_pos rfl]⟩
    · exact ⟨q, l, msg', by rw [producers_setProducer, if_neg hqp, hq]⟩

theorem inv_enter (hi : Inv s) (hp : s.producers p = .putMessage .spin t msg)
    (hempty : (s.ring (s.ringIdx t)).status = .empty)
    (hturn : ∀ q, ∀ t' ∈ allocSlot (s.producers q), t' < t → s.ringIdx t' ≠ s.ringIdx t) :
      Inv (s.setProducer p (.putMessage .sawEmpty t msg)) := by
  have howns : ∀ t', Owns (s.setProducer p (.putMessage .sawEmpty t msg)) t' → Owns s t' ∨ t' = t := by
    rintro t' ⟨hr, hlt, hno⟩
    by_cases ht : t' = t
    · exact .inr ht
    · refine .inl ⟨hr, hlt, fun ⟨q, msg', hq⟩ => hno ⟨q, msg', ?_⟩⟩
      exact producer_of_ne hq hp fun _ _ h => ht (by cases h; rfl)
  have howns' : ∀ t', Owns s t' → Owns (s.setProducer p (.putMessage .sawEmpty t msg)) t' := by
    rintro t' ⟨hr, hlt, hno⟩
    refine ⟨hr, hlt, fun ⟨q, msg', hq⟩ => ?_⟩
    rcases producer_cases hq with ⟨-, hx⟩ | ⟨-, hq⟩
    · cases hx
    · exact hno ⟨q, msg', hq⟩
  obtain ⟨hsent, hleft, -⟩ := hi.ticket _ _ _ _ hp
  refine ⟨hi.next, hi.order, ?_, ?_, ?_, ?_, ?_, ?_⟩
  · intro q loc t' msg' hq
    rcases producer_cases hq with ⟨-, hx⟩ | ⟨-, hq⟩
    · cases hx
      exact ⟨hsent, hleft, hempty⟩
    · exact hi.ticket q loc t' msg' hq
  · refine distinct_setProducer hi.distinct fun loc t' msg' hx q loc' msg'' hq => ?_
    cases hx
    exact hi.distinct _ _ _ _ _ _ _ hq hp
  · intro t1 ht1 t' hlt heq
    rcases howns t1 ht1 with h | rfl
    · exact hi.turn t1 h t' hlt heq
    · exact hi.returned_of_empty hempty hturn hlt (List.getElem?_eq_some_iff.1 hsent).1 heq
  · intro t' msg' hmsg hr hno
    exact hi.ready t' msg' hmsg hr fun h => hno ((held_setProducer hp).2 h)
  · intro i hno
    exact hi.free i fun t' ht' => hno t' (howns' t' ht')
  · exact reads_of_held hi.reads rfl rfl rfl rfl (fun _ _ h => h) fun t' _ h => (held_setProducer hp).1 h

/-- The state in which `p`, that has left the loop with ticket `t`, has stored `y` in its slot. -/
def stored (s : FsProcMsgRing ι) (p : ι) (t : ℕ) (y : ShmipcMsg) (x : PutState) : FsProcMsgRing ι :=
  (s.setSlot (s.ringIdx t) y).setProducer p x

/-- What the slot and the thread are after a step that stores. -/
def Stores (t : ℕ) (msg : FsProcMsg) (y : ShmipcMsg) (x : PutState) : Prop :=
  (∃ loc, loc ≠ .spin ∧ SlotAt loc msg y ∧ x = .putMessage loc t msg) ∨ (y = readySlot msg ∧ x = .idle)

variable {y : ShmipcMsg}

theorem owns_stored (hp : s.producers p = .putMessage loc t msg) (hloc : loc ≠ .spin)
    (hx : Stores t msg y x) : Owns (stored s p t y x) t' ↔ Owns s t' := by
  have hspins : Spins (stored s p t y x) t' ↔ Spins s t' := by
    constructor
    · rintro ⟨q, msg', hq⟩
      rcases producer_cases hq with ⟨-, hx'⟩ | ⟨-, hq⟩
      · rcases hx with ⟨loc', hloc', -, rfl⟩ | ⟨-, rfl⟩
        · cases hx'
          exact absurd rfl hloc'
        · cases hx'
      · exact ⟨q, msg', hq⟩
    · rintro ⟨q, msg', hq⟩
      refine ⟨q, msg', ?_⟩
      rw [stored, producers_setProducer, if_neg]
      · exact hq
      · rintro rfl
        rw [hp] at hq
        cases hq
        exact hloc rfl
  exact and_congr_right fun _ => and_congr_right fun _ => not_congr hspins

theorem ring_stored (hi : Inv s) (ht : Owns s t) (ht' : Owns s t') (hne : t' ≠ t) :
    (stored s p t y x).ring (s.ringIdx t') = s.ring (s.ringIdx t') :=
  update_of_ne (fun h => hne (hi.owner_unique ht' ht h)) ..

theorem inv_stored (hi : Inv s) (hp : s.producers p = .putMessage loc t msg) (hloc : loc ≠ .spin)
    (hx : Stores t msg y x) : Inv (stored s p t y x) := by
  have ht : Owns s t := hi.owns_of_entered hp hloc
  obtain ⟨hsent, hleft, -⟩ := hi.ticket _ _ _ _ hp
  have hsame : (stored s p t y x).ring (s.ringIdx t) = y := update_self ..
  have hheld : ∀ {t'}, t' ≠ t → (Held (stored s p t y x) t' ↔ Held s t') := by
    intro t' hne
    constructor
    · rintro ⟨q, l, msg', hq⟩
      rcases producer_cases hq with ⟨-, hx'⟩ | ⟨-, hq⟩
      · rcases hx with ⟨loc', -, -, rfl⟩ | ⟨-, rfl⟩
        · cases hx'
          exact absurd rfl hne
        · cases hx'
      · exact ⟨q, l, msg', hq⟩
    · rintro ⟨q, l, msg', hq⟩
      refine ⟨q, l, msg', ?_⟩
      rw [stored, producers_setProducer, if_neg]
      · exact hq
      · rintro rfl
        rw [hp] at hq
        cases hq
        exact hne rfl
  refine ⟨hi.next, hi.order, ?_, ?_, ?_, ?_, ?_, ?_⟩
  · intro q l t' msg' hq
    rcases producer_cases hq with ⟨-, hx'⟩ | ⟨hqp, hq⟩
    · rcases hx with ⟨loc', -, hslot, rfl⟩ | ⟨-, rfl⟩
      · cases hx'
        refine ⟨hsent, hleft, ?_⟩
        show SlotAt l msg ((stored s p t y _).ring (s.ringIdx t))
        rw [hsame]
        exact hslot
      · cases hx'
    · obtain ⟨h1, h2, h3⟩ := hi.ticket q l t' msg' hq
      refine ⟨h1, h2, ?_⟩
      by_cases hl : l = .spin
      · rw [hl]
        trivial
      · have hne : t' ≠ t := by
          rintro rfl
          exact hqp (hi.distinct _ _ _ _ _ _ _ hq hp)
        show SlotAt l msg' ((stored s p t y x).ring (s.ringIdx t'))
        rw [ring_stored hi ht (hi.owns_of_entered hq hl) hne]
        exact h3
  · refine distinct_setProducer hi.distinct fun l t' msg' hx' q loc' msg'' hq => ?_
    rcases hx with ⟨_, -, -, rfl⟩ | ⟨-, rfl⟩
    · cases hx'
      exact hi.distinct _ _ _ _ _ _ _ hq hp
    · cases hx'
  · intro t' ht'
    exact hi.turn t' ((owns_stored hp hloc hx).1 ht')
  · intro t' msg' hmsg hr hno
    by_cases hne : t' = t
    · subst hne
      -- the thread has put its message
      rcases hx with ⟨loc', -, -, rfl⟩ | ⟨rfl, -⟩
      · exact absurd ⟨p, loc', msg, by rw [stored, producers_setProducer, if_pos rfl]⟩ hno
      · rw [show s.sent[t']? = some msg' from hmsg] at hsent
        cases hsent
        exact hsame
    · rw [hheld hne] at hno
      exact (ring_stored hi ht (owns_of_not_held hmsg hr hno) hne).trans (hi.ready t' msg' hmsg hr hno)
  · intro i hno
    have hne : i ≠ s.ringIdx t := fun h => hno t ((owns_stored hp hloc hx).2 ht) h.symm
    show (update s.ring (s.ringIdx t) y i).status = .empty
    rw [update_of_ne hne]
    exact hi.free i fun t' ht' => hno t' ((owns_stored hp hloc hx).2 ht')
  · refine reads_of_held hi.reads rfl rfl rfl rfl (fun _ _ h => h) fun t' _ h => ?_
    by_cases hne : t' = t
    · exact ⟨p, loc, msg, hne ▸ hp⟩
    · exact (hheld hne).1 h

theorem inv_stepProducer (hi : Inv s) (hp : s.producers p = .putMessage loc t msg)
    (hturn : InTurn (.producer p) s) : Inv (s.stepProducer p loc t msg) := by
  have hslot := (hi.ticket _ _ _ _ hp).2.2
  cases loc with
  | spin =>
    simp only [InTurn, hp] at hturn
    simp only [stepProducer]
    split
    · exact inv_enter hi hp ‹_› (hturn ‹_›)
    · exact hi
  | sawEmpty => exact inv_stored hi hp (by simp) (.inl ⟨.reserved, by simp, rfl, rfl⟩)
  | reserved =>
    refine inv_stored hi hp (by simp) (.inl ⟨.copied, by simp, ?_, rfl⟩)
    show _ = _
    rw [show _ = _ from hslot]
  | copied =>
    refine inv_stored hi hp (by simp) (.inr ⟨?_, rfl⟩)
    rw [show _ = _ from hslot]
    rfl

end Producers

/-! ## The steps of the consumer -/

section Consumer

variable {s : FsProcMsgRing ι} {msg : FsProcMsg}

theorem inv_clear (hi : Inv s) (hno : ¬ Held s s.received.length)
    (hmsg : s.sent[s.received.length]? = some msg) (hnext : s.consumerNext = s.received.length + 1) :
    Inv { s.setSlot (s.ringIdx s.received.length) .zero with consumer := .idle, received := s.received ++ [msg] } := by
  set s' := { s.setSlot (s.ringIdx s.received.length) .zero with
      consumer := .idle, received := s.received ++ [msg] } with hs'
  have hr : s'.received.length = s.received.length + 1 := length_append
  have hown : Owns s s.received.length := owns_of_not_held hmsg (Nat.le_refl _) hno
  have howns : ∀ {t}, Owns s' t ↔ Owns s t ∧ t ≠ s.received.length := by
    intro t
    unfold Owns
    rw [hr]
    constructor
    · rintro ⟨h1, h2⟩
      exact ⟨⟨by omega, h2⟩, by omega⟩
    · rintro ⟨⟨h1, h2⟩, h3⟩
      exact ⟨by omega, h2⟩
  have hring : ∀ {t}, Owns s t → t ≠ s.received.length → s'.ring (s'.ringIdx t) = s.ring (s.ringIdx t) := by
    intro t ht hne
    exact update_of_ne (fun h => hne (hi.owner_unique ht hown h)) ..
  refine ⟨hi.next, ?_, ?_, hi.distinct, ?_, ?_, ?_, ?_⟩
  · have htake : s.received ++ [msg] = s.sent.take (s.received.length + 1) := by
      rw [take_add_one, hmsg, ← prefix_iff_eq_take.1 hi.order]
      rfl
    show s.received ++ [msg] <+: s.sent
    rw [htake]
    exact take_prefix ..
  · intro q l t msg' hq
    obtain ⟨h1, h2, h3⟩ := hi.ticket q l t msg' hq
    have hne : t ≠ s.received.length := by
      rintro rfl
      exact hno ⟨q, l, msg', hq⟩
    refine ⟨h1, by omega, ?_⟩
    by_cases hl : l = .spin
    · rw [hl]
      trivial
    · rw [hring (hi.owns_of_entered hq hl) hne]
      exact h3
  · intro t ht t' hlt heq
    have := hi.turn t (howns.1 ht).1 t' hlt heq
    omega
  · intro t msg' hmsg' hle hno'
    have hown' := owns_of_not_held (s := s) hmsg' (by omega) hno'
    rw [hring hown' (by omega)]
    exact hi.ready t msg' hmsg' (by omega) hno'
  · intro i hfree
    by_cases hidx : i = s.ringIdx s.received.length
    · subst hidx
      show (update s.ring _ ShmipcMsg.zero _).status = .empty
      rw [update_self]
      rfl
    · show (update s.ring _ ShmipcMsg.zero i).status = .empty
      rw [update_of_ne hidx]
      refine hi.free i fun t ht heq => ?_
      by_cases hne : t = s.received.length
      · subst hne
        exact hidx heq.symm
      · exact hfree t (howns.2 ⟨ht, hne⟩) heq
  · exact .inl ⟨rfl, hnext.trans hr.symm⟩

theorem inv_stepConsumer (hi : Inv s) : Inv s.stepConsumer := by
  have hframe : ∀ {c n}, Reads { s with consumer := c, consumerNext := n } →
    Inv { s with consumer := c, consumerNext := n } := fun h =>
    ⟨hi.next, hi.order, hi.ticket, hi.distinct, hi.turn, hi.ready, hi.free, h⟩
  unfold stepConsumer
  rcases hi.reads with ⟨hidle, hnext⟩ | ⟨hnext, hno, msg, hmsg, hread⟩
  · simp only [hidle, hnext]
    split
    · rename_i hready
      obtain ⟨msg, hmsg, hno⟩ := hi.next_of_ready hready
      exact hframe (.inr ⟨rfl, hno, msg, hmsg, .inl rfl⟩)
    · exact hi
  · have hslot := hi.ready _ msg hmsg (Nat.le_refl _) hno
    rcases hread with hc | hc | hc
    · simp only [hc, hslot]
      exact hframe (.inr ⟨hnext, hno, msg, hmsg, .inr (.inl rfl)⟩)
    · simp only [hc, hslot]
      exact hframe (.inr ⟨hnext, hno, msg, hmsg, .inr (.inr rfl)⟩)
    · simp only [hc]
      exact inv_clear hi hno hmsg hnext

end Consumer

/-! ## Whole runs -/

theorem inv_start (capacity : ℕ) : Inv (start capacity : FsProcMsgRing ι) where
  next := rfl
  order := nil_prefix
  ticket := nofun
  distinct := fun p q loc loc' t msg msg' hp => by cases hp
  turn := fun t ht => absurd ht.2.1 (Nat.not_lt_zero t)
  ready := nofun
  free := fun i _ => rfl
  reads := .inl ⟨rfl, rfl⟩

theorem inv_step [DecidableEq ι] {l : Label ι} {s s' : FsProcMsgRing ι} (hi : Inv s) (hturn : InTurn l s)
    (h : step l s = some s') : Inv s' := by
  cases l with
  | putMessage p msg =>
    simp only [step] at h
    split at h
    · cases h
      exact inv_drawn hi ‹_›
    · cases h
  | producer p =>
    simp only [step] at h
    split at h
    · cases h
    · cases h
      exact inv_stepProducer hi ‹_› hturn
  | consumer =>
    cases h
    exact inv_stepConsumer hi

theorem Inv.toDelivers {s : FsProcMsgRing ι} (hi : Inv s) : Delivers s where
  order := hi.order
  kept := by
    intro t msg hmsg hnext hno
    have hr : s.received.length ≤ t := by
      rcases hi.reads with ⟨-, h⟩ | ⟨h, -⟩ <;> omega
    exact hi.ready t msg hmsg hr fun ⟨p, loc, msg', hp⟩ => hno p loc msg' hp
  live := by
    intro msg hmsg
    have hr : s.received.length ≤ s.consumerNext := by
      rcases hi.reads with ⟨-, h⟩ | ⟨h, -⟩ <;> omega
    by_cases hh : Held s s.consumerNext
    · obtain ⟨p, loc, msg', hp⟩ := hh
      have hsame := (hi.ticket p loc _ msg' hp).1
      rw [hmsg] at hsame
      cases hsame
      refine .inr ⟨p, loc, hp, fun hidle hloc => ?_⟩
      rcases hi.reads with ⟨-, h⟩ | ⟨-, -, _, -, hread⟩
      · rw [h] at hp ⊢
        exact hi.empty_of_spins ⟨p, msg, hloc ▸ hp⟩
      · rw [hidle] at hread
        rcases hread with hc | hc | hc <;> cases hc
    · exact .inl (hi.ready _ msg hmsg hr hh)

/-- For any capacity and any number of producers: in every state of a run whose producers leave the loop in
turn, the messages are delivered. -/
theorem delivers [DecidableEq ι] {capacity : ℕ} {ls : List (Label ι)} {s : FsProcMsgRing ι}
    (hrun : run step ls (start capacity) = some s) (hturn : Along step InTurn ls (start capacity)) : Delivers s :=
  (run_inv (fun _ _ _ => inv_step) hrun hturn (inv_start capacity)).toDelivers

/-- All of a `put_message` by `p`, which finds its slot empty. -/
def put (p : ι) (msg : FsProcMsg) : List (Label ι) := .putMessage p msg :: List.replicate 4 (.producer p)

/-- One call of `get_message` that finds its message. -/
def get : List (Label ι) := List.replicate 4 .consumer

/-- A message with the number `n`. -/
def message (n : ℕ) : FsProcMsg := ⟨UInt8.ofNat n, UInt64.ofNat n⟩

/-- The ring is full and a producer waits for a slot that is in use. Its message comes after the first. -/
def fullRing (p q : ι) : List (Label ι) :=
  (List.range 8).flatMap (fun n => put p (message n)) ++ [.putMessage q (message 8), .producer q] ++ get ++
    List.replicate 4 (.producer q) ++ get

theorem delivers_full : ∃ s : FsProcMsgRing (Fin 2), run step (fullRing 0 1) (start 8) = some s ∧
    s.received = [message 0, message 1] ∧ Delivers s := by
  have hrun : (run step (fullRing (0 : Fin 2) 1) (start 8)).map (·.received) = some [message 0, message 1] := by
    decide +kernel
  obtain ⟨s, hs, hreceived⟩ := Option.map_eq_some_iff.mp hrun
  exact ⟨s, hs, hreceived, delivers hs (by decide +kernel)⟩

/-- A producer draws ticket 0 and is delayed; another puts eight messages, of which the last has ticket 8
and so the same slot. It is returned first. -/
theorem overtaken : ∃ s : FsProcMsgRing (Fin 2),
    run step (.putMessage 0 (message 0) :: (List.range 8).flatMap (fun n => put 1 (message (n + 1))) ++ get)
      (start 8) = some s ∧
    s.sent[0]? = some (message 0) ∧ s.received = [message 8] ∧ ¬ Delivers s := by
  have hrun : (run step (.putMessage (0 : Fin 2) (message 0) ::
      (List.range 8).flatMap (fun n => put 1 (message (n + 1))) ++ get) (start 8)).map
        (fun s => (s.sent[0]?, s.received)) = some (some (message 0), [message 8]) := by
    decide +kernel
  obtain ⟨s, hs, hlogs⟩ := Option.map_eq_some_iff.mp hrun
  obtain ⟨hsent, hreceived⟩ := Prod.mk.inj hlogs
  refine ⟨s, hs, hsent, hreceived, fun h => ?_⟩
  obtain ⟨rest, hrest⟩ := h.order
  rw [← hrest, hreceived] at hsent
  exact absurd (Option.some.inj hsent) (by decide)

end Ufs.Proof.Messenger
