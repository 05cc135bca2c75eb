import Ufs.Framework.Pool
import Ufs.Framework.Run
import Ufs.Impl.JournalManager

/-!
# What a journal manager is for

A `Pipeline` is a journal manager without its control: the entries with their states and buffers,
which of them are queued, being processed or on the device, and the trace. `Proper` is what a trace
must be like: callbacks are called once, and with success only after the entry's writes completed in
their order; a commit is submitted after its body completed; and slots are acquired in the order of
submission. `move_inv`: every `Move` keeps the invariant, of which this is a part, along with the
account of the buffers.
-/

namespace Ufs.Proof.Manager

open Impl
open Option (toList_none toList_some)
open List

variable {flush : Bool} {v v' : Pipeline} {i : ℕ} {st' : JournalEntryState}

/-- The entries are known by their place in `states`. `active` is the one that is being
processed, and `slotted` the front of the queue when it has its slot. -/
@[ext] structure Pipeline where
  states : List JournalEntryState
  pins : List (Option ℕ)
  queue : List ℕ
  free : List ℕ
  inFlight : List ℕ
  active : Option ℕ
  slotted : Option ℕ
  trace : List JournalEvent

namespace Pipeline

/-- The buffer of entry `je` goes back to the queue. -/
def release (v : Pipeline) (je : ℕ) : Pipeline :=
  match v.pins[je]? with
  | some (some b) => { v with pins := v.pins.set je none, free := v.free ++ [b] }
  | _ => v

/-- The entries that were submitted and whose callback has not been called. -/
def live (v : Pipeline) : List ℕ := v.queue ++ v.active.toList ++ v.inFlight

/-- The entries of the queue that have no slot yet. -/
def unslotted (v : Pipeline) : List ℕ := if v.slotted.isSome then v.queue.tail else v.queue

variable (v : Pipeline) (je : ℕ)

@[simp] theorem release_states : (v.release je).states = v.states := by unfold release; split <;> rfl
@[simp] theorem release_queue : (v.release je).queue = v.queue := by unfold release; split <;> rfl
@[simp] theorem release_inFlight : (v.release je).inFlight = v.inFlight := by unfold release; split <;> rfl
@[simp] theorem release_slotted : (v.release je).slotted = v.slotted := by unfold release; split <;> rfl
@[simp] theorem length_release_pins : (v.release je).pins.length = v.pins.length := by
  unfold release; split <;> simp

end Pipeline

/-- What follows when the operation of an entry completes, and the event it is. -/
def next (je : ℕ) : JournalEntryState → Option (JournalEntryState × JournalEvent)
  | .writeBody => some (.flush, .bodyDone je)
  | .flush => some (.writeCommit, .flushDone je)
  | .writeCommit => some (.success, .commitDone je)
  | _ => none

/-- The write or flush that is submitted for an entry in a state, and the state it is then in: without
a flush to wait for, the entry goes on to its commit. -/
inductive Issues (flush : Bool) (je : ℕ) : JournalEntryState → JournalEntryState → JournalEvent → Prop
  | body (b n : ℕ) : Issues flush je .writeBody .writeBody (.bodySubmitted je b n)
  | flush (hf : flush = true) : Issues flush je .flush .flush (.flushSubmitted je)
  | commit (b : ℕ) : Issues flush je .writeCommit .writeCommit (.commitSubmitted je b)
  | fallThrough (b : ℕ) (hf : flush = false) : Issues flush je .flush .writeCommit (.commitSubmitted je b)

/-- What the manager can do to its entries, buffers and trace. -/
inductive Move (flush : Bool) (v : Pipeline) : Pipeline → Prop
  | submit (hs : v.slotted = none) :
    Move flush v { v with
      states := v.states ++ [.prepare]
      pins := v.pins ++ [none]
      queue := v.queue ++ [v.states.length]
      trace := v.trace ++ [.submitted v.states.length] }
  | fail {je : ℕ} {q : List ℕ} (hq : v.queue = je :: q) (hs : v.slotted = none) (ha : v.active = none) :
    Move flush v { v with states := v.states.set je .failure, queue := q, active := some je }
  | acquire {je : ℕ} {q : List ℕ} (hq : v.queue = je :: q) (hf : v.free ≠ []) (hs : v.slotted = none)
      (ha : v.active = none) :
    Move flush v { v with slotted := some je, trace := v.trace ++ [.acquired je] }
  | start {je b : ℕ} {q fr : List ℕ} (hs : v.slotted = some je) (hq : v.queue = je :: q)
      (hf : v.free = b :: fr) (ha : v.active = none) :
    Move flush v { v with
      states := v.states.set je .writeBody
      pins := v.pins.set je (some b)
      queue := q
      free := fr
      slotted := none
      active := some je }
  | issue {je : ℕ} {st st' : JournalEntryState} {e : JournalEvent} (ha : v.active = some je)
      (hs : v.slotted = none) (hst : v.states[je]? = some st) (he : Issues flush je st st' e) :
    Move flush v { v with
      states := v.states.set je st'
      inFlight := v.inFlight ++ [je]
      active := none
      trace := v.trace ++ [e] }
  | finish {je : ℕ} {ok : Bool} (cb : Bool) (ha : v.active = some je) (hs : v.slotted = none)
      (hst : v.states[je]? = some (if ok then .success else .failure)) :
    Move flush v { v.release je with
      active := none
      trace := if cb then v.trace ++ [.called je ok] else v.trace }
  | complete {je : ℕ} {st st' : JournalEntryState} {e : JournalEvent} (hm : je ∈ v.inFlight)
      (ha : v.active = none) (hs : v.slotted = none) (hst : v.states[je]? = some st)
      (he : next je st = some (st', e)) :
    Move flush v { v with
      states := v.states.set je st'
      inFlight := v.inFlight.erase je
      active := some je
      trace := v.trace ++ [e] }
  | error {je : ℕ} (hm : je ∈ v.inFlight) (ha : v.active = none) (hs : v.slotted = none) :
    Move flush v { v with
      states := v.states.set je .failure
      inFlight := v.inFlight.erase je
      active := some je
      trace := v.trace ++ [.failed je] }

/-! ## Where the entries are -/

/-- Each live entry is in one place, and the queue is in the order of submission. -/
structure Ids (v : Pipeline) : Prop where
  len : v.pins.length = v.states.length
  sorted : v.queue.Pairwise (· < ·)
  nodup : v.live.Nodup
  lt : ∀ i ∈ v.live, i < v.states.length
  slot : ∀ je, v.slotted = some je → v.queue.head? = some je ∧ v.free ≠ [] ∧ v.active = none

theorem live_submit (v : Pipeline) : ({ v with
      states := v.states ++ [.prepare]
      pins := v.pins ++ [none]
      queue := v.queue ++ [v.states.length]
      trace := v.trace ++ [.submitted v.states.length] } : Pipeline).live.Perm (v.states.length :: v.live) := by
  simp only [Pipeline.live, append_assoc]
  exact perm_middle

theorem live_finish {je : ℕ} (ha : v.active = some je) (tr : List JournalEvent) :
    v.live.Perm (je :: ({ v.release je with active := none, trace := tr } : Pipeline).live) := by
  simp only [Pipeline.live, ha, Pipeline.release_queue, Pipeline.release_inFlight, toList_some, toList_none,
    append_nil, append_assoc]
  exact perm_middle

theorem Move.live (h : Move flush v v') : (v'.live.Perm v.live ∧ v'.states.length = v.states.length) ∨
    (v'.live.Perm (v.states.length :: v.live) ∧ v'.states.length = v.states.length + 1) ∨
    ∃ je, v.live.Perm (je :: v'.live) ∧ v'.states.length = v.states.length := by
  cases h with
  | submit hs => exact .inr (.inl ⟨live_submit v, by simp⟩)
  | fail hq hs ha =>
    refine .inl ⟨?_, by simp⟩
    simp only [Pipeline.live, hq, ha, toList_some, toList_none, append_nil, append_assoc]
    exact perm_middle
  | acquire => exact .inl ⟨List.Perm.refl _, rfl⟩
  | start hs hq hf ha =>
    refine .inl ⟨?_, by simp⟩
    simp only [Pipeline.live, hq, ha, toList_some, toList_none, append_nil, append_assoc]
    exact perm_middle
  | issue ha =>
    refine .inl ⟨?_, by simp⟩
    simp only [Pipeline.live, ha, toList_some, toList_none, append_nil, append_assoc]
    exact perm_append_comm.append_left _
  | finish cb ha => exact .inr (.inr ⟨_, live_finish ha _, by simp⟩)
  | complete hm ha =>
    refine .inl ⟨?_, by simp⟩
    simp only [Pipeline.live, ha, toList_some, toList_none, append_nil, append_assoc]
    exact (perm_cons_erase hm).symm.append_left _
  | error hm ha =>
    refine .inl ⟨?_, by simp⟩
    simp only [Pipeline.live, ha, toList_some, toList_none, append_nil, append_assoc]
    exact (perm_cons_erase hm).symm.append_left _

theorem Ids.queue_lt (h : Ids v) (hi : i ∈ v.queue) : i < v.states.length :=
  h.lt i (by simp [Pipeline.live, hi])

theorem Ids.move (h : Ids v) (hm : Move flush v v') : Ids v' := by
  obtain ⟨hnd, hlt⟩ : v'.live.Nodup ∧ ∀ i ∈ v'.live, i < v'.states.length := by
    rcases hm.live with ⟨hp, hl⟩ | ⟨hp, hl⟩ | ⟨je, hp, hl⟩
    · exact ⟨hp.nodup_iff.2 h.nodup, fun i hi => hl ▸ h.lt i (hp.mem_iff.1 hi)⟩
    · refine ⟨hp.nodup_iff.2 (nodup_cons.2 ⟨fun hi => ?_, h.nodup⟩), fun i hi => ?_⟩
      · exact Nat.lt_irrefl _ (h.lt _ hi)
      · rcases mem_cons.1 (hp.mem_iff.1 hi) with rfl | hi
        · omega
        · have := h.lt i hi
          omega
    · refine ⟨(nodup_cons.1 (hp.nodup_iff.1 h.nodup)).2, fun i hi => ?_⟩
      exact hl ▸ h.lt i (hp.mem_iff.2 (mem_cons_of_mem _ hi))
  have hsorted := h.sorted
  have hlen := h.len
  cases hm with
  | submit hs =>
    refine ⟨by simp [hlen], ?_, hnd, hlt, by simp [hs]⟩
    refine pairwise_append.2 ⟨hsorted, pairwise_singleton _ _, fun i hi j hj => ?_⟩
    obtain rfl := mem_singleton.1 hj
    exact h.queue_lt hi
  | fail hq hs ha =>
    rw [hq] at hsorted
    exact ⟨by simpa using hlen, hsorted.of_cons, hnd, hlt, by simp [hs]⟩
  | acquire hq hf hs ha =>
    refine ⟨hlen, hsorted, hnd, hlt, fun je hje => ?_⟩
    obtain rfl := Option.some.inj hje
    exact ⟨by simp [hq], hf, ha⟩
  | start hs hq hf ha =>
    rw [hq] at hsorted
    exact ⟨by simpa using hlen, hsorted.of_cons, hnd, hlt, by simp⟩
  | issue ha hs => exact ⟨by simpa using hlen, hsorted, hnd, hlt, by simp [hs]⟩
  | finish cb ha hs => exact ⟨by simpa using hlen, by simpa using hsorted, hnd, hlt, by simp [hs]⟩
  | complete hm ha hs => exact ⟨by simpa using hlen, hsorted, hnd, hlt, by simp [hs]⟩
  | error hm ha hs => exact ⟨by simpa using hlen, hsorted, hnd, hlt, by simp [hs]⟩

/-! ## The buffers -/

/-- An entry in the queue has no buffer, and each buffer is free or with one entry. -/
structure Buffers (v : Pipeline) : Prop where
  unpinned : ∀ i ∈ v.queue, v.pins[i]? = some none
  balanced : Pool.Balanced (List.range kMaxInFlight) v.free v.pins

theorem Ids.ne_of_queue (h : Ids v) {je : ℕ} (hi : i ∈ v.queue) (hje : v.active = some je ∨ je ∈ v.inFlight) :
    i ≠ je := by
  intro heq
  subst heq
  have hnd := h.nodup
  rw [Pipeline.live, append_assoc] at hnd
  refine (nodup_append.1 hnd).2.2 i hi i ?_ rfl
  rcases hje with hje | hje
  · simp [hje]
  · simp [hje]

theorem Buffers.release (h : Buffers v) {je : ℕ} (hne : ∀ i ∈ v.queue, i ≠ je) : Buffers (v.release je) := by
  unfold Pipeline.release
  split
  · rename_i b hb
    refine ⟨fun i hi => ?_, h.balanced.give hb⟩
    rw [List.getElem?_set_ne (Ne.symm (hne i hi))]
    exact h.unpinned i hi
  · exact h

theorem Buffers.move (h : Buffers v) (hi : Ids v) (hm : Move flush v v') : Buffers v' := by
  cases hm with
  | submit hs =>
    refine ⟨fun i hm => ?_, h.balanced.newHolder⟩
    rcases mem_append.1 hm with hq | hnew
    · rw [List.getElem?_append_left (hi.len ▸ hi.queue_lt hq)]
      exact h.unpinned i hq
    · obtain rfl := mem_singleton.1 hnew
      simp [← hi.len]
  | fail hq hs ha => exact ⟨fun i hm => h.unpinned i (hq ▸ mem_cons_of_mem _ hm), h.balanced⟩
  | acquire => exact ⟨h.unpinned, h.balanced⟩
  | @start je b q fr hs hq hf ha =>
    have hsorted := hi.sorted
    rw [hq] at hsorted
    refine ⟨fun i hm => ?_, Pool.Balanced.take (hf ▸ h.balanced) (h.unpinned je (by simp [hq]))⟩
    have hlt : je < i := rel_of_pairwise_cons hsorted hm
    rw [List.getElem?_set_ne (by omega)]
    exact h.unpinned i (hq ▸ mem_cons_of_mem _ hm)
  | issue => exact ⟨h.unpinned, h.balanced⟩
  | finish cb ha =>
    have hr := h.release fun i hq => hi.ne_of_queue hq (.inl ha)
    exact ⟨hr.unpinned, hr.balanced⟩
  | complete => exact ⟨h.unpinned, h.balanced⟩
  | error => exact ⟨h.unpinned, h.balanced⟩

/-! ## The trace -/

/-- The operations of an entry in a state that have completed, in their order. -/
def completed (flush : Bool) (je : ℕ) : JournalEntryState → List JournalEvent
  | .flush => [.bodyDone je]
  | .writeCommit => .bodyDone je :: if flush then [.flushDone je] else []
  | .success => (.bodyDone je :: if flush then [.flushDone je] else []) ++ [.commitDone je]
  | _ => []

/-- What must have come before an event. -/
def Proper (flush : Bool) (pre : List JournalEvent) : JournalEvent → Prop
  | .submitted je => ∀ j, .submitted j ∈ pre → j < je
  | .acquired je => .submitted je ∈ pre ∧ ∀ j, .acquired j ∈ pre → j < je
  | .commitSubmitted je _ => .bodyDone je ∈ pre
  | .called je success =>
    (∀ b, .called je b ∉ pre) ∧ (success = true → (completed flush je .success).Sublist pre)
  | _ => True

/-- The trace agrees with the places of the entries. -/
structure Order (v : Pipeline) : Prop where
  submitted : ∀ i, .submitted i ∈ v.trace ↔ i < v.states.length
  called_lt : ∀ i b, .called i b ∈ v.trace → i < v.states.length
  uncalled : ∀ i ∈ v.live, ∀ b, .called i b ∉ v.trace
  acquired_lt : ∀ j, .acquired j ∈ v.trace → j < v.states.length
  ahead : ∀ j, .acquired j ∈ v.trace → ∀ i ∈ v.unslotted, j < i

/-- The events of an entry are those of its state, and an entry in flight has a write outstanding.
-/
structure Progress (flush : Bool) (v : Pipeline) : Prop where
  done : ∀ i st, v.states[i]? = some st → (completed flush i st).Sublist v.trace
  flying : ∀ i ∈ v.inFlight, ∀ st, v.states[i]? = some st → (next i st).isSome ∧ (st = .flush → flush = true)
  working : ∀ i, v.active = some i → ∀ st, v.states[i]? = some st →
    (next i st).isSome ∨ st = .success ∨ st = .failure

theorem completed_next {je : ℕ} {st : JournalEntryState} {e : JournalEvent} (he : next je st = some (st', e))
    (hf : st = .flush → flush = true) :
    completed flush je st' = completed flush je st ++ [e] := by
  cases st <;> simp only [next, reduceCtorEq, Option.some.injEq, Prod.mk.injEq] at he
  all_goals obtain ⟨rfl, rfl⟩ := he
  · rfl
  · simp [completed, hf rfl]
  · rfl

theorem Order.silent (h : Order v) (hm : Move flush v v')
    {es : List JournalEvent} (htr : v'.trace = v.trace ++ es) (hlen : v'.states.length = v.states.length)
    (hun : ∀ i ∈ v'.unslotted, i ∈ v.unslotted) (hes : ∀ e ∈ es, ∀ i b, e ≠ .submitted i ∧ e ≠ .called i b ∧
      e ≠ .acquired i) : Order v' := by
  have hs : ∀ i, .submitted i ∉ es := fun i hi => (hes _ hi i true).1 rfl
  have hc : ∀ i b, .called i b ∉ es := fun i b hi => (hes _ hi i b).2.1 rfl
  have ha : ∀ i, .acquired i ∉ es := fun i hi => (hes _ hi i true).2.2 rfl
  have hlive : ∀ i ∈ v'.live, i ∈ v.live := by
    intro i hi
    rcases hm.live with ⟨hp, -⟩ | ⟨-, hl⟩ | ⟨je, hp, -⟩
    · exact hp.mem_iff.1 hi
    · omega
    · exact hp.mem_iff.2 (mem_cons_of_mem _ hi)
  constructor <;> simp only [htr, hlen, mem_append, hs, hc, ha, or_false]
  · exact h.submitted
  · exact h.called_lt
  · exact fun i hi => h.uncalled i (hlive i hi)
  · exact h.acquired_lt
  · exact fun j hj i hi => h.ahead j hj i (hun i hi)

theorem Order.submit (h : Order v) (hlive : v'.live.Perm (v.states.length :: v.live))
    (hst : v'.states.length = v.states.length + 1)
    (hun : v'.unslotted = v.unslotted ++ [v.states.length]) (htr :
      v'.trace = v.trace ++ [.submitted v.states.length]) : Order v' := by
  have hc : ∀ i b, .called i b ∈ v'.trace → .called i b ∈ v.trace := by simp [htr]
  have ha : ∀ j, .acquired j ∈ v'.trace → .acquired j ∈ v.trace := by simp [htr]
  constructor
  · intro i
    simp only [htr, hst, mem_append, h.submitted, mem_singleton, JournalEvent.submitted.injEq]
    omega
  · intro i b hi
    have := h.called_lt i b (hc i b hi)
    omega
  · intro i hl b hi
    rcases mem_cons.1 (hlive.mem_iff.1 hl) with rfl | hl
    · exact Nat.lt_irrefl _ (h.called_lt _ b (hc _ b hi))
    · exact h.uncalled i hl b (hc i b hi)
  · intro j hj
    have := h.acquired_lt j (ha j hj)
    omega
  · intro j hj i hi
    rw [hun] at hi
    rcases mem_append.1 hi with hi | hi
    · exact h.ahead j (ha j hj) i hi
    · rw [mem_singleton.1 hi]
      exact h.acquired_lt j (ha j hj)

theorem Order.acquire (h : Order v) (hi : Ids v) {je : ℕ} {q : List ℕ} (hq : v.queue = je :: q)
    (hs : v.slotted = none) : Order { v with slotted := some je, trace := v.trace ++ [.acquired je] } := by
  have hun : v.unslotted = je :: q := by simp [Pipeline.unslotted, hs, hq]
  have hsorted := hi.sorted
  rw [hq] at hsorted
  have hlt : je < v.states.length := hi.queue_lt (by simp [hq])
  have hmem : ∀ j, .acquired j ∈ v.trace ++ [JournalEvent.acquired je] → .acquired j ∈ v.trace ∨ j = je := by
    simp
  constructor
  · simpa using h.submitted
  · simpa using h.called_lt
  · intro i hl b hc
    exact h.uncalled i hl b (by simpa using hc)
  · intro j hj
    rcases hmem j hj with hj | rfl
    · exact h.acquired_lt j hj
    · exact hlt
  · intro j hj i hiq
    have hq' : i ∈ q := by simpa [Pipeline.unslotted, hq] using hiq
    rcases hmem j hj with hj | rfl
    · exact h.ahead j hj i (hun ▸ mem_cons_of_mem _ hq')
    · exact rel_of_pairwise_cons hsorted hq'

theorem Order.call (h : Order v) (hi : Ids v) {je : ℕ} {ok : Bool}
    (hlive : v.live.Perm (je :: v'.live)) (hst : v'.states = v.states) (hun : v'.unslotted = v.unslotted)
    (htr : v'.trace = v.trace ++ [.called je ok]) : Order v' := by
  have hnd := hlive.nodup_iff.1 hi.nodup
  have hlt : je < v.states.length := hi.lt je (hlive.mem_iff.2 mem_cons_self)
  have hmem : ∀ i b, .called i b ∈ v.trace ++ [JournalEvent.called je ok] → .called i b ∈ v.trace ∨ i = je := by
    intro i b hc
    rcases mem_append.1 hc with hc | hc
    · exact .inl hc
    · exact .inr (JournalEvent.called.inj (mem_singleton.1 hc)).1
  constructor <;> simp only [htr, hst, hun]
  · simpa using h.submitted
  · intro i b hc
    rcases hmem i b hc with hc | rfl
    · exact h.called_lt i b hc
    · exact hlt
  · intro i hl b hc
    rcases hmem i b hc with hc | rfl
    · exact h.uncalled i (hlive.mem_iff.2 (mem_cons_of_mem _ hl)) b hc
    · exact (nodup_cons.1 hnd).1 hl
  · simpa using h.acquired_lt
  · simpa using h.ahead

section

variable {je : ℕ} {st : JournalEntryState} {e : JournalEvent}

/-- An entry whose operation is submitted has the same history as before, and goes on when the
operation completes. -/
theorem Issues.same (h : Issues flush je st st' e) : completed flush je st' = completed flush je st ∧
    (next je st').isSome ∧ (st' = .flush → flush = true) := by
  cases h with
  | body => exact ⟨rfl, rfl, nofun⟩
  | flush hf => exact ⟨rfl, rfl, fun _ => hf⟩
  | commit => exact ⟨rfl, rfl, nofun⟩
  | fallThrough b hf =>
    subst hf
    exact ⟨rfl, rfl, nofun⟩

theorem next_eq_some (he : next je st = some (st', e)) : e = .bodyDone je ∨ e = .flushDone je ∨ e = .commitDone je := by
  cases st <;> simp only [next, reduceCtorEq, Option.some.injEq, Prod.mk.injEq] at he
  all_goals simp [← he.2]

end

theorem Order.move (h : Order v) (hi : Ids v) (hm : Move flush v v') : Order v' := by
  have hm' := hm
  cases hm with
  | submit hs => exact h.submit (live_submit v) (by simp) (by simp [Pipeline.unslotted, hs]) rfl
  | fail hq hs ha =>
    refine h.silent hm' (append_nil _).symm (by simp) ?_ (by simp)
    simp only [Pipeline.unslotted, hs, hq, Option.isSome_none, Bool.false_eq_true, if_false]
    exact fun i hl => mem_cons_of_mem _ hl
  | acquire hq hf hs ha => exact h.acquire hi hq hs
  | start hs hq hf ha =>
    refine h.silent hm' (append_nil _).symm (by simp) ?_ (by simp)
    simp [Pipeline.unslotted, hs, hq]
  | issue ha hs hst he =>
    refine h.silent hm' rfl (by simp) (fun i hl => hl) ?_
    cases he <;> simp
  | @finish je ok cb ha hs hst =>
    cases cb with
    | false =>
      refine h.silent hm' (append_nil _).symm (by simp) ?_ (by simp)
      simp [Pipeline.unslotted]
    | true => exact h.call hi (live_finish ha _) (by simp) (by simp [Pipeline.unslotted]) rfl
  | complete hm ha hs hst he =>
    refine h.silent hm' rfl (by simp) (fun i hl => hl) ?_
    rcases next_eq_some he with rfl | rfl | rfl <;> simp
  | error hm ha hs =>
    exact h.silent hm' rfl (by simp) (fun i hl => hl) (by simp)

theorem Ids.ne_of_inFlight (h : Ids v) {je : ℕ} (hi : i ∈ v.inFlight) (hje : je ∈ v.queue ∨ v.active = some je) :
    i ≠ je := by
  intro heq
  subst heq
  have hnd := h.nodup
  rw [Pipeline.live] at hnd
  refine (nodup_append.1 hnd).2.2 i ?_ i hi rfl
  rcases hje with hje | hje
  · simp [hje]
  · simp [hje]

theorem Ids.mem_erase (h : Ids v) {je : ℕ} (hi : i ∈ v.inFlight.erase je) : i ∈ v.inFlight ∧ i ≠ je := by
  have hnd : v.inFlight.Nodup := (nodup_append.1 h.nodup).2.1
  have := hnd.mem_erase_iff.1 hi
  exact ⟨this.2, this.1⟩

theorem Progress.set (h : Progress flush v) {je : ℕ} (hst : v'.states = v.states.set je st')
    (htr : v.trace.Sublist v'.trace)
    (hc : (completed flush je st').Sublist v'.trace)
    (hfl : ∀ i ∈ v'.inFlight, (i ∈ v.inFlight ∧ i ≠ je) ∨ i = je ∧ (next je st').isSome ∧ (st' = .flush → flush = true))
    (hw : ∀ i, v'.active = some i → i = je ∧ ((next je st').isSome ∨ st' = .success ∨ st' = .failure)) :
      Progress flush v' := by
  have hself : ∀ st, v'.states[je]? = some st → st = st' := by
    intro st h'
    rw [hst] at h'
    obtain ⟨hlt, heq⟩ := List.getElem?_eq_some_iff.1 h'
    rw [getElem_set_self] at heq
    exact heq.symm
  have hother : ∀ i, i ≠ je → v'.states[i]? = v.states[i]? := by
    intro i hne
    rw [hst, List.getElem?_set_ne (Ne.symm hne)]
  refine ⟨fun i st hi => ?_, fun i hf st hi => ?_, fun i ha st hi => ?_⟩
  · by_cases hne : i = je
    · subst hne
      exact hself st hi ▸ hc
    · exact (h.done i st (hother i hne ▸ hi)).trans htr
  · rcases hfl i hf with ⟨hf, hne⟩ | ⟨rfl, hn⟩
    · exact h.flying i hf st (hother i hne ▸ hi)
    · exact hself st hi ▸ hn
  · obtain ⟨rfl, hn⟩ := hw i ha
    exact hself st hi ▸ hn

theorem Progress.submit (h : Progress flush v) (hi : Ids v) (hst : v'.states = v.states ++ [.prepare])
    (htr : v.trace.Sublist v'.trace)
    (hfl : v'.inFlight = v.inFlight) (ha : v'.active = v.active) : Progress flush v' := by
  have hold : ∀ i ∈ v.live, v'.states[i]? = v.states[i]? := by
    intro i hl
    rw [hst, List.getElem?_append_left (hi.lt i hl)]
  refine ⟨fun i st hs => ?_, fun i hf st hs => ?_, fun i hac st hs => ?_⟩
  · by_cases hlt : i < v.states.length
    · rw [hst, List.getElem?_append_left hlt] at hs
      exact (h.done i st hs).trans htr
    · rw [hst, List.getElem?_append_right (Nat.le_of_not_lt hlt)] at hs
      obtain rfl : JournalEntryState.prepare = st := mem_singleton.1 (mem_of_getElem? hs) ▸ rfl
      exact nil_sublist _
  · rw [hfl] at hf
    exact h.flying i hf st (hold i (by simp [Pipeline.live, hf]) ▸ hs)
  · rw [ha] at hac
    exact h.working i hac st (hold i (by simp [Pipeline.live, hac]) ▸ hs)

theorem Progress.move (h : Progress flush v) (hi : Ids v) (hm : Move flush v v') : Progress flush v' := by
  have hgrow : ∀ es, v.trace.Sublist (v.trace ++ es) := sublist_append_left _
  cases hm with
  | submit hs => exact h.submit hi rfl (hgrow _) rfl rfl
  | @fail je q hq hs ha =>
    have hne : ∀ i ∈ v.inFlight, i ≠ je := fun i hf => hi.ne_of_inFlight hf (.inl (by simp [hq]))
    exact h.set rfl (List.Sublist.refl _) (nil_sublist _) (fun i hf => .inl ⟨hf, hne i hf⟩)
      fun i ha => ⟨(Option.some.inj ha).symm, .inr (.inr rfl)⟩
  | acquire => exact ⟨fun i st hst => (h.done i st hst).trans (hgrow _), h.flying, h.working⟩
  | @start je b q fr hs hq hf ha =>
    have hne : ∀ i ∈ v.inFlight, i ≠ je := fun i hf => hi.ne_of_inFlight hf (.inl (by simp [hq]))
    exact h.set rfl (List.Sublist.refl _) (nil_sublist _) (fun i hf => .inl ⟨hf, hne i hf⟩) fun i ha =>
      ⟨(Option.some.inj ha).symm, .inl rfl⟩
  | @issue je st st' e ha hs hst he =>
    obtain ⟨hc, hn⟩ := he.same
    refine h.set rfl (hgrow _) (hc ▸ (h.done je st hst).trans (hgrow _)) (fun i hf => ?_) nofun
    rcases mem_append.1 hf with hf | hf
    · exact .inl ⟨hf, hi.ne_of_inFlight hf (.inr ha)⟩
    · exact .inr ⟨mem_singleton.1 hf, hn⟩
  | finish cb ha hs hst =>
    refine ⟨fun i st hst => ?_, by simpa using h.flying, nofun⟩
    refine (h.done i st (by simpa using hst)).trans ?_
    cases cb
    · exact List.Sublist.refl _
    · exact hgrow _
  | @complete je st st' e hm ha hs hst he =>
    have hc : (completed flush je st').Sublist (v.trace ++ [e]) := by
      rw [completed_next he (h.flying je hm st hst).2]
      exact (h.done je st hst).append (List.Sublist.refl _)
    have hn : (next je st').isSome ∨ st' = .success ∨ st' = .failure := by
      cases st <;> simp only [next, reduceCtorEq, Option.some.injEq, Prod.mk.injEq] at he
      all_goals simp [← he.1, next]
    exact h.set rfl (hgrow _) hc (fun i hf => .inl (hi.mem_erase hf)) fun i ha => ⟨(Option.some.inj ha).symm, hn⟩
  | error hm ha hs =>
    exact h.set rfl (hgrow _) (nil_sublist _) (fun i hf => .inl (hi.mem_erase hf)) fun i ha =>
      ⟨(Option.some.inj ha).symm, .inr (.inr rfl)⟩

/-! ## The invariant -/

/-- The invariant of the pipeline. -/
structure Inv (flush : Bool) (v : Pipeline) : Prop where
  ids : Ids v
  buffers : Buffers v
  order : Order v
  progress : Progress flush v
  justified : Justified (Proper flush) v.trace

theorem Move.justified (h : Inv flush v) (hm : Move flush v v') : Justified (Proper flush) v'.trace := by
  have hj := h.justified
  cases hm with
  | submit hs => exact hj.concat fun j hj => (h.order.submitted j).1 hj
  | fail => exact hj
  | @acquire je q hq hf hs ha =>
    refine hj.concat ⟨(h.order.submitted je).2 (h.ids.queue_lt (by simp [hq])), fun j hj => ?_⟩
    exact h.order.ahead j hj je (by simp [Pipeline.unslotted, hs, hq])
  | start => exact hj
  | @issue je st st' e ha hs hst he =>
    have hdone := (h.progress.done je st hst).subset
    cases he with
    | body => exact hj.concat trivial
    | flush => exact hj.concat trivial
    | commit => exact hj.concat (hdone mem_cons_self)
    | fallThrough => exact hj.concat (hdone mem_cons_self)
  | @finish je ok cb ha hs hst =>
    cases cb with
    | false => exact hj
    | true =>
      refine hj.concat ⟨h.order.uncalled je (by simp [Pipeline.live, ha]), fun hok => ?_⟩
      subst hok
      exact h.progress.done je _ hst
  | complete hm ha hs hst he =>
    rcases next_eq_some he with rfl | rfl | rfl <;> exact hj.concat trivial
  | error => exact hj.concat trivial

theorem move_inv (h : Inv flush v) (hm : Move flush v v') : Inv flush v' :=
  ⟨h.ids.move hm, h.buffers.move h.ids hm, h.order.move h.ids hm, h.progress.move h.ids hm, hm.justified h⟩

end Ufs.Proof.Manager
