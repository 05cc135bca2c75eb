import Ufs.Framework.Run
import Ufs.Impl.JournalRuns
import Ufs.Proof.Journal.Spec

/-!
# What runs of a `JSuper` keep

`Inv` holds in every state that a run of `Hist.step` reaches: the ring's indices are the
places of `enq` and `deq`, and the grants cut the stream into consecutive pieces. As long as the
count of unaccounted blocks does not wrap either (`NoWrap`), the blocks enqueued since the durable
snapshot was taken are in it (`Accounted`).
-/

namespace Ufs.Impl

open JSuper (enqueue_nUsed size)

variable {p : Pending}

namespace Hist

/-- The sums of the operation are below `2 ^ 64`. -/
def NoWrap : Op → Hist → Prop
  | .acquire n, h => h.js.djsuper.nUsed + n < 2 ^ 64
  | .release k, h => h.js.nblocksUnaccounted + k < 2 ^ 64
  | .setLastCheckpoint _, h => h.js.nblocksUnaccounted + kSoftMaxUnaccountedBlocks < 2 ^ 64
  | _, _ => True

instance (op : Op) (h : Hist) : Decidable (NoWrap op h) := by
  cases op <;> unfold NoWrap <;> infer_instance

/-- The state after `trySetWriteInProgress` has succeeded. -/
def startWrite (h : Hist) : Hist :=
  { h with js := { h.js with writeInProgress := true }, pending := some ⟨h.snap, h.js.nblocksUnaccounted⟩ }

/-- The state after the completion of write `p` was processed. -/
def endWrite (h : Hist) (p : Pending) : Hist :=
  { h with js := h.js.onWriteComplete p.old, durable := p.snap, pending := none }

theorem step_startWrite {h : Hist} (hw : h.js.writeInProgress = false) :
    step .trySetWriteInProgress h = some h.startWrite := by
  simp only [step, JSuper.trySetWriteInProgress, hw, Bool.false_eq_true, if_false]
  rfl

theorem step_endWrite {h : Hist} (hp : h.pending = some p) : step .onWriteComplete h = some (h.endWrite p) := by
  simp only [step, hp, Option.map_some]
  rfl

theorem step_acquire {h : Hist} {n : ℕ} (hn : h.js.djsuper.nUsed + n < 2 ^ 64) :
    step (.acquire n) h = some (h.acquire n) := if_pos hn

theorem step_of_call {op : Op} {h h' : Hist} (hw : NoWrap op h) (hc : call op h = some h') : step op h = some h' := by
  cases op with
  | acquire n => exact (step_acquire hw).trans hc
  | _ => exact hc

/-- What an operation does: a request, a release of blocks in use, the start of a superblock write
(or nothing, when one is in progress), its end on the device, its completion, a
checkpoint's stamp. -/
theorem step_cases {op : Op} {h h' : Hist} (he : step op h = some h') :
    (∃ n, op = .acquire n ∧ h.js.djsuper.nUsed + n < 2 ^ 64 ∧ h' = h.acquire n) ∨
    (∃ k, op = .release k ∧ k ≤ h.js.size ∧ h' = h.release k) ∨
    (op = .trySetWriteInProgress ∧ (h' = h ∨ h.js.writeInProgress = false ∧ h' = h.startWrite)) ∨
    (∃ p, op = .jsuperDurable ∧ h.pending = some p ∧ h' = { h with durable := p.snap }) ∨
    (∃ p, op = .onWriteComplete ∧ h.pending = some p ∧ h' = h.endWrite p) ∨
    (∃ ts, op = .setLastCheckpoint ts ∧ h' = { h with js := h.js.setLastCheckpoint ts }) := by
  cases op with
  | acquire n =>
    simp only [step] at he
    split at he <;> cases he
    exact .inl ⟨n, rfl, ‹_›, rfl⟩
  | release k =>
    simp only [step] at he
    split at he <;> cases he
    exact .inr (.inl ⟨k, rfl, ‹_›, rfl⟩)
  | trySetWriteInProgress =>
    refine .inr (.inr (.inl ⟨rfl, ?_⟩))
    cases hw : h.js.writeInProgress with
    | true =>
      simp only [step, JSuper.trySetWriteInProgress, hw, if_true, Option.some.injEq] at he
      exact .inl he.symm
    | false =>
      rw [step_startWrite hw] at he
      cases he
      exact .inr ⟨rfl, rfl⟩
  | jsuperDurable =>
    simp only [step, Option.map_eq_some_iff] at he
    obtain ⟨p, hp, rfl⟩ := he
    exact .inr (.inr (.inr (.inl ⟨p, rfl, hp, rfl⟩)))
  | onWriteComplete =>
    simp only [step, Option.map_eq_some_iff] at he
    obtain ⟨p, hp, rfl⟩ := he
    exact .inr (.inr (.inr (.inr (.inl ⟨p, rfl, hp, rfl⟩))))
  | setLastCheckpoint ts => cases he; exact .inr (.inr (.inr (.inr (.inr ⟨ts, rfl, rfl⟩))))

theorem acquire_of_granted {h : Hist} {n : ℕ} (hb : h.js.Bounded n) (hg : (h.js.acquireNextNSlots n).1.Granted) :
    h.acquire n = { h.grant h.js.djsuper.head n (h.js.filler n) with js := h.js.enqueue (n + h.js.filler n) } := by
  obtain ⟨h1, h2⟩ := JSuper.acquire_granted hb hg
  unfold acquire
  simp only [h1, h2]
  have : (h.js.enqueue (n + h.js.filler n)).size - (h.js.size + n) = h.js.filler n := by
    simp only [size, enqueue_nUsed]; omega
  rw [this]

theorem acquire_of_refused {h : Hist} {n : ℕ} (hg : ¬ (h.js.acquireNextNSlots n).1.Granted) : h.acquire n = h := by
  obtain ⟨h1, h2⟩ := JSuper.acquire_refused hg
  unfold acquire
  simp only [h1, h2]

end Hist

/-- A snapshot of the journal `d` whose indices are the places of its stream counts. -/
structure Snap.Inv (d : JSuperOnDisk) (s : Snap) : Prop where
  keeps : d.Keeps s.disk
  head : s.disk.head = s.enq % d.capacity
  tail : s.disk.tail = s.deq % d.capacity
  used : s.enq = s.deq + s.disk.nUsed
  le : s.disk.nUsed ≤ d.capacity

/-- `s` is older than `h`. -/
def Snap.Older (s : Snap) (h : Hist) : Prop := s.enq ≤ h.enq ∧ s.deq ≤ h.deq

end Ufs.Impl

namespace Ufs.Proof.Journal

open Impl Ufs.Ring
open JSuper (addUnaccounted enqueue_nUsed releaseFirstNSlots size unsafeNItemsDequeued)

variable {p : Pending}

/-- An empty journal: `mkfs` and the offline checkpointer leave one behind. -/
structure EmptyJournal (d : JSuperOnDisk) : Prop where
  geom : d.Geom
  used : d.nUsed = 0
  tail : d.tail = d.head
  head_lt : d.head < d.capacity

/-- What holds in every state reached from the empty journal `d`. -/
structure Inv (d : JSuperOnDisk) (h : Hist) : Prop where
  snap : h.snap.Inv d
  tiles : Tiles d.head (h.grants.map Grant.toExtent) h.enq
  base : d.head ≤ h.deq
  idx : ∀ g ∈ h.grants, g.startIdx = g.pos % d.capacity
  durable : h.durable.Inv d ∧ h.durable.Older h
  idle : h.pending = none → h.js.writeInProgress = false
  writing : ∀ p, h.pending = some p → h.js.writeInProgress = true ∧ p.snap.Inv d ∧ p.snap.Older h ∧
    h.durable.enq ≤ p.snap.enq ∧ h.durable.deq ≤ p.snap.deq

/-- The blocks enqueued since the durable snapshot are unaccounted for, and those enqueued since the
one that is being written will be so when its write completes. -/
structure Accounted (h : Hist) : Prop where
  unaccounted : h.enq ≤ h.durable.enq + h.js.nblocksUnaccounted
  writing : ∀ p, h.pending = some p →
    p.old ≤ h.js.nblocksUnaccounted ∧ h.enq ≤ p.snap.enq + (h.js.nblocksUnaccounted - p.old)

theorem inv_start {d : JSuperOnDisk} (hd : EmptyJournal d) : Inv d (Hist.start d) := by
  have hs : (Hist.start d).snap.Inv d := by
    refine ⟨JSuperOnDisk.Keeps.refl d, ?_, ?_, ?_, ?_⟩
    · exact (Nat.mod_eq_of_lt hd.head_lt).symm
    · exact hd.tail.trans (Nat.mod_eq_of_lt hd.head_lt).symm
    · exact (congrArg (d.head + ·) hd.used).symm
    · exact le_of_eq_of_le hd.used (Nat.zero_le _)
  exact ⟨hs, rfl, Nat.le_refl _, by simp [Hist.start], ⟨hs, Nat.le_refl _, Nat.le_refl _⟩,
    fun _ => rfl, by simp [Hist.start]⟩

theorem accounted_start (d : JSuperOnDisk) : Accounted (Hist.start d) :=
  ⟨Nat.le_add_right _ _, by simp [Hist.start]⟩

namespace Inv

variable {d : JSuperOnDisk} {h : Hist}

theorem capacity (hi : Inv d h) : h.js.djsuper.capacity = d.capacity := hi.snap.keeps.capacity

theorem head (hi : Inv d h) : h.js.djsuper.head = h.enq % d.capacity := hi.snap.head

theorem used (hi : Inv d h) : h.enq = h.deq + h.js.djsuper.nUsed := hi.snap.used

theorem le (hi : Inv d h) : h.js.djsuper.nUsed ≤ d.capacity := hi.snap.le

theorem geom (hi : Inv d h) (hd : d.Geom) : h.js.djsuper.Geom := hd.of_keeps hi.snap.keeps

theorem head_lt (hi : Inv d h) (hd : d.Geom) : h.js.djsuper.head < d.capacity := by
  rw [hi.head]
  exact Nat.mod_lt _ hd.pos

theorem bounded (hi : Inv d h) (hd : d.Geom) {n : ℕ} (hn : h.js.djsuper.nUsed + n < 2 ^ 64) : h.js.Bounded n :=
  ⟨hi.capacity ▸ hd.small, (hi.head_lt hd).trans hd.small, hn⟩

/-- A request of a size that `tryNextTransaction` asks for. -/
theorem bounded_of_le (hi : Inv d h) (hd : d.Geom) {n : ℕ} (hn : n ≤ maxBlocks) : h.js.Bounded n := by
  have hle := hi.le
  have hsmall := hd.small
  have hmax : maxBlocks = 32 := rfl
  exact hi.bounded hd (by omega)

theorem acquire (hd : d.Geom) (hi : Inv d h) {n : ℕ} (hn : h.js.djsuper.nUsed + n < 2 ^ 64) : Inv d (h.acquire n) := by
  by_cases hg : (h.js.acquireNextNSlots n).1.Granted
  swap
  · rw [Hist.acquire_of_refused hg]; exact hi
  have hb := hi.bounded hd hn
  have hfit := JSuper.filler_le (hi.geom hd) hb hg
  rw [hi.capacity] at hfit
  rw [Hist.acquire_of_granted hb hg]
  generalize h.js.filler n = f at hfit ⊢
  have hu := hi.used
  refine ⟨⟨hi.snap.keeps.trans (JSuper.enqueue_keeps _ _), ?_, hi.snap.tail, ?_, ?_⟩, ?_, hi.base, ?_, ?_, hi.idle, ?_⟩
  · simp only [Hist.snap, Hist.grant, JSuper.enqueue_head, hi.head, hi.capacity, Nat.mod_add_mod]
    rw [Nat.add_assoc]
  · simp only [Hist.snap, Hist.grant, enqueue_nUsed]; omega
  · simp only [Hist.snap, enqueue_nUsed]; omega
  · exact ⟨rfl, rfl, hi.tiles⟩
  · intro g hm
    rcases List.mem_cons.1 hm with rfl | hm
    · simp only [JSuper.capacity, hi.head, hi.capacity, Nat.mod_add_mod]
    rcases List.mem_cons.1 hm with rfl | hm
    · exact hi.head
    · exact hi.idx g hm
  · obtain ⟨h1, h2, h3⟩ := hi.durable
    refine ⟨h1, ?_, h3⟩
    simp only [Hist.grant]; omega
  · intro p hp
    obtain ⟨w, hs, ⟨ho, ho'⟩, hd'⟩ := hi.writing p hp
    refine ⟨w, hs, ⟨?_, ho'⟩, hd'⟩
    simp only [Hist.grant]
    omega

theorem release (hd : d.Geom) (hi : Inv d h) {k : ℕ} (hk : k ≤ h.js.size) : Inv d (h.release k) := by
  have hk' : k ≤ h.js.djsuper.nUsed := hk
  have hu := hi.used
  have hle := hi.le
  have hsmall := hd.small
  have hn : u64Sub h.js.djsuper.nUsed k = h.js.djsuper.nUsed - k := u64Sub_of_le hk'
  have ht : h.js.djsuper.tail = h.deq % d.capacity := hi.snap.tail
  have hlt := Nat.mod_lt h.deq hd.pos
  refine ⟨⟨hi.snap.keeps.trans ⟨rfl, rfl, rfl, rfl, rfl⟩, hi.head, ?_, ?_, ?_⟩, hi.tiles, ?_, hi.idx, ?_, hi.idle, ?_⟩
  · simp only [Hist.snap, Hist.release, releaseFirstNSlots, addUnaccounted, unsafeNItemsDequeued]
    rw [u64Add_of_lt (by omega), ht, hi.capacity, Nat.mod_add_mod]
  · simp only [Hist.snap, Hist.release, releaseFirstNSlots, addUnaccounted, unsafeNItemsDequeued, hn]
    omega
  · simp only [Hist.snap, Hist.release, releaseFirstNSlots, addUnaccounted, unsafeNItemsDequeued, hn]
    omega
  · exact Nat.le_trans hi.base (Nat.le_add_right _ _)
  · exact ⟨hi.durable.1, hi.durable.2.1, Nat.le_trans hi.durable.2.2 (Nat.le_add_right _ _)⟩
  · intro p hp
    obtain ⟨w, hs, ⟨ho, ho'⟩, hd'⟩ := hi.writing p hp
    exact ⟨w, hs, ⟨ho, Nat.le_trans ho' (Nat.le_add_right _ _)⟩, hd'⟩

theorem setLastCheckpoint (hi : Inv d h) (ts : ℕ) : Inv d { h with js := h.js.setLastCheckpoint ts } :=
  ⟨⟨hi.snap.keeps.trans ⟨rfl, rfl, rfl, rfl, rfl⟩, hi.head, hi.snap.tail, hi.used, hi.le⟩, hi.tiles,
    hi.base, hi.idx, hi.durable, hi.idle, hi.writing⟩

theorem startWrite (hi : Inv d h) : Inv d h.startWrite := by
  refine ⟨hi.snap, hi.tiles, hi.base, hi.idx, hi.durable, by simp [Hist.startWrite], ?_⟩
  rintro p ⟨⟩
  exact ⟨rfl, hi.snap, ⟨Nat.le_refl _, Nat.le_refl _⟩, hi.durable.2⟩

theorem jsuperDurable (hi : Inv d h) (hp : h.pending = some p) : Inv d { h with durable := p.snap } := by
  obtain ⟨w, hs, ho, -⟩ := hi.writing p hp
  refine ⟨hi.snap, hi.tiles, hi.base, hi.idx, ⟨hs, ho⟩, hi.idle, fun q hq => ?_⟩
  cases hp.symm.trans hq
  exact ⟨w, hs, ho, Nat.le_refl _, Nat.le_refl _⟩

theorem endWrite (hi : Inv d h) (hp : h.pending = some p) : Inv d (h.endWrite p) := by
  obtain ⟨-, hs, ho, -⟩ := hi.writing p hp
  exact ⟨hi.snap, hi.tiles, hi.base, hi.idx, ⟨hs, ho⟩, fun _ => rfl, by simp [Hist.endWrite]⟩

theorem step (hd : d.Geom) (hi : Inv d h) {op : Op} {h' : Hist} (he : Hist.step op h = some h') : Inv d h' := by
  rcases Hist.step_cases he with ⟨n, -, hn, rfl⟩ | ⟨k, -, hk, rfl⟩ | ⟨-, rfl | ⟨-, rfl⟩⟩ | ⟨p, -, hp, rfl⟩ |
    ⟨p, -, hp, rfl⟩ | ⟨ts, -, rfl⟩
  · exact hi.acquire hd hn
  · exact hi.release hd hk
  · exact hi
  · exact hi.startWrite
  · exact hi.jsuperDurable hp
  · exact hi.endWrite hp
  · exact hi.setLastCheckpoint ts

end Inv

namespace Accounted

variable {d : JSuperOnDisk} {h : Hist}

theorem acquire (hd : d.Geom) (hi : Inv d h) (ha : Accounted h) {n : ℕ} (hn : h.js.djsuper.nUsed + n < 2 ^ 64) :
    Accounted (h.acquire n) := by
  by_cases hg : (h.js.acquireNextNSlots n).1.Granted
  swap
  · rw [Hist.acquire_of_refused hg]; exact ha
  rw [Hist.acquire_of_granted (hi.bounded hd hn) hg]
  have hun := ha.unaccounted
  refine ⟨?_, fun p hp => ?_⟩
  · simp only [Hist.grant, JSuper.enqueue_unaccounted]
    omega
  · obtain ⟨hle, hw⟩ := ha.writing p hp
    simp only [Hist.grant, JSuper.enqueue_unaccounted]
    omega

/-- More blocks are unaccounted for, and the ring is as it was or has fewer. -/
theorem add {h' : Hist} {n : ℕ} (ha : Accounted h) (hn : h.js.nblocksUnaccounted + n < 2 ^ 64)
    (hun : h'.js.nblocksUnaccounted = u64Add h.js.nblocksUnaccounted n) (henq : h'.enq = h.enq)
    (hdur : h'.durable = h.durable) (hpend : h'.pending = h.pending) : Accounted h' := by
  rw [u64Add_of_lt hn] at hun
  have hle := ha.unaccounted
  refine ⟨by rw [hun, henq, hdur]; omega, fun p hp => ?_⟩
  obtain ⟨hold, hw⟩ := ha.writing p (hpend ▸ hp)
  rw [hun, henq]
  omega

theorem startWrite (ha : Accounted h) : Accounted h.startWrite := by
  refine ⟨ha.unaccounted, ?_⟩
  rintro p ⟨⟩
  exact ⟨Nat.le_refl _, Nat.le_add_right _ _⟩

theorem jsuperDurable (ha : Accounted h) (hp : h.pending = some p) : Accounted { h with durable := p.snap } := by
  obtain ⟨hle, hw⟩ := ha.writing p hp
  exact ⟨by simp only; omega, ha.writing⟩

theorem endWrite (ha : Accounted h) (hp : h.pending = some p) : Accounted (h.endWrite p) := by
  obtain ⟨hle, hw⟩ := ha.writing p hp
  refine ⟨?_, by simp [Hist.endWrite]⟩
  simp only [Hist.endWrite, JSuper.onWriteComplete, u64Sub_of_le hle]
  exact hw

theorem step (hd : d.Geom) (hi : Inv d h) (ha : Accounted h) {op : Op} {h' : Hist} (hw : Hist.NoWrap op h)
    (he : Hist.step op h = some h') : Accounted h' := by
  rcases Hist.step_cases he with ⟨n, rfl, -, rfl⟩ | ⟨k, rfl, hk, rfl⟩ | ⟨-, rfl | ⟨-, rfl⟩⟩ | ⟨p, -, hp, rfl⟩ |
    ⟨p, -, hp, rfl⟩ | ⟨ts, rfl, rfl⟩
  · exact ha.acquire hd hi hw
  · exact ha.add hw rfl rfl rfl rfl
  · exact ha
  · exact ha.startWrite
  · exact ha.jsuperDurable hp
  · exact ha.endWrite hp
  · exact ha.add hw rfl rfl rfl rfl

end Accounted

theorem reachable_inv {d : JSuperOnDisk} (hd : EmptyJournal d) {ops : List Op} {h : Hist}
    (hr : run Hist.step ops (Hist.start d) = some h) : Inv d h :=
  run_inv' (fun _ _ _ hi he => hi.step hd.geom he) hr (inv_start hd)

theorem reachable_accounted {d : JSuperOnDisk} (hd : EmptyJournal d) {ops : List Op} {h : Hist}
    (hr : run Hist.step ops (Hist.start d) = some h) (hw : Along Hist.step Hist.NoWrap ops (Hist.start d)) :
      Accounted h :=
  (run_inv (I := fun h => Inv d h ∧ Accounted h)
    (fun _ _ _ hi hw he => ⟨hi.1.step hd.geom he, hi.2.step hd.geom hi.1 hw he⟩) hr hw
      ⟨inv_start hd, accounted_start d⟩).2

end Ufs.Proof.Journal
