import Ufs.Impl.JSuper

/-!
# What the functions of `JSuper` do

The journal region of a superblock that `mkfs` wrote is `[jstart, jend]` with `jend - jstart + 1 =
capacity` (`Geom`); no function changes it (`Keeps`). A granted request for `n` blocks enqueues the
`n` blocks and a filler (`filler`) at once (`acquire_granted`), and a refused one changes nothing
(`acquire_refused`). `filler_cases` says when the filler is empty, and which one it is otherwise.
-/

namespace Ufs.Impl

/-- The region, which is so small that the sums of its indices do not overflow, as the source's notes
say at `UnsafeNItemsEnqueued` and `UnsafeNItemsDequeued`. -/
structure JSuperOnDisk.Geom (d : JSuperOnDisk) : Prop where
  region : d.jendBlockno + 1 = d.jstartBlockno + d.capacity
  pos : 0 < d.capacity
  small : d.capacity < 2 ^ 62

/-- The fields that are constant after `mkfs` are the same. -/
structure JSuperOnDisk.Keeps (d d' : JSuperOnDisk) : Prop where
  jmagic : d'.jmagic = d.jmagic
  jsuperBlockno : d'.jsuperBlockno = d.jsuperBlockno
  jstartBlockno : d'.jstartBlockno = d.jstartBlockno
  jendBlockno : d'.jendBlockno = d.jendBlockno
  capacity : d'.capacity = d.capacity

theorem JSuperOnDisk.Keeps.refl (d : JSuperOnDisk) : d.Keeps d := ⟨rfl, rfl, rfl, rfl, rfl⟩

theorem JSuperOnDisk.Keeps.trans {d d' d'' : JSuperOnDisk} (h : d.Keeps d') (h' : d'.Keeps d'') : d.Keeps d'' :=
  ⟨h'.jmagic.trans h.jmagic, h'.jsuperBlockno.trans h.jsuperBlockno, h'.jstartBlockno.trans h.jstartBlockno,
    h'.jendBlockno.trans h.jendBlockno,
    h'.capacity.trans h.capacity⟩

theorem JSuperOnDisk.Geom.of_keeps {d d' : JSuperOnDisk} (h : d.Geom) (hk : d.Keeps d') : d'.Geom :=
  ⟨by rw [hk.jendBlockno, hk.jstartBlockno, hk.capacity]; exact h.region, by rw [hk.capacity]; exact h.pos,
    by rw [hk.capacity]; exact h.small⟩

namespace JSuper

@[simp] theorem ofDisk_djsuper (d : JSuperOnDisk) : (ofDisk d).djsuper = d := rfl
@[simp] theorem ofDisk_unaccounted (d : JSuperOnDisk) : (ofDisk d).nblocksUnaccounted = 0 := rfl

/-- `n` blocks enqueued and not accounted for, when no sum wraps. -/
def enqueue (j : JSuper) (n : ℕ) : JSuper :=
  { j with
    djsuper := { j.djsuper with
      head := (j.djsuper.head + n) % j.djsuper.capacity
      nUsed := j.djsuper.nUsed + n }
    nblocksUnaccounted := j.nblocksUnaccounted + n }

/-- The filler that a granted request for `n` blocks leaves behind it. -/
def filler (j : JSuper) (n : ℕ) : ℕ := ((j.unsafeNItemsEnqueued n).unsafeEnsureNextContiguousRegion).1

/-- The ring is small, and `n_used + n` does not wrap. -/
structure Bounded (j : JSuper) (n : ℕ) : Prop where
  capacity : j.djsuper.capacity < 2 ^ 62
  head : j.djsuper.head < 2 ^ 62
  used : j.djsuper.nUsed + n < 2 ^ 64

@[simp] theorem enqueue_head (j : JSuper) (n : ℕ) : (j.enqueue n).djsuper.head =
    (j.djsuper.head + n) % j.djsuper.capacity := rfl
@[simp] theorem enqueue_nUsed (j : JSuper) (n : ℕ) : (j.enqueue n).djsuper.nUsed = j.djsuper.nUsed + n := rfl
@[simp] theorem enqueue_tail (j : JSuper) (n : ℕ) : (j.enqueue n).djsuper.tail = j.djsuper.tail := rfl
@[simp] theorem enqueue_lastChkptTs (j : JSuper) (n : ℕ) : (j.enqueue n).djsuper.lastChkptTs =
    j.djsuper.lastChkptTs := rfl
@[simp] theorem enqueue_capacity (j : JSuper) (n : ℕ) : (j.enqueue n).djsuper.capacity = j.djsuper.capacity := rfl
@[simp] theorem enqueue_unaccounted (j : JSuper) (n : ℕ) : (j.enqueue n).nblocksUnaccounted =
    j.nblocksUnaccounted + n := rfl
@[simp] theorem enqueue_writeInProgress (j : JSuper) (n : ℕ) : (j.enqueue n).writeInProgress = j.writeInProgress := rfl

theorem enqueue_keeps (j : JSuper) (n : ℕ) : j.djsuper.Keeps (j.enqueue n).djsuper :=
  ⟨rfl, rfl, rfl, rfl, rfl⟩

theorem enqueue_enqueue (j : JSuper) (a b : ℕ) : (j.enqueue a).enqueue b = j.enqueue (a + b) := by
  simp [enqueue, Nat.add_assoc]

variable {j : JSuper}

theorem nblocksTillEnd_eq (hg : j.djsuper.Geom) : j.nblocksTillEnd =
    j.djsuper.capacity - j.djsuper.head % j.djsuper.capacity := by
  have hr := hg.region
  have hs := hg.small
  have hlt := Nat.mod_lt j.djsuper.head hg.pos
  rw [nblocksTillEnd, idxToBlockNo, u64Sub_of_le (by omega), u64Add_of_lt (by omega)]
  omega

theorem ensure_eq (j : JSuper) : (j.unsafeEnsureNextContiguousRegion).2 = j.unsafeNItemsEnqueued
    (j.unsafeEnsureNextContiguousRegion).1 ∨
    (j.unsafeEnsureNextContiguousRegion) = (0, j) := by
  unfold unsafeEnsureNextContiguousRegion
  split
  · exact .inr rfl
  · split
    · exact .inl rfl
    · exact .inr rfl

theorem ensure_le (j : JSuper) : (j.unsafeEnsureNextContiguousRegion).1 ≤ maxBlocks := by
  unfold unsafeEnsureNextContiguousRegion
  split
  · exact Nat.zero_le _
  · split
    · dsimp only
      omega
    · exact Nat.zero_le _

variable {n : ℕ}

theorem granted_iff_u64 : (j.acquireNextNSlots n).1.Granted ↔
    u64Add j.djsuper.nUsed n ≤ j.djsuper.capacity ∧ j.nblocksUnaccounted < kMaxUnaccountedBlocks := by
  unfold acquireNextNSlots Slot.Granted unsafeShouldWaitTillJSuperWritten unsafeCanAllocateNSlots
  by_cases h1 : u64Add j.djsuper.nUsed n ≤ j.djsuper.capacity <;>
  by_cases h2 : kMaxUnaccountedBlocks ≤ j.nblocksUnaccounted <;>
  · simp [h1, h2]
    try omega

theorem granted_iff (hn : j.djsuper.nUsed + n < 2 ^ 64) : (j.acquireNextNSlots n).1.Granted ↔
    j.djsuper.nUsed + n ≤ j.djsuper.capacity ∧ j.nblocksUnaccounted < kMaxUnaccountedBlocks := by
  rw [granted_iff_u64, u64Add_of_lt hn]

theorem acquire_refused (h : ¬ (j.acquireNextNSlots n).1.Granted) :
    (j.acquireNextNSlots n).2 = j ∧ (j.acquireNextNSlots n).1.startIdx = none := by
  rw [granted_iff_u64] at h
  unfold acquireNextNSlots
  rw [if_pos]
  · exact ⟨rfl, rfl⟩
  · simp only [unsafeCanAllocateNSlots, unsafeShouldWaitTillJSuperWritten, Bool.or_eq_true,
      Bool.not_eq_true', decide_eq_false_iff_not, decide_eq_true_eq]
    omega

theorem ensure_addUnaccounted (j : JSuper) (k : ℕ) : (j.addUnaccounted k).unsafeEnsureNextContiguousRegion =
      ((j.unsafeEnsureNextContiguousRegion).1, (j.unsafeEnsureNextContiguousRegion).2.addUnaccounted k) := by
  have hN : (j.addUnaccounted k).nblocksTillEnd = j.nblocksTillEnd := rfl
  have hC : ∀ m, (j.addUnaccounted k).unsafeCanAllocateNSlots m = j.unsafeCanAllocateNSlots m :=
    fun _ => rfl
  unfold unsafeEnsureNextContiguousRegion
  rw [hN, hC]
  split
  · rfl
  · split <;> rfl

/-- What a request that is granted returns: the filler is enqueued after the blocks. -/
theorem acquire_eq (h : (j.acquireNextNSlots n).1.Granted) :
    (j.acquireNextNSlots n).1.startIdx = some j.djsuper.head ∧ (j.acquireNextNSlots n).2 =
      (((j.unsafeNItemsEnqueued n).unsafeEnsureNextContiguousRegion).2.addUnaccounted n).addUnaccounted
        (j.filler n) := by
  rw [granted_iff_u64] at h
  unfold acquireNextNSlots
  rw [if_neg]
  · refine ⟨rfl, ?_⟩
    simp only [ensure_addUnaccounted, filler]
  · simp only [unsafeCanAllocateNSlots, unsafeShouldWaitTillJSuperWritten, Bool.or_eq_true,
      Bool.not_eq_true', decide_eq_false_iff_not, decide_eq_true_eq]
    omega

/-- A step of the ring that does not wrap. -/
theorem enqueued_eq {m : ℕ} (hh : j.djsuper.head + m < 2 ^ 64) (hu : j.djsuper.nUsed + m < 2 ^ 64)
    (ha : j.nblocksUnaccounted + m < 2 ^ 64) : (j.unsafeNItemsEnqueued m).addUnaccounted m = j.enqueue m := by
  simp only [unsafeNItemsEnqueued, addUnaccounted, enqueue, u64Add_of_lt hh, u64Add_of_lt hu, u64Add_of_lt ha]

theorem acquire_granted (hb : j.Bounded n) (h : (j.acquireNextNSlots n).1.Granted) :
    (j.acquireNextNSlots n).1.startIdx = some j.djsuper.head ∧
      (j.acquireNextNSlots n).2 = j.enqueue (n + j.filler n) := by
  obtain ⟨hidx, hjs⟩ := acquire_eq h
  obtain ⟨hfit, hbelow⟩ := (granted_iff hb.used).1 h
  have hcap := hb.capacity
  have hhead := hb.head
  have hmax : maxBlocks = 32 := rfl
  have hwater : kMaxUnaccountedBlocks = 51200 := rfl
  have hfill : j.filler n ≤ maxBlocks := ensure_le _
  have hmod : (j.djsuper.head + n) % j.djsuper.capacity ≤ j.djsuper.head + n := Nat.mod_le _ _
  have hone := enqueued_eq (j := j) (m := n) (by omega) hb.used (by omega)
  have htwo := enqueued_eq (j := j.enqueue n) (m := j.filler n)
    (by rw [enqueue_head]; omega) (by rw [enqueue_nUsed]; omega) (by rw [enqueue_unaccounted]; omega)
  refine ⟨hidx, ?_⟩
  rcases ensure_eq (j.unsafeNItemsEnqueued n) with he | he
  · rw [hjs, he, ← enqueue_enqueue, ← htwo, ← hone]
    rfl
  · have hf : j.filler n = 0 := by rw [filler, he]
    rw [hjs, he, hf, Nat.add_zero, hone, addUnaccounted, u64Add_of_lt (by rw [enqueue_unaccounted]; omega)]
    rfl

/-- The filler after a granted request, by the distance `e` from the new head to the
end: none when a maximal entry fits before the end, or when there is no space for the
filler; the rest of the region otherwise. -/
theorem filler_cases (hg : j.djsuper.Geom) (hb : j.Bounded n) (hn : j.djsuper.nUsed + n ≤ j.djsuper.capacity) {e : ℕ}
    (he : e = j.djsuper.capacity - (j.djsuper.head + n) % j.djsuper.capacity) :
    j.filler n = 0 ∧ (maxBlocks < e ∨ j.djsuper.capacity < j.djsuper.nUsed + n + e) ∨
    j.filler n = e ∧ e ≤ maxBlocks ∧ j.djsuper.nUsed + n + e ≤ j.djsuper.capacity := by
  have hcap := hb.capacity
  have hhead := hb.head
  have hN : (j.unsafeNItemsEnqueued n).nblocksTillEnd = e := by
    rw [nblocksTillEnd_eq (j := j.unsafeNItemsEnqueued n) (hg.of_keeps ⟨rfl, rfl, rfl, rfl, rfl⟩), he]
    simp only [unsafeNItemsEnqueued, Nat.mod_mod]
    rw [u64Add_of_lt (by omega)]
  have hC : (j.unsafeNItemsEnqueued n).unsafeCanAllocateNSlots e = decide
    (j.djsuper.nUsed + n + e ≤ j.djsuper.capacity) := by
    refine decide_eq_decide.2 ?_
    show u64Add (u64Add j.djsuper.nUsed n) e ≤ _ ↔ _
    rw [u64Add_of_lt hb.used, u64Add_of_lt (by omega)]
    rfl
  unfold filler unsafeEnsureNextContiguousRegion
  rw [hN, hC]
  by_cases h1 : maxBlocks < e
  · exact .inl ⟨by simp [h1], .inl h1⟩
  by_cases h2 : j.djsuper.nUsed + n + e ≤ j.djsuper.capacity
  · exact .inr ⟨by simp [h1, h2], by omega, h2⟩
  · exact .inl ⟨by simp [h1, h2], .inr (by omega)⟩

theorem filler_le (hg : j.djsuper.Geom) (hb : j.Bounded n) (h : (j.acquireNextNSlots n).1.Granted) :
    j.djsuper.nUsed + n + j.filler n ≤ j.djsuper.capacity := by
  have hn := ((granted_iff hb.used).1 h).1
  rcases filler_cases hg hb hn rfl with ⟨h0, -⟩ | ⟨h1, -, h2⟩
  · omega
  · rw [h1]; exact h2

end JSuper

end Ufs.Impl
