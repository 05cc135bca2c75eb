import Ufs.Proof.Journal.Hist

/-!
# The slots of the journal ring

`ring_invariant`: the slots and fillers granted and not yet released share no block and are the
`nUsed` blocks of the ring from `tail`. `slots_contiguous`: a slot is contiguous because a maximal
entry fits between the head and the end of the region, or because whatever can still be granted does
(`Room`). The filler keeps it so, but it is refused when there is no space for it, and a release
that then frees the space lets the next entry run past the end. `RoomAfterRelease` is the exact
condition on releases.
-/

namespace Ufs.Impl

open Ufs.Ring

/-- The ring indices of the blocks of a grant that are not released, `deq` blocks of
the stream being so. -/
def Grant.live (g : Grant) (c deq : ℕ) : Finset ℕ :=
  ((Finset.range g.len).filter fun i => deq ≤ g.pos + i).image fun i => (g.startIdx + i) % c

theorem Grant.live_eq {g : Grant} {c : ℕ} (h : g.startIdx = g.pos % c) (deq : ℕ) :
    g.live c deq = g.toExtent.from c deq := by
  ext x
  simp only [Grant.live, Finset.mem_image, Finset.mem_filter, Finset.mem_range, Extent.from, Extent.stop,
    mem_window, h, Nat.mod_add_mod]
  constructor
  · rintro ⟨i, ⟨hi, hd⟩, rfl⟩
    exact ⟨g.pos + i - max g.pos deq, by omega, by rw [Nat.add_sub_cancel' (by omega)]⟩
  · rintro ⟨i, hi, rfl⟩
    exact ⟨max g.pos deq + i - g.pos, ⟨by omega, by omega⟩, by rw [Nat.add_sub_cancel' (by omega)]⟩

/-- The sizes `tryNextTransaction` asks for. -/
def Op.Asks : Op → Prop
  | .acquire n => 2 ≤ n ∧ n ≤ maxBlocks
  | _ => True

instance (op : Op) : Decidable op.Asks :=
  match op with
  | .acquire n => inferInstanceAs (Decidable (2 ≤ n ∧ n ≤ maxBlocks))
  | .release _ | .trySetWriteInProgress | .jsuperDurable | .onWriteComplete | .setLastCheckpoint _ =>
    inferInstanceAs (Decidable True)

end Ufs.Impl

namespace Ufs.Proof.Journal

open Impl Ufs.Ring

/-- Calls that do not wrap are steps. -/
theorem run_step_of_noWrap {ops : List Op} {h h' : Hist} (hr : run Hist.call ops h = some h')
    (hw : Along Hist.call Hist.NoWrap ops h) :
    run Hist.step ops h = some h' ∧ Along Hist.step Hist.NoWrap ops h := by
  induction ops generalizing h with
  | nil => exact ⟨hr, trivial⟩
  | cons op ops ih =>
    obtain ⟨h1, hcall, hrest⟩ := run_cons_eq_some.1 hr
    rw [along_cons_some hcall] at hw
    have hstep := Hist.step_of_call hw.1 hcall
    obtain ⟨hrun, halong⟩ := ih hrest hw.2
    exact ⟨by rw [run_cons, hstep, Option.bind_some, hrun], (along_cons_some hstep).2 ⟨hw.1, halong⟩⟩

/-- The counters fit, the slots and fillers that are granted and not yet released share no block and
make up the `nUsed` blocks from `tail`, and a write of the superblock never takes off more than is
unaccounted for. -/
structure RingKept (h : Hist) : Prop where
  size_le : h.js.size ≤ h.js.capacity
  head : h.js.djsuper.head = (h.js.djsuper.tail + h.js.size) % h.js.capacity
  disjoint : h.grants.Pairwise fun g g' =>
    Disjoint (g.live h.js.capacity h.deq) (g'.live h.js.capacity h.deq)
  used : ∀ x, (∃ g ∈ h.grants, x ∈ g.live h.js.capacity h.deq) ↔
    x ∈ window h.js.capacity h.js.djsuper.tail h.js.size
  unaccounted : ∀ p, h.pending = some p → p.old ≤ h.js.nblocksUnaccounted

/-- The ring in every state that is reached by calls whose sums do not wrap. -/
theorem ring_invariant {d : JSuperOnDisk} (hd : EmptyJournal d) {ops : List Op} {h : Hist}
    (hcalls : run Hist.call ops (Hist.start d) = some h)
    (hw : Along Hist.call Hist.NoWrap ops (Hist.start d)) : RingKept h := by
  obtain ⟨hr, hw⟩ := run_step_of_noWrap hcalls hw
  have hi := reachable_inv hd hr
  have hc : h.js.capacity = d.capacity := hi.capacity
  have hu := hi.used
  have ht : h.js.djsuper.tail = h.deq % d.capacity := hi.snap.tail
  have hs : h.js.size = h.enq - h.deq := by simp only [JSuper.size]; omega
  have hle : h.js.size ≤ h.js.capacity := hc ▸ hi.le
  refine ⟨hle, ?_, ?_, fun x => ?_, fun p hp => ((reachable_accounted hd hr hw).writing p hp).1⟩
  all_goals rw [hc]
  · rw [ht, hi.head, Nat.mod_add_mod, hs]
    congr 1; omega
  · have hle : h.enq ≤ h.deq + d.capacity := by have := hi.le; omega
    have hp := List.pairwise_map.mp (hi.tiles.disjoint_from (c := d.capacity) hle)
    refine hp.imp_of_mem fun {g g'} hg hg' hdis => ?_
    rwa [Grant.live_eq (hi.idx g hg), Grant.live_eq (hi.idx g' hg')]
  · rw [ht, window_mod, hs, ← hi.tiles.mem_from hi.base]
    simp only [List.mem_map, exists_exists_and_eq_and]
    refine exists_congr fun g => and_congr_right fun hg => ?_
    rw [Grant.live_eq (hi.idx g hg)]

/-- An empty journal of 100 blocks. -/
def smallJournal : JSuperOnDisk := ⟨jsuperMagic, 999, 1000, 1099, 100, 0, 0, 0, 0⟩

theorem smallJournal_empty : EmptyJournal smallJournal := ⟨⟨by decide, by decide, by decide⟩, rfl, rfl, by decide⟩

/-- A run with a filler, a release that ends inside a slot and a superblock write that
completes after it. -/
def fillerOps : List Op :=
  [.acquire 32, .acquire 30, .acquire 10, .trySetWriteInProgress, .release 40, .acquire 20,
    .setLastCheckpoint 7, .onWriteComplete, .trySetWriteInProgress]

theorem ring_invariant_smallJournal : ∃ h, run Hist.call fillerOps (Hist.start smallJournal) = some h ∧
    h.js.size = 80 ∧ RingKept h :=
  ⟨_, rfl, by decide, @ring_invariant smallJournal smallJournal_empty fillerOps _ rfl (by decide)⟩

/-- A request whose sum with `n_used` wraps is granted: no block is in use then, but two slots are out. -/
theorem ring_wraps : ∃ h, run Hist.call [.acquire 1, .acquire (2 ^ 64 - 1)] (Hist.start smallJournal) = some h ∧
    h.js.size = 0 ∧ (∃ g ∈ h.grants, 0 ∈ g.live h.js.capacity h.deq) ∧ ¬ RingKept h := by
  refine ⟨_, rfl, by decide +kernel, ?_, fun hkept => ?_⟩
  · exact ⟨⟨⟨0, 1⟩, 0, false⟩, by decide +kernel, by decide +kernel⟩
  · have hin := (hkept.used 0).1 ⟨⟨⟨0, 1⟩, 0, false⟩, by decide +kernel, by decide +kernel⟩
    exact absurd hin (by decide +kernel)

/-! ## Contiguous slots -/

/-- A slot granted by the operation does not loop around: all its blocks, the last of
which takes the commit record, are in the journal region. -/
def Contiguous (op : Op) (h : Hist) : Prop :=
  match op with
  | .acquire n => (h.js.acquireNextNSlots n).1.Granted →
    ∃ idx ∈ (h.js.acquireNextNSlots n).1.startIdx, h.js.noLoopArounds idx n = true ∧
      h.js.djsuper.jstartBlockno ≤ h.js.idxToBlockNo idx ∧
      h.js.idxToBlockNo idx + n - 1 ≤ h.js.djsuper.jendBlockno
  | _ => True

instance (op : Op) (h : Hist) : Decidable (Contiguous op h) :=
  match op with
  | .acquire _ => inferInstanceAs (Decidable (_ → _))
  | .release _ | .trySetWriteInProgress | .jsuperDurable | .onWriteComplete | .setLastCheckpoint _ =>
    inferInstanceAs (Decidable True)

/-- A maximal entry, or every entry there is space for, ends before the region does. -/
def Room (h : Hist) : Prop :=
  maxBlocks ≤ h.js.nblocksTillEnd ∨ h.js.capacity ≤ h.js.size + h.js.nblocksTillEnd

/-- The release leaves `Room`: it does not free the space of a filler that was refused. -/
def RoomAfterRelease (op : Op) (h : Hist) : Prop :=
  match op with
  | .release k => maxBlocks ≤ h.js.nblocksTillEnd ∨ h.js.capacity ≤ h.js.size - k + h.js.nblocksTillEnd
  | _ => True

instance (op : Op) (h : Hist) : Decidable (RoomAfterRelease op h) :=
  match op with
  | .release _ => inferInstanceAs (Decidable (_ ∨ _))
  | .acquire _ | .trySetWriteInProgress | .jsuperDurable | .onWriteComplete | .setLastCheckpoint _ =>
    inferInstanceAs (Decidable True)

section

variable {d : JSuperOnDisk} {h : Hist}

theorem Inv.tillEnd (hi : Inv d h) (hd : d.Geom) : h.js.nblocksTillEnd = d.capacity - h.js.djsuper.head ∧
    h.js.djsuper.head < d.capacity := by
  have hlt : h.js.djsuper.head < d.capacity := by rw [hi.head]; exact Nat.mod_lt _ hd.pos
  rw [JSuper.nblocksTillEnd_eq (hi.geom hd), hi.capacity, Nat.mod_eq_of_lt hlt]
  exact ⟨rfl, hlt⟩

theorem Room.head_add_le (hd : d.Geom) (hi : Inv d h) (hroom : Room h) {n : ℕ} (hn : n ≤ maxBlocks)
    (hg : (h.js.acquireNextNSlots n).1.Granted) : h.js.djsuper.head + n ≤ d.capacity := by
  obtain ⟨he, hlt⟩ := hi.tillEnd hd
  have hfit := ((JSuper.granted_iff (hi.bounded_of_le hd hn).used).1 hg).1
  have hc := hi.capacity
  simp only [Room, JSuper.capacity, JSuper.size, he] at hroom
  omega

theorem noLoopArounds_iff {j : JSuper} {idx n : ℕ} : j.noLoopArounds idx n = true ↔
    j.idxToBlockNo idx < j.idxToBlockNo (u64Sub (u64Add idx n) 1) := decide_eq_true_iff

theorem noLoopArounds_of_le {j : JSuper} (hg : j.djsuper.Geom) {idx n : ℕ} (hn : 2 ≤ n)
    (hle : idx + n ≤ j.djsuper.capacity) : j.noLoopArounds idx n = true ∧
      j.djsuper.jstartBlockno ≤ j.idxToBlockNo idx ∧ j.idxToBlockNo idx + n - 1 ≤ j.djsuper.jendBlockno := by
  have hr := hg.region
  have hs := hg.small
  have hi : idx % j.djsuper.capacity = idx := Nat.mod_eq_of_lt (by omega)
  refine ⟨?_, Nat.le_add_right _ _, ?_⟩
  · rw [noLoopArounds_iff, u64Add_of_lt (by omega), u64Sub_of_le (by omega), JSuper.idxToBlockNo,
      JSuper.idxToBlockNo, hi, Nat.mod_eq_of_lt (by omega)]
    omega
  · simp only [JSuper.idxToBlockNo, hi]
    omega

theorem Room.contiguous (hd : d.Geom) (hi : Inv d h) (hroom : Room h) {op : Op} (ha : op.Asks) : Contiguous op h := by
  cases op with
  | acquire n =>
    intro hg
    refine ⟨_, (JSuper.acquire_eq hg).1, noLoopArounds_of_le (hi.geom hd) ha.1 ?_⟩
    rw [hi.capacity]
    exact hroom.head_add_le hd hi ha.2 hg
  | _ => trivial

/-- The filler keeps the room: it leaves the head at the start of the region, or a
maximal entry before its end; and when it is refused, so is all that does not fit. -/
theorem Room.acquire (hd : d.Geom) (hi : Inv d h) (hcap : maxBlocks < d.capacity) (hroom : Room h)
    {n : ℕ} (hn : n ≤ maxBlocks) : Room (h.acquire n) := by
  by_cases hg : (h.js.acquireNextNSlots n).1.Granted
  swap
  · rw [Hist.acquire_of_refused hg]; exact hroom
  have hle := hroom.head_add_le hd hi hn hg
  have hb := hi.bounded_of_le hd hn
  have hfit := ((JSuper.granted_iff hb.used).1 hg).1
  obtain ⟨he', hlt'⟩ := (hi.acquire hd hb.used).tillEnd hd
  obtain ⟨he, hlt⟩ := hi.tillEnd hd
  have hc := hi.capacity
  rw [Room, he']
  rw [Hist.acquire_of_granted hb hg] at hlt' ⊢
  simp only [JSuper.capacity, JSuper.size, JSuper.enqueue_head, JSuper.enqueue_nUsed, JSuper.enqueue_capacity,
    hc] at hlt' ⊢
  rcases Nat.lt_or_eq_of_le hle with hlt1 | heq
  · have hm : (h.js.djsuper.head + n) % d.capacity = h.js.djsuper.head + n := Nat.mod_eq_of_lt hlt1
    have hcases := JSuper.filler_cases (hi.geom hd) hb hfit (e := d.capacity - (h.js.djsuper.head + n)) (by rw [hc, hm])
    rw [hc] at hcases
    rcases hcases with ⟨h0, hf⟩ | ⟨h1, -, -⟩
    · rw [h0, Nat.add_zero, hm]
      omega
    · rw [h1, ← Nat.add_assoc, Nat.add_sub_cancel' hle, Nat.mod_self]
      omega
  · have hcases := JSuper.filler_cases (hi.geom hd) hb hfit (e := d.capacity)
      (by rw [hc, heq, Nat.mod_self, Nat.sub_zero])
    have h0 : h.js.filler n = 0 := by omega
    rw [h0, Nat.add_zero, heq, Nat.mod_self]
    omega

theorem Room.release {k : ℕ} (hk : k ≤ h.js.size) (hr : RoomAfterRelease (.release k) h) : Room (h.release k) := by
  have hs : (h.release k).js.size = h.js.size - k := u64Sub_of_le hk
  rw [Room, hs]
  exact hr

theorem Room.step (hd : d.Geom) (hi : Inv d h) (hcap : maxBlocks < d.capacity) (hroom : Room h)
    {op : Op} (ha : op.Asks) (hr : RoomAfterRelease op h) {h' : Hist} (he : Hist.step op h = some h') : Room h' := by
  rcases Hist.step_cases he with ⟨n, rfl, -, rfl⟩ | ⟨k, rfl, hk, rfl⟩ | ⟨-, rfl | ⟨-, rfl⟩⟩ | ⟨p, -, -, rfl⟩ |
    ⟨p, -, -, rfl⟩ | ⟨ts, -, rfl⟩
  · exact hroom.acquire hd hi hcap ha.2
  · exact Room.release hk hr
  -- The others do not move the head or the tail.
  all_goals exact hroom

/-- Once the space of a refused filler is free, an entry one block longer than the rest
of the region is granted and loops around, as soon as a superblock write has brought the
count of unaccounted blocks down. -/
theorem refused_filler_wraps (hd : d.Geom) (hi : Inv d h)
    (hfree : h.js.size + h.js.nblocksTillEnd < h.js.capacity) (hw : h.js.nblocksUnaccounted = 0) :
    ¬ Contiguous (.acquire (h.js.nblocksTillEnd + 1)) h := by
  obtain ⟨he, hlt'⟩ := hi.tillEnd hd
  have hc := hi.capacity
  intro hcon
  have hg : (h.js.acquireNextNSlots (h.js.nblocksTillEnd + 1)).1.Granted := by
    have hsmall := hd.small
    have hsize : h.js.size = h.js.djsuper.nUsed := rfl
    have hcapacity : h.js.capacity = h.js.djsuper.capacity := rfl
    refine (JSuper.granted_iff (by omega)).2 ⟨hfree, ?_⟩
    rw [hw]; decide
  obtain ⟨idx, hidx, hno, -⟩ := hcon hg
  rw [(JSuper.acquire_eq hg).1, Option.mem_some_iff] at hidx
  subst hidx
  -- The last block of the slot is the first of the region.
  have hend : u64Sub (u64Add h.js.djsuper.head (h.js.nblocksTillEnd + 1)) 1 = d.capacity := by
    have hsmall := hd.small
    rw [u64Add_of_lt (by omega), u64Sub_of_le (by omega)]; omega
  rw [noLoopArounds_iff, hend, JSuper.idxToBlockNo, JSuper.idxToBlockNo, hc, Nat.mod_self] at hno
  omega

/-- The superblock can be written at any time: after it, nothing is unaccounted for, and
the ring is as it was. -/
theorem exists_writes (h : Hist) (hi : Inv d h) : ∃ ops h', (∀ op ∈ ops, op.Asks) ∧
    run Hist.step ops h = some h' ∧ h'.js.djsuper = h.js.djsuper ∧ h'.js.nblocksUnaccounted = 0 := by
  have hwrite : ∀ h : Hist, h.js.writeInProgress = false → run Hist.step [.trySetWriteInProgress, .onWriteComplete] h =
          some (h.startWrite.endWrite ⟨h.snap, h.js.nblocksUnaccounted⟩) ∧
        (h.startWrite.endWrite ⟨h.snap, h.js.nblocksUnaccounted⟩).js.nblocksUnaccounted = 0 := by
    intro h hw
    rw [run_cons, Hist.step_startWrite hw, Option.bind_some, run_cons, Hist.step_endWrite rfl]
    exact ⟨rfl, (u64Sub_of_le (Nat.le_refl _)).trans (Nat.sub_self _)⟩
  cases hp : h.pending with
  | none =>
    obtain ⟨hr, hu⟩ := hwrite h (hi.idle hp)
    exact ⟨_, _, by simp [Op.Asks], hr, rfl, hu⟩
  | some p =>
    obtain ⟨hr, hu⟩ := hwrite (h.endWrite p) rfl
    refine ⟨[.onWriteComplete, .trySetWriteInProgress, .onWriteComplete],
      (h.endWrite p).startWrite.endWrite ⟨(h.endWrite p).snap, (h.endWrite p).js.nblocksUnaccounted⟩,
      by simp [Op.Asks], ?_, rfl, hu⟩
    rw [run_cons, Hist.step_endWrite hp, Option.bind_some, hr]

end

theorem room_start {d : JSuperOnDisk} (hd : EmptyJournal d) (hroom : maxBlocks < d.capacity - d.head) :
    Room (Hist.start d) := by
  obtain ⟨he, -⟩ := (inv_start hd).tillEnd hd.geom
  rw [Room, he]
  simp only [Hist.start, JSuper.ofDisk]
  omega

/-- In every run from an empty journal with room for a maximal entry, whose requests are
of the sizes `tryNextTransaction` asks for and whose releases do not free the space of a
refused filler, every slot granted is contiguous and inside the journal region. And that
is exactly when: any other release of any run can be followed by requests, one of which
is granted a slot that is not. -/
theorem slots_contiguous {d : JSuperOnDisk} (hd : EmptyJournal d) (hroom : maxBlocks < d.capacity - d.head) :
    (∀ ops, (∀ op ∈ ops, op.Asks) → Along Hist.step RoomAfterRelease ops (Hist.start d) →
      Along Hist.step Contiguous ops (Hist.start d)) ∧
    ∀ ops h k, run Hist.step ops (Hist.start d) = some h → k ≤ h.js.size → ¬ RoomAfterRelease (.release k) h →
      ∃ more, (∀ op ∈ more, op.Asks) ∧ ¬ Along Hist.step Contiguous (ops ++ .release k :: more) (Hist.start d) := by
  constructor
  · intro ops hasks hrel
    have hstart := room_start hd hroom
    have hboth : Along Hist.step (fun op h => op.Asks ∧ RoomAfterRelease op h) ops (Hist.start d) :=
      along_and_mem hasks hrel
    refine along_inv (I := fun h => Inv d h ∧ Room h) (fun op h hi hp => ?_) (fun op h h' hi hp he => ?_)
      hboth ⟨inv_start hd, hstart⟩
    · exact hi.2.contiguous hd.geom hi.1 hp.1
    · exact ⟨hi.1.step hd.geom he, hi.2.step hd.geom hi.1 (by omega) hp.1 hp.2 he⟩
  · intro ops h k hr hk hrel
    have hi := (reachable_inv hd hr).release hd.geom hk
    set h₁ : Hist := h.release k with hh₁
    have hstep : Hist.step (.release k) h = some h₁ := if_pos hk
    obtain ⟨ws, h₂, hws, hrun, hdj, hun⟩ := exists_writes h₁ hi
    have hrun₂ : run Hist.step (ops ++ .release k :: ws) (Hist.start d) = some h₂ := by
      rw [run_append, hr, Option.bind_some, run_cons, hstep, Option.bind_some, hrun]
    have hs : h₁.js.size = h.js.size - k := u64Sub_of_le hk
    have hN : h₁.js.nblocksTillEnd = h.js.nblocksTillEnd := rfl
    have hN₂ : h₂.js.nblocksTillEnd = h.js.nblocksTillEnd := by
      rw [← hN]; simp only [JSuper.nblocksTillEnd, JSuper.idxToBlockNo, hdj]
    have hs₂ : h₂.js.size = h.js.size - k := by rw [← hs]; simp only [JSuper.size, hdj]
    have hc₂ : h₂.js.capacity = h.js.capacity := by
      simp only [JSuper.capacity, hdj, hh₁]; rfl
    simp only [RoomAfterRelease, not_or, Nat.not_le] at hrel
    refine ⟨ws ++ [.acquire (h₂.js.nblocksTillEnd + 1)], ?_, ?_⟩
    · intro op hop
      rcases List.mem_append.mp hop with hop | hop
      · exact hws op hop
      · rw [List.mem_singleton.mp hop]
        have := (reachable_inv hd hrun₂).tillEnd hd.geom
        simp only [Op.Asks]
        omega
    · rw [← List.cons_append, ← List.append_assoc, along_append hrun₂]
      refine fun hcon => refused_filler_wraps hd.geom (reachable_inv hd hrun₂) ?_ hun hcon.2.1
      omega

/-- The filler after the sixth request is refused, for the head is behind the tail. The
checkpoint then empties the ring, and a maximal entry at index 72 of 100 is granted. -/
def loopingOps : List Op :=
  [.acquire 32, .acquire 32, .acquire 32, .release 90, .acquire 30, .acquire 32, .acquire 10, .release 82,
    .acquire 32]

theorem slots_contiguous_smallJournal : EmptyJournal smallJournal ∧
    maxBlocks < smallJournal.capacity - smallJournal.head ∧
    (∀ op ∈ loopingOps.take 7, op.Asks) ∧ Along Hist.step Contiguous (loopingOps.take 7) (Hist.start smallJournal) :=
  ⟨smallJournal_empty, by decide, by decide,
    (slots_contiguous smallJournal_empty (by decide)).1 _ (by decide) (by decide)⟩

/-- Without the condition on releases a slot may loop around. -/
theorem slots_not_contiguous : EmptyJournal smallJournal ∧ maxBlocks < smallJournal.capacity - smallJournal.head ∧
    ¬ ∀ ops, (∀ op ∈ ops, op.Asks) → Along Hist.step Contiguous ops (Hist.start smallJournal) :=
  ⟨smallJournal_empty, by decide, fun h => absurd (h loopingOps (by decide)) (by decide)⟩

end Ufs.Proof.Journal
