import Ufs.Impl.JournalIterator
import Ufs.Proof.Journal.Slots

/-!
# The region that recovery scans

Recovery scans the blocks in use in the superblock it finds and the `kMaxUnaccountedBlocks` after
them, or the whole ring if that is less (`scanned`). The slots granted after that superblock was
taken are in the region if each request is within the hard watermark together with the blocks
unaccounted for before it (`scan_covers_unaccounted`); the source tests the watermark before it adds
the request. `recovery_accepts_iff`: recovery accepts the superblock of a reachable state exactly
when it leaves more than `kMaxUnaccountedBlocks` blocks of the ring free.
-/

namespace Ufs.Proof.Journal

open Impl JournalIterator Ufs.Ring
open JSuper (ofDisk size capacity ofDisk_djsuper)
open List

/-- The blocks of the ring that are in use. -/
def region (j : JSuper) : Finset ℕ := window j.capacity j.djsuper.tail j.size

/-- The ring indices that recovery reads when it finds the superblock `s`. -/
def scanned (s : JSuperOnDisk) : Finset ℕ :=
  match extendToUnaccountedRegion (JSuper.ofDisk s) with
  | .ok j => region j
  | .error _ => ∅

section

variable {d : JSuperOnDisk} {s : Snap}

/-- The blocks by which recovery reads further than `n_used`. -/
def extension (s : JSuperOnDisk) : ℕ := min (s.capacity - s.nUsed) kMaxUnaccountedBlocks

theorem extend_eq (hd : d.Geom) (hs : s.Inv d) : ∃ f, extendToUnaccountedRegion (ofDisk s.disk) =
      .ok ((ofDisk s.disk).enqueue (extension s.disk + f)) ∧ s.disk.nUsed + extension s.disk + f ≤ s.disk.capacity := by
  have hle : (ofDisk s.disk).size ≤ (ofDisk s.disk).capacity := by
    simp only [size, capacity, ofDisk_djsuper, hs.keeps.capacity]
    exact hs.le
  generalize hj : ofDisk s.disk = j at hle ⊢
  have hdj : j.djsuper = s.disk := by rw [← hj, ofDisk_djsuper]
  have hn : (if kMaxUnaccountedBlocks < u64Sub j.capacity j.size then kMaxUnaccountedBlocks
      else u64Sub j.capacity j.size) = extension s.disk := by
    rw [u64Sub_of_le hle, extension, capacity, size, hdj]
    split <;> omega
  have hb : j.Bounded (extension s.disk) := by
    have hsmall := hd.small
    have hcap := hs.keeps.capacity
    have hnUsed := hs.le
    have hhead := Nat.mod_lt s.enq hd.pos
    rw [← hs.head] at hhead
    refine ⟨?_, ?_, ?_⟩
    all_goals rw [hdj]
    · omega
    · omega
    · rw [extension]
      omega
  have hg : (j.acquireNextNSlots (extension s.disk)).1.Granted := by
    refine (JSuper.granted_iff hb.used).2 ⟨?_, ?_⟩
    · simp only [size, capacity, hdj] at hle
      rw [hdj, extension]
      omega
    · rw [← hj, JSuper.ofDisk_unaccounted]; decide
  have hf := JSuper.filler_le (j := j) (by rw [hdj]; exact hd.of_keeps hs.keeps) hb hg
  rw [hdj] at hf
  refine ⟨j.filler (extension s.disk), ?_, hf⟩
  unfold extendToUnaccountedRegion
  simp only [hn, hg.1, Bool.false_eq_true, if_false, (JSuper.acquire_granted hb hg).2]
  rfl

/-- Items of the stream that are neither released in the superblock nor more than
`kMaxUnaccountedBlocks` after it are in the region that recovery scans. -/
theorem subset_scanned (hd : d.Geom) (hs : s.Inv d) {p n : ℕ} (hp : s.deq ≤ p)
    (hn : p + n ≤ s.enq + kMaxUnaccountedBlocks) : window d.capacity p n ⊆ scanned s.disk := by
  obtain ⟨f, he, hf⟩ := extend_eq hd hs
  have hc := hs.keeps.capacity
  have hu := hs.used
  have hle := hs.le
  simp only [scanned, he, region, capacity, size, JSuper.enqueue_capacity,
    JSuper.enqueue_tail, JSuper.enqueue_nUsed, ofDisk_djsuper, hc, hs.tail, window_mod]
  rcases Nat.lt_or_ge kMaxUnaccountedBlocks (d.capacity - s.disk.nUsed) with hlt | hge
  · have hx : extension s.disk = kMaxUnaccountedBlocks := by rw [extension, hc]; omega
    exact window_subset hp (by omega)
  · have hx : extension s.disk = d.capacity - s.disk.nUsed := by rw [extension, hc]; omega
    rw [window_eq_range hd.pos (n := s.disk.nUsed + (extension s.disk + f)) (by omega)]
    exact window_subset_range hd.pos

end

/-! ## The slots granted after the durable superblock -/

/-- A request that is granted is within the hard watermark, its own blocks included, and what the
others add to the count of unaccounted blocks does not make it wrap. -/
def WithinWatermark (op : Op) (h : Hist) : Prop :=
  match op with
  | .acquire n => (h.js.acquireNextNSlots n).1.Granted →
    h.js.nblocksUnaccounted + n ≤ kMaxUnaccountedBlocks
  | op => Hist.NoWrap op h

instance (op : Op) (h : Hist) : Decidable (WithinWatermark op h) :=
  match op with
  | .acquire _ => inferInstanceAs (Decidable (_ → _))
  | .release k => inferInstanceAs (Decidable (Hist.NoWrap (.release k) h))
  | .setLastCheckpoint ts => inferInstanceAs (Decidable (Hist.NoWrap (.setLastCheckpoint ts) h))
  | .trySetWriteInProgress | .jsuperDurable | .onWriteComplete => inferInstanceAs (Decidable True)

theorem WithinWatermark.noWrap {op : Op} {h h' : Hist} (hw : WithinWatermark op h)
    (he : Hist.step op h = some h') : Hist.NoWrap op h := by
  cases op with
  | acquire n =>
    rcases Hist.step_cases he with ⟨m, hop, hm, -⟩ | ⟨k, hop, -⟩ | ⟨hop, -⟩ | ⟨p, hop, -⟩ | ⟨p, hop, -⟩ | ⟨ts, hop, -⟩
    · cases hop
      exact hm
    all_goals cases hop
  | _ => exact hw

/-- Every slot ends at most `kMaxUnaccountedBlocks` after the head of the durable
superblock. -/
def Covered (h : Hist) : Prop :=
  ∀ g ∈ h.grants, g.filler = false → g.stop ≤ h.durable.enq + kMaxUnaccountedBlocks

theorem Covered.step {d : JSuperOnDisk} {h h' : Hist} (hd : d.Geom) (hi : Inv d h) (ha : Accounted h)
    (hc : Covered h) {op : Op} (hw : WithinWatermark op h) (he : Hist.step op h = some h') : Covered h' := by
  -- The durable superblock only gets newer.
  have hnew : ∀ p, h.pending = some p → ∀ g ∈ h.grants, g.filler = false →
    g.stop ≤ p.snap.enq + kMaxUnaccountedBlocks := by
    intro p hp g hg hf
    have := (hi.writing p hp).2.2.2.1
    have := hc g hg hf
    omega
  rcases Hist.step_cases he with ⟨n, rfl, hn, rfl⟩ | ⟨k, -, -, rfl⟩ | ⟨-, rfl | ⟨-, rfl⟩⟩ | ⟨p, -, hp, rfl⟩ |
    ⟨p, -, hp, rfl⟩ | ⟨ts, -, rfl⟩
  · by_cases hg : (h.js.acquireNextNSlots n).1.Granted
    swap
    · rw [Hist.acquire_of_refused hg]; exact hc
    rw [Hist.acquire_of_granted (hi.bounded hd hn) hg]
    intro g hm hf
    rcases mem_cons.1 hm with rfl | hm
    · cases hf
    rcases mem_cons.1 hm with rfl | hm
    · have := hw hg
      have := ha.unaccounted
      simp only [Extent.stop, Hist.grant]
      omega
    · exact hc g hm hf
  · exact hc
  · exact hc
  · exact hc
  · exact hnew p hp
  · exact hnew p hp
  · exact hc

/-- The slots granted since the durable superblock was taken are within the
`kMaxUnaccountedBlocks` after its head. -/
def ScanWindowCovers (h : Hist) : Prop :=
  ∀ g ∈ h.grants, g.filler = false → h.durable.enq ≤ g.pos →
    window h.js.capacity g.startIdx g.len ⊆
      window h.js.capacity h.durable.disk.head kMaxUnaccountedBlocks

/-- In every run whose granted requests are within the hard watermark, a crash at any
time leaves a superblock from which recovery scans every slot granted after it was taken,
and every slot that was not released in it. -/
theorem scan_covers_unaccounted {d : JSuperOnDisk} (hd : EmptyJournal d) {ops : List Op} {h : Hist}
    (hr : run Hist.step ops (Hist.start d) = some h) (hw : Along Hist.step WithinWatermark ops (Hist.start d)) :
    ScanWindowCovers h ∧ ∀ g ∈ h.grants, g.filler = false → h.durable.deq ≤ g.pos →
      window h.js.capacity g.startIdx g.len ⊆ scanned h.durable.disk := by
  obtain ⟨hi, -, hcov⟩ := run_inv (I := fun h => Inv d h ∧ Accounted h ∧ Covered h)
    (fun op h h' hi hp he => ⟨hi.1.step hd.geom he, hi.2.1.step hd.geom hi.1 (hp.noWrap he) he,
      hi.2.2.step hd.geom hi.1 hi.2.1 hp he⟩) hr hw
    ⟨inv_start hd, accounted_start d, by simp [Covered, Hist.start]⟩
  have hc : h.js.capacity = d.capacity := hi.capacity
  refine ⟨fun g hg hf hpos => ?_, fun g hg hf hpos => ?_⟩
  · have := hcov g hg hf
    rw [hc, hi.idx g hg, hi.durable.1.head, window_mod, window_mod]
    exact window_subset hpos this
  · rw [hc, hi.idx g hg, window_mod]
    exact subset_scanned hd.geom hi.durable.1 hpos (hcov g hg hf)

/-- `scan_covers_unaccounted` on a run that crashes while the superblock is written: the
durable one is the first. -/
theorem scan_covers_unaccounted_smallJournal : ∃ h, run Hist.step
      [.acquire 32, .acquire 2, .trySetWriteInProgress, .acquire 20] (Hist.start smallJournal) = some h ∧
    h.durable.disk = smallJournal ∧ h.grants.length = 6 ∧ ScanWindowCovers h :=
  ⟨_, rfl, rfl, rfl, (@scan_covers_unaccounted smallJournal smallJournal_empty
    [.acquire 32, .acquire 2, .trySetWriteInProgress, .acquire 20] _ rfl (by decide)).1⟩

/-! ## Long runs

A journal that is filled from its start, far from its end: no filler and, below
the hard watermark, no refusal. -/

/-- `u` blocks of the empty journal `d` are in use, and `v` are unaccounted for. -/
structure Filled (d : JSuperOnDisk) (u v : ℕ) (h : Hist) : Prop where
  disk : h.js.djsuper = { d with nUsed := u, head := u }
  unaccounted : h.js.nblocksUnaccounted = v
  enq : h.enq = u

section

variable {d : JSuperOnDisk} {u v n : ℕ} {h : Hist}

theorem Filled.bounded (hd : d.Geom) (hf : Filled d u v h) (hroom : u + n + maxBlocks < d.capacity) :
    h.js.Bounded n := by
  have hsmall := hd.small
  refine ⟨?_, ?_, ?_⟩
  all_goals rw [hf.disk]
  · exact hsmall
  · dsimp only
    omega
  · dsimp only
    omega

theorem Filled.granted (hd : d.Geom) (hf : Filled d u v h) (hroom : u + n + maxBlocks < d.capacity)
    (hv : v < kMaxUnaccountedBlocks) : (h.js.acquireNextNSlots n).1.Granted := by
  rw [JSuper.granted_iff (hf.bounded hd hroom).used, hf.disk, hf.unaccounted]
  exact ⟨by simp only; omega, hv⟩

theorem Filled.acquire (hd : d.Geom) (hf : Filled d u v h) (hroom : u + n + maxBlocks < d.capacity)
    (hv : v < kMaxUnaccountedBlocks) :
    h.acquire n = { h.grant u n 0 with js := h.js.enqueue n } ∧ Filled d (u + n) (v + n) (h.acquire n) := by
  have hb := hf.bounded hd hroom
  have hg := hf.granted hd hroom hv
  have hfit := ((JSuper.granted_iff hb.used).1 hg).1
  have h0 : h.js.filler n = 0 := by
    rcases JSuper.filler_cases (j := h.js) (n := n)
      (by rw [hf.disk]; exact ⟨hd.region, hd.pos, hd.small⟩) hb hfit rfl with
      ⟨h0, -⟩ | ⟨-, hle, -⟩
    · exact h0
    · rw [hf.disk] at hle
      simp only at hle
      rw [Nat.mod_eq_of_lt (by omega)] at hle
      omega
  have he : h.acquire n = { h.grant u n 0 with js := h.js.enqueue n } := by
    rw [Hist.acquire_of_granted hb hg, h0, hf.disk, Nat.add_zero]
  refine ⟨he, ?_⟩
  rw [he]
  refine ⟨?_, ?_, ?_⟩
  · simp only [JSuper.enqueue, hf.disk]
    rw [Nat.mod_eq_of_lt (by omega)]
  · simp only [JSuper.enqueue_unaccounted, hf.unaccounted]
  · simp only [Hist.grant, hf.enq, Nat.add_zero]

theorem Filled.run_acquires (hd : d.Geom) (m : ℕ) {u v : ℕ} {h : Hist} (hf : Filled d u v h)
    (hroom : u + m * n + maxBlocks < d.capacity) (hv : m = 0 ∨ v + (m - 1) * n < kMaxUnaccountedBlocks) :
    ∃ h', run Hist.step (List.replicate m (.acquire n)) h = some h' ∧ Filled d (u + m * n) (v + m * n) h' ∧
      h'.durable = h.durable ∧
      h'.js.writeInProgress = h.js.writeInProgress := by
  induction m generalizing u v h with
  | zero => exact ⟨h, rfl, by simpa using hf, rfl, rfl⟩
  | succ m ih =>
    have hm : (m + 1) * n = m * n + n := Nat.succ_mul m n
    have hv' : v + m * n < kMaxUnaccountedBlocks := by simpa using hv
    obtain ⟨he, hf'⟩ := hf.acquire hd (n := n) (by omega) (by omega)
    have hlast : m = 0 ∨ v + n + (m - 1) * n < kMaxUnaccountedBlocks := by
      rcases Nat.eq_zero_or_pos m with h0 | h0
      · exact .inl h0
      · have := Nat.succ_mul (m - 1) n
        rw [Nat.succ_eq_add_one, Nat.sub_add_cancel h0] at this
        exact .inr (by omega)
    obtain ⟨h', hr, hf'', hdur, hwip⟩ := ih hf' (by omega) hlast
    refine ⟨h', ?_, ?_, ?_, ?_⟩
    · rw [replicate_succ, run_cons, Hist.step_acquire (hf.bounded hd (by omega)).used]; exact hr
    · rw [hm, Nat.add_comm (m * n) n, ← Nat.add_assoc, ← Nat.add_assoc]; exact hf''
    · rw [hdur, he]; rfl
    · rw [hwip, he]; rfl

theorem Filled.startWrite (hf : Filled d u v h) : Filled d u v h.startWrite :=
  ⟨hf.disk, hf.unaccounted, hf.enq⟩

theorem Filled.run_write (hf : Filled d u v h) (hw : h.js.writeInProgress = false) :
    ∃ h', run Hist.step [.trySetWriteInProgress, .onWriteComplete] h = some h' ∧ Filled d u 0 h' ∧
      h'.js.writeInProgress = false := by
  refine ⟨h.startWrite.endWrite ⟨h.snap, h.js.nblocksUnaccounted⟩, ?_, ⟨hf.disk, ?_, hf.enq⟩, rfl⟩
  · rw [run_cons, Hist.step_startWrite hw, Option.bind_some, run_cons, Hist.step_endWrite rfl]
    rfl
  · exact (u64Sub_of_le (Nat.le_refl _)).trans (Nat.sub_self _)

end

/-- The requests of a run that a crash cuts short: 1281 entries of 32 blocks reach the soft
watermark and start a superblock write, and 320 more are granted before it completes. -/
def lateOps : List Op :=
  List.replicate 1281 (.acquire 32) ++ .trySetWriteInProgress :: (List.replicate 318 (.acquire 32) ++
    [.acquire 31, .acquire 32])

theorem lateOps_asks : ∀ op ∈ lateOps, op.Asks := by
  intro op hop
  simp only [lateOps, mem_append, mem_cons, mem_replicate, not_mem_nil, or_false] at hop
  rcases hop with ⟨-, rfl⟩ | rfl | ⟨-, rfl⟩ | rfl | rfl <;> decide

theorem globalJSuper_empty : EmptyJournal (globalJSuper 0) :=
  ⟨⟨by decide, by decide, by decide⟩, rfl, rfl, by decide⟩

/-- The last slot of `lateOps` starts at block 51199 after the head of the durable
superblock and takes 32 blocks, all but one of them past what recovery scans. -/
theorem scan_misses_slot : ∃ h, (∀ op ∈ lateOps, op.Asks) ∧
    run Hist.step lateOps (Hist.start (globalJSuper 0)) = some h ∧ ¬ ScanWindowCovers h := by
  have hgeom := globalJSuper_empty.geom
  have hstart : Filled (globalJSuper 0) 0 0 (Hist.start (globalJSuper 0)) := ⟨rfl, rfl, rfl⟩
  obtain ⟨h₁, hr₁, hf₁, hd₁, hw₁⟩ := hstart.run_acquires hgeom 1281 (n := 32) (by decide) (by decide)
  have hf₁' : Filled (globalJSuper 0) (1281 * 32) (1281 * 32) h₁.startWrite := by simpa using hf₁.startWrite
  obtain ⟨h₃, hr₃, hf₃, hd₃, -⟩ := hf₁'.run_acquires hgeom 318 (n := 32) (by decide) (by decide)
  obtain ⟨he₄, hf₄⟩ := hf₃.acquire hgeom (n := 31) (by decide) (by decide)
  obtain ⟨he₅, -⟩ := hf₄.acquire hgeom (n := 32) (by decide) (by decide)
  refine ⟨(h₃.acquire 31).acquire 32, lateOps_asks, ?_, fun hcov => ?_⟩
  · rw [lateOps, run_append, hr₁, Option.bind_some, run_cons, Hist.step_startWrite hw₁, Option.bind_some,
      run_append, hr₃, Option.bind_some, run_cons,
      Hist.step_acquire (hf₃.bounded hgeom (by decide)).used, Option.bind_some, run_cons,
      Hist.step_acquire (hf₄.bounded hgeom (by decide)).used]
    rfl
  have hdur : ((h₃.acquire 31).acquire 32).durable = (Hist.start (globalJSuper 0)).durable := by
    rw [he₅, he₄, ← hd₁]; exact hd₃
  have hcap : ((h₃.acquire 31).acquire 32).js.capacity = 10485759 := by
    rw [JSuper.capacity, (hf₄.acquire hgeom (n := 32) (by decide) (by decide)).2.disk]; rfl
  have hg := hcov ⟨⟨(h₃.acquire 31).enq, 32⟩, 51199, false⟩ (by rw [he₅]; simp [Hist.grant]) rfl
    (by rw [hdur, hf₄.enq]; decide)
  rw [hcap, hdur] at hg
  -- Block 51200 of the ring is in the slot, and not among the blocks scanned.
  have hin : 51200 ∈ window 10485759 51199 32 := mem_window.mpr ⟨1, by decide, rfl⟩
  obtain ⟨i, hi, hx⟩ := mem_window.mp (hg hin)
  have h0 : (Hist.start (globalJSuper 0)).durable.disk.head = 0 := rfl
  have hk : kMaxUnaccountedBlocks = 51200 := rfl
  rw [h0, Nat.zero_add, Nat.mod_eq_of_lt (by omega)] at hx
  omega

/-! ## The superblocks that recovery accepts -/

/-- Recovery accepts the superblock `s` of block `sb`, and the region it scans is no larger
than the ring and does not overlap itself. -/
def Accepted (sb : ℕ) (s : JSuperOnDisk) : Prop :=
  validateJSuper sb (JSuper.ofDisk s) = .ok () ∧
    ∃ j, extendToUnaccountedRegion (JSuper.ofDisk s) = .ok j ∧ j.size ≤ j.capacity ∧ (region j).card = j.size

/-- The superblocks that the server, and the checkpointer once the journal is empty, write in
the state `h`. -/
def Written (h : Hist) (s : JSuperOnDisk) : Prop :=
  s = h.js.djsuper ∨ ∃ now, s = writeEmptyJSuper now h.js

theorem validateJSuper_eq_ok {sb : ℕ} {j : JSuper} : validateJSuper sb j = .ok () ↔
    j.djsuper.jmagic = jsuperMagic ∧ sb = j.djsuper.jsuperBlockno ∧
      u64Add j.djsuper.nUsed kMaxUnaccountedBlocks < j.djsuper.capacity := by
  unfold validateJSuper
  by_cases h1 : j.djsuper.jmagic = jsuperMagic
  swap
  · simp [h1, throw, throwThe, MonadExceptOf.throw]
  by_cases h2 : sb = j.djsuper.jsuperBlockno
  swap
  · simp [h1, h2, throw, throwThe, MonadExceptOf.throw]
  by_cases h3 : j.djsuper.capacity ≤ u64Add j.djsuper.nUsed kMaxUnaccountedBlocks
  · simp [h1, h2, h3, throw, throwThe, MonadExceptOf.throw]
  · simp [h1, h2, h3, Nat.lt_of_not_le h3, pure, Except.pure]

theorem Written.exists_snap {d : JSuperOnDisk} {h : Hist} (hd : d.Geom) (hi : Inv d h) {s : JSuperOnDisk}
    (hs : Written h s) : ∃ q : Snap, q.disk = s ∧ q.Inv d := by
  rcases hs with rfl | ⟨now, rfl⟩
  · exact ⟨h.snap, rfl, hi.snap⟩
  · have hk := hi.snap.keeps
    refine ⟨⟨_, 0, 0⟩, rfl, ⟨hk.jmagic, hk.jsuperBlockno, hk.jstartBlockno, hk.jendBlockno, hk.capacity⟩, ?_, ?_,
      rfl, Nat.zero_le _⟩ <;>
    exact (Nat.mod_eq_of_lt hd.pos).symm

/-- Recovery accepts a superblock that is written in a reachable state if and only if it
leaves more than `kMaxUnaccountedBlocks` blocks of the ring free. -/
theorem recovery_accepts_iff {d : JSuperOnDisk} (hd : EmptyJournal d) (hm : d.jmagic = jsuperMagic)
    {ops : List Op} {h : Hist} (hr : run Hist.step ops (Hist.start d) = some h) {s : JSuperOnDisk} (hs : Written h s) :
    Accepted d.jsuperBlockno s ↔ s.nUsed + kMaxUnaccountedBlocks < s.capacity := by
  have hi := reachable_inv hd hr
  obtain ⟨q, rfl, hq⟩ := hs.exists_snap hd.geom hi
  have hk := hq.keeps
  have hsum : u64Add q.disk.nUsed kMaxUnaccountedBlocks = q.disk.nUsed + kMaxUnaccountedBlocks := by
    have hle := hq.le
    have hsmall := hd.geom.small
    have hwater : kMaxUnaccountedBlocks = 51200 := rfl
    exact u64Add_of_lt (by omega)
  constructor
  · intro ha
    exact lt_of_eq_of_lt hsum.symm (validateJSuper_eq_ok.mp ha.1).2.2
  · intro hfree
    obtain ⟨f, he, hf⟩ := extend_eq hd.geom hq
    have hfree' : u64Add q.disk.nUsed kMaxUnaccountedBlocks < q.disk.capacity := lt_of_eq_of_lt hsum hfree
    refine ⟨validateJSuper_eq_ok.mpr ⟨hk.jmagic.trans hm, hk.jsuperBlockno.symm, hfree'⟩, _, he, ?_, ?_⟩
    · simp only [JSuper.size, JSuper.capacity, JSuper.enqueue_nUsed, JSuper.enqueue_capacity,
        JSuper.ofDisk_djsuper]
      omega
    · refine card_window ?_
      simp only [JSuper.size, JSuper.capacity, JSuper.enqueue_nUsed, JSuper.enqueue_capacity,
        JSuper.ofDisk_djsuper]
      omega

/-- The journal of `mkfs` after an entry: its superblock, and the empty one, are accepted. -/
theorem recovery_accepts_globalJSuper : ∃ h, run Hist.step [.acquire 32] (Hist.start (globalJSuper 0)) = some h ∧
    Accepted (globalJSuper 0).jsuperBlockno h.js.djsuper ∧ Accepted (globalJSuper 0).jsuperBlockno
      (writeEmptyJSuper 9 h.js) :=
  ⟨_, rfl, (@recovery_accepts_iff _ globalJSuper_empty rfl [.acquire 32] _ rfl _ (.inl rfl)).mpr (by decide),
    (@recovery_accepts_iff _ globalJSuper_empty rfl [.acquire 32] _ rfl _ (.inr ⟨9, rfl⟩)).mpr (by decide)⟩

/-- One entry of 32 blocks, and a write of the superblock that completes. -/
def entryAndWrite : List Op := [.acquire 32, .trySetWriteInProgress, .onWriteComplete]

theorem Filled.run_entries {d : JSuperOnDisk} (hd : d.Geom) (m : ℕ) {u : ℕ} {h : Hist} (hf : Filled d u 0 h)
    (hw : h.js.writeInProgress = false) (hroom : u + m * 32 + maxBlocks < d.capacity) :
    ∃ h', run Hist.step (List.replicate m entryAndWrite).flatten h = some h' ∧ Filled d (u + m * 32) 0 h' ∧
      h'.js.writeInProgress = false := by
  induction m generalizing u h with
  | zero => exact ⟨h, rfl, hf, hw⟩
  | succ m ih =>
    obtain ⟨he, hf1⟩ := hf.acquire hd (n := 32) (by omega) (by decide)
    obtain ⟨h2, hr2, hf2, hw2⟩ := hf1.run_write (by rw [he]; exact hw)
    obtain ⟨h', hr', hf', hw'⟩ := ih hf2 hw2 (by omega)
    refine ⟨h', ?_, ?_, hw'⟩
    · rw [replicate_succ, flatten_cons, run_append, entryAndWrite, run_cons,
        Hist.step_acquire (hf.bounded hd (by omega)).used, Option.bind_some, hr2, Option.bind_some]
      exact hr'
    · rw [show u + (m + 1) * 32 = u + 32 + m * 32 by omega]; exact hf'

/-- The server goes on granting slots when fewer than `kMaxUnaccountedBlocks` blocks are free:
recovery rejects the superblock it writes then. -/
theorem recovery_rejects : ∃ ops h, (∀ op ∈ ops, op.Asks) ∧
    run Hist.step ops (Hist.start (globalJSuper 0)) = some h ∧ h.js.writeInProgress = false ∧
    Written h h.js.djsuper ∧ ¬ Accepted (globalJSuper 0).jsuperBlockno h.js.djsuper := by
  have hstart : Filled (globalJSuper 0) 0 0 (Hist.start (globalJSuper 0)) := ⟨rfl, rfl, rfl⟩
  have hasks : ∀ op ∈ entryAndWrite, op.Asks := by decide
  obtain ⟨h, hr, hf, hw⟩ := hstart.run_entries globalJSuper_empty.geom 326080 rfl (by decide)
  refine ⟨_, h, ?_, hr, hw, .inl rfl, fun ha => ?_⟩
  · intro op hop
    obtain ⟨l, hl, hop⟩ := List.mem_flatten.mp hop
    rw [List.eq_of_mem_replicate hl] at hop
    exact hasks op hop
  · have := (validateJSuper_eq_ok.mp ha.1).2.2
    rw [JSuper.ofDisk_djsuper, hf.disk] at this
    revert this
    decide

end Ufs.Proof.Journal
