import Ufs.Proof.Journal.Recovery
import Ufs.Proof.Recovery.Header

/-!
# The scan of the journal, without its buffer

Where the scan is depends on the superblock only, whose tail moves as blocks are
consumed. A read from there gives the blocks up to the end of the buffer, of the
region or of the ring, whichever is first (`window`, `ahead`, `fillDevBuffer_eq`),
and `found` is what is at the cursor then. With fewer blocks in the buffer the
iterator finds the same, or reads again (`atCursor_prefix_eq`).
-/

namespace Ufs.Proof.Recovery

open Impl JournalIterator Journal
open JSuper (idxToBlockNo ofDisk size)
open List

/-! ## The blocks ahead -/

/-- What is left of the region is inside the ring, and reading on to `jendBlockno` is reading on to
the end of the ring, if the region goes past it. The ring is so small that its indices do not wrap. -/
structure InRing (j : JSuper) : Prop where
  pos : 0 < j.djsuper.capacity
  small : j.djsuper.capacity < 2 ^ 62
  tail : j.djsuper.tail < 2 ^ 62
  le : j.djsuper.nUsed ≤ j.djsuper.capacity
  ends : j.djsuper.tail % j.djsuper.capacity + j.djsuper.nUsed ≤ j.djsuper.capacity ∨
    j.djsuper.jendBlockno + 1 = j.djsuper.jstartBlockno + j.djsuper.capacity

/-- The blocks between the cursor and the end of the ring. -/
def tillEnd (j : JSuper) : ℕ := j.djsuper.capacity - j.djsuper.tail % j.djsuper.capacity

/-- The blocks that a read of at most `B` blocks from the tail gives. -/
def window (B : ℕ) (j : JSuper) : ℕ := min (min B j.djsuper.nUsed) (tillEnd j)

/-- `n` blocks from the tail, up to the end of the ring. -/
def straight (dev : Device) (j : JSuper) (n : ℕ) : List Block :=
  (List.range n).map fun i => dev (j.idxToBlockNo j.djsuper.tail + i)

/-- The blocks that a refill reads. -/
def ahead (dev : Device) (B : ℕ) (j : JSuper) : List Block := straight dev j (window B j)

/-- What the buffer has behind the entry at the tail. -/
def behindAt (dev : Device) (j : JSuper) : List UInt8 :=
  dev.behind (j.idxToBlockNo j.djsuper.tail)

/-- What is at the cursor when all that a read gives is in the buffer. -/
def found (dev : Device) (B : ℕ) (j : JSuper) : AtCursor :=
  atCursor j.getLastCheckpoint (behindAt dev j) (ahead dev B j)

@[simp] theorem length_straight (dev : Device) (j : JSuper) (n : ℕ) : (straight dev j n).length = n := by
  simp [straight]

theorem straight_prefix_of_le (dev : Device) (j : JSuper) {n m : ℕ} (h : n ≤ m) :
    straight dev j n <+: straight dev j m := by
  obtain ⟨d, rfl⟩ := Nat.exists_eq_add_of_le h
  unfold straight
  rw [range_add, map_append]
  exact prefix_append _ _

/-- The block at the cursor. -/
def blockAt (dev : Device) (j : JSuper) : Block := dev (j.idxToBlockNo j.djsuper.tail)

theorem straight_cons (dev : Device) (j : JSuper) {n : ℕ} (h : 0 < n) :
    ∃ bs, straight dev j n = blockAt dev j :: bs := by
  obtain ⟨n, rfl⟩ := Nat.exists_eq_succ_of_ne_zero h.ne'
  unfold straight
  rw [range_succ_eq_map, map_cons]
  exact ⟨_, rfl⟩

theorem straight_take (dev : Device) (j : JSuper) {n k : ℕ} (h : k ≤ n) :
    (straight dev j n).take k = straight dev j k := by
  have hp := prefix_iff_eq_take.1 (straight_prefix_of_le dev j h)
  rwa [length_straight, eq_comm] at hp

section

variable {j : JSuper} {k : ℕ}

@[simp] theorem release_nUsed (h : k ≤ j.djsuper.nUsed) : (j.releaseFirstNSlots k).djsuper.nUsed =
    j.djsuper.nUsed - k := u64Sub_of_le h

theorem release_tail (h : InRing j) (hk : k ≤ j.djsuper.capacity) :
    (j.releaseFirstNSlots k).djsuper.tail = (j.djsuper.tail + k) % j.djsuper.capacity := by
  have hsmall := h.small
  have htail := h.tail
  show u64Add j.djsuper.tail k % j.djsuper.capacity = _
  rw [u64Add_of_lt (by omega)]

theorem release_capacity : (j.releaseFirstNSlots k).djsuper.capacity = j.djsuper.capacity := rfl

theorem release_tail_mod (h : InRing j) (hk : k ≤ tillEnd j) :
    (j.releaseFirstNSlots k).djsuper.tail % j.djsuper.capacity =
      if k = tillEnd j then 0 else j.djsuper.tail % j.djsuper.capacity + k := by
  have hlt := Nat.mod_lt j.djsuper.tail h.pos
  unfold tillEnd at hk ⊢
  rw [release_tail h (by omega), Nat.mod_mod, ← Nat.mod_add_mod]
  split
  · rename_i he
    rw [show j.djsuper.tail % j.djsuper.capacity + k = j.djsuper.capacity by omega, Nat.mod_self]
  · exact Nat.mod_eq_of_lt (by omega)

theorem InRing.release (h : InRing j) (hk : k ≤ j.djsuper.nUsed) (hk' : k ≤ tillEnd j) :
    InRing (j.releaseFirstNSlots k) := by
  have hle := h.le
  refine ⟨h.pos, h.small, ?_, ?_, ?_⟩
  · rw [release_tail h (hk.trans hle)]
    exact (Nat.mod_lt _ h.pos).trans h.small
  · rw [release_nUsed hk, release_capacity]
    omega
  · rw [release_nUsed hk, release_capacity, release_tail_mod h hk']
    refine h.ends.imp (fun he => ?_) id
    unfold tillEnd at hk' ⊢
    split <;> omega

theorem window_le (B : ℕ) (j : JSuper) : window B j ≤ B ∧ window B j ≤ j.djsuper.nUsed ∧ window B j ≤ tillEnd j := by
  unfold window
  omega

theorem window_pos {B : ℕ} (h : InRing j) (hB : 0 < B) (hn : j.djsuper.nUsed ≠ 0) : 0 < window B j := by
  have := Nat.mod_lt j.djsuper.tail h.pos
  unfold window tillEnd
  omega

theorem pos_of_maxBlocks_le {B : ℕ} (h : maxBlocks ≤ B) : 0 < B := Nat.lt_of_lt_of_le (by decide) h

theorem straight_drop (dev : Device) {n : ℕ} (h : InRing j) (hk : k ≤ n) (hn : n ≤ tillEnd j) :
    (straight dev j n).drop k = straight dev (j.releaseFirstNSlots k) (n - k) := by
  rcases Nat.eq_or_lt_of_le hk with rfl | hlt
  · simp [straight]
  · apply ext_getElem
    · simp
    · intro i _ _
      have ht : (j.releaseFirstNSlots k).djsuper.tail % j.djsuper.capacity =
        j.djsuper.tail % j.djsuper.capacity + k := by
        rw [release_tail_mod h (by omega), if_neg (by omega)]
      simp only [straight, getElem_drop, getElem_map, getElem_range, idxToBlockNo, release_capacity, ht]
      show dev (j.djsuper.jstartBlockno + j.djsuper.tail % j.djsuper.capacity + (k + i)) =
        dev (j.djsuper.jstartBlockno + (j.djsuper.tail % j.djsuper.capacity + k) + i)
      congr 1
      omega

theorem tillEnd_release {n : ℕ} (h : InRing j) (hk : k ≤ n) (hn : n ≤ tillEnd j) :
    n - k ≤ tillEnd (j.releaseFirstNSlots k) := by
  unfold tillEnd
  rw [release_capacity, release_tail_mod h (by omega)]
  unfold tillEnd at hn ⊢
  split <;> omega

theorem window_release {B n : ℕ} (h : InRing j) (hk : k ≤ n) (hn : n ≤ window B j) :
    n - k ≤ window B (j.releaseFirstNSlots k) := by
  obtain ⟨hB, hu, he⟩ := window_le B j
  have hend := tillEnd_release h hk (hn.trans he)
  unfold window
  rw [release_nUsed (by omega)]
  omega

end

/-! ## The region of recovery -/

/-- The region that recovery scans when it accepts the superblock `dj`. -/
def extended (dj : JSuperOnDisk) : JSuper :=
  (JSuper.ofDisk dj).enqueue (kMaxUnaccountedBlocks + (JSuper.ofDisk dj).filler kMaxUnaccountedBlocks)

theorem extended_keeps (dj : JSuperOnDisk) : dj.Keeps (extended dj).djsuper :=
  (ofDisk dj).enqueue_keeps _

theorem extended_getLastCheckpoint (dj : JSuperOnDisk) : (extended dj).getLastCheckpoint = dj.lastChkptTs := by
  rw [JSuper.getLastCheckpoint, extended, JSuper.enqueue_lastChkptTs, JSuper.ofDisk_djsuper]

/-- The superblock has the counters of a ring that is so small that they do not wrap. -/
structure Small (dj : JSuperOnDisk) : Prop where
  capacity : dj.capacity < 2 ^ 62
  head : dj.head < 2 ^ 62
  tail : dj.tail < 2 ^ 62
  nUsed : dj.nUsed < 2 ^ 62

theorem Small.bounded {dj : JSuperOnDisk} (h : Small dj) : (ofDisk dj).Bounded kMaxUnaccountedBlocks := by
  have hused := h.nUsed
  have hwater : kMaxUnaccountedBlocks = 51200 := rfl
  refine ⟨h.capacity, h.head, ?_⟩
  rw [JSuper.ofDisk_djsuper]
  omega

theorem Small.free_of_accepted {sb : ℕ} {dj : JSuperOnDisk} (hs : Small dj)
    (h : validateJSuper sb (ofDisk dj) = .ok ()) :
    dj.nUsed + kMaxUnaccountedBlocks < dj.capacity :=
  lt_of_eq_of_lt (u64Add_of_lt hs.bounded.used).symm (validateJSuper_eq_ok.1 h).2.2

/-- What is asked of the superblock that recovery starts from. -/
structure Scannable (dj : JSuperOnDisk) : Prop extends Small dj where
  inRing : InRing (extended dj)

theorem extend_of_accepted {sb : ℕ} {dj : JSuperOnDisk} (hs : Small dj) (h : validateJSuper sb (ofDisk dj) = .ok ()) :
    extendToUnaccountedRegion (ofDisk dj) = .ok (extended dj) ∧ (extended dj).djsuper.nUsed ≠ 0 := by
  have hfree := hs.free_of_accepted h
  have hle : (ofDisk dj).size ≤ (ofDisk dj).capacity := by
    show dj.nUsed ≤ dj.capacity
    omega
  have hgrant : ((ofDisk dj).acquireNextNSlots kMaxUnaccountedBlocks).1.Granted :=
    (JSuper.granted_iff hs.bounded.used).2 ⟨hfree.le, show 0 < kMaxUnaccountedBlocks by decide⟩
  have hn : (if kMaxUnaccountedBlocks < u64Sub (ofDisk dj).capacity (ofDisk dj).size then
      kMaxUnaccountedBlocks else u64Sub (ofDisk dj).capacity (ofDisk dj).size) = kMaxUnaccountedBlocks := by
    rw [u64Sub_of_le hle]
    apply if_pos
    show kMaxUnaccountedBlocks < dj.capacity - dj.nUsed
    omega
  constructor
  · unfold extendToUnaccountedRegion
    simp only [hn, hgrant.1, Bool.false_eq_true, if_false, (JSuper.acquire_granted hs.bounded hgrant).2]
    rfl
  · show dj.nUsed + (kMaxUnaccountedBlocks + _) ≠ 0
    have : 0 < kMaxUnaccountedBlocks := by decide
    omega

theorem scannable_of_accepted {sb : ℕ} {dj : JSuperOnDisk} (hg : dj.Geom) (hs : Small dj)
    (hv : validateJSuper sb (ofDisk dj) = .ok ()) : Scannable dj := by
  have hfree := hs.free_of_accepted hv
  have hle := JSuper.filler_le (j := ofDisk dj) (n := kMaxUnaccountedBlocks) hg hs.bounded
    ((JSuper.granted_iff hs.bounded.used).2 ⟨hfree.le, show 0 < kMaxUnaccountedBlocks by decide⟩)
  have hg' := hg.of_keeps (extended_keeps dj)
  have htail : (extended dj).djsuper.tail = dj.tail := by
    rw [extended, JSuper.enqueue_tail, JSuper.ofDisk_djsuper]
  refine ⟨hs, ⟨hg'.pos, hg'.small, ?_, ?_, .inr hg'.region⟩⟩
  · rw [htail]
    exact hs.tail
  · rw [(extended_keeps dj).capacity, extended, JSuper.enqueue_nUsed, ← Nat.add_assoc]
    exact hle

theorem globalJSuper_accepted (ts : ℕ) : validateJSuper (globalJSuper 0).jsuperBlockno (ofDisk (globalJSuper ts)) =
    .ok () := by
  refine validateJSuper_eq_ok.2 ⟨rfl, rfl, ?_⟩
  have hused : (ofDisk (globalJSuper ts)).djsuper.nUsed = 0 := rfl
  have hcap : (ofDisk (globalJSuper ts)).djsuper.capacity = (globalJSuper 0).capacity := rfl
  rw [hused, hcap]
  decide +kernel

theorem scannable_globalJSuper (ts : ℕ) : Scannable (globalJSuper ts) :=
  scannable_of_accepted ⟨globalJSuper_empty.geom.region, globalJSuper_empty.geom.pos, globalJSuper_empty.geom.small⟩
    ⟨globalJSuper_empty.geom.small, show 0 < 2 ^ 62 by decide, show 0 < 2 ^ 62 by decide, show 0 < 2 ^ 62 by decide⟩
    (globalJSuper_accepted ts)

/-- A journal of `mkfs` with the blocks `bs` at its start and zeros after them, which is what a buffer of
32 blocks has behind `bs`. -/
def journalOf (bs : List Block) : Device where
  block n :=
    if (globalJSuper 0).jstartBlockno ≤ n then bs.getD (n - (globalJSuper 0).jstartBlockno) (padded []) else padded []
  behind _ := List.replicate ((32 - bs.length) * bsize) 0

theorem journalOf_add (bs : List Block) (i : ℕ) : journalOf bs ((globalJSuper 0).jstartBlockno + i) = bs.getD i
    (padded []) := by
  show (if _ then _ else _) = _
  rw [if_pos (Nat.le_add_right _ _), Nat.add_sub_cancel_left]

theorem journalOf_of_le {bs : List Block} {i : ℕ} (h : bs.length ≤ i) :
    journalOf bs ((globalJSuper 0).jstartBlockno + i) = padded [] := by
  rw [journalOf_add]
  exact getD_eq_default _ _ h

/-! ## The iterator -/

/-- The cursor is in the ring, and the buffer has blocks from the cursor on. -/
structure Good (dev : Device) (it : JournalIterator) : Prop where
  inRing : InRing it.jsuper
  buffered : ∃ n ≤ window it.devBufBlocks it.jsuper, it.devBuf = straight dev it.jsuper n

/-- The buffer is as a refill leaves it. -/
def Full (dev : Device) (it : JournalIterator) : Prop := it.devBuf = ahead dev it.devBufBlocks it.jsuper

theorem blocksToRead_eq {it : JournalIterator} (h : InRing it.jsuper) (hn : min it.devBufBlocks it.jsuper.size ≠ 0) :
    it.blocksToRead = window it.devBufBlocks it.jsuper := by
  have hlt := Nat.mod_lt it.jsuper.djsuper.tail h.pos
  have hle := h.le
  have hends := h.ends
  have hsmall := h.small
  have htail := h.tail
  unfold size at hn
  unfold blocksToRead window tillEnd idxToBlockNo
  dsimp only
  generalize hb : min it.devBufBlocks it.jsuper.djsuper.nUsed = b at hn ⊢
  have hb' : b ≤ it.jsuper.djsuper.nUsed := hb ▸ Nat.min_le_right _ _
  generalize it.jsuper.djsuper.nUsed = u, it.jsuper.djsuper.capacity = c, it.jsuper.djsuper.tail = t,
    it.jsuper.djsuper.jstartBlockno = p, it.jsuper.djsuper.jendBlockno = q at hlt hle hends hb' hsmall htail ⊢
  rw [u64Add_of_lt (a := t) (by omega)]
  -- The last block is on the same lap as the first one, or on the next one.
  have hend : u64Sub (t + b) 1 % c = if t % c + b ≤ c then t % c + b - 1 else t % c + b - 1 - c := by
    rw [u64Sub_of_le (by omega), Nat.add_sub_assoc (by omega), ← Nat.mod_add_mod]
    split
    · rw [Nat.mod_eq_of_lt (by omega)]
      omega
    · rw [Nat.mod_eq_sub_mod (by omega), Nat.mod_eq_of_lt (by omega)]
      omega
  rw [hend]
  by_cases hw : t % c + b ≤ c
  · rw [if_pos hw, if_neg (by omega), u64Sub_of_le (by omega)]
    omega
  · rw [if_neg hw, if_pos (by omega), u64Sub_of_le (by omega)]
    omega

theorem fillDevBuffer_eq (dev : Device) (it : JournalIterator) (h : InRing it.jsuper) (hB : 0 < it.devBufBlocks)
    (hn : it.jsuper.djsuper.nUsed ≠ 0) : it.fillDevBuffer dev = { it with
        devBuf := ahead dev it.devBufBlocks it.jsuper
        pendingIO := true
        refills := it.jsuper.djsuper.nUsed :: it.refills } := by
  have hmin : min it.devBufBlocks it.jsuper.size ≠ 0 := by
    unfold size
    omega
  unfold fillDevBuffer
  rw [if_neg hmin, blocksToRead_eq h hmin]
  rfl

theorem atCursor_prefix_eq {last : ℕ} {behind : List UInt8} {p q : List Block} (h : p <+: q) :
    atCursor last behind p = .refill ∨ atCursor last behind p = atCursor last behind q := by
  obtain ⟨r, rfl⟩ := h
  cases p with
  | nil => exact .inl rfl
  | cons block p =>
    simp only [cons_append, atCursor]
    cases JournalEntry.new.parseJournalEntryHeader block.1 with
    | error => exact .inr rfl
    | ok r' =>
      dsimp only
      by_cases hv : !isJournalHeaderValid last r'.1
      · rw [if_pos hv, if_pos hv]
        exact .inr rfl
      rw [if_neg hv, if_neg hv]
      by_cases hle : (block :: p).length < r'.1.nblocks.toNat
      · exact .inl (if_pos hle)
      · refine .inr ?_
        rw [if_neg hle, if_neg (by rw [← cons_append, length_append]; omega), ← cons_append,
          take_append_of_le_length (by omega)]

/-- The blocks that are consumed at once are in the buffer. -/
def AtCursor.Within (n : ℕ) : AtCursor → Prop
  | .skip k | .entry _ k => 1 ≤ k ∧ k ≤ n
  | .refill | .terminate | .outOfBounds => True

theorem readEntry_within {k n : ℕ} (h : k ≤ n) (buf : List UInt8) : AtCursor.Within n (readEntry k buf) := by
  rcases Nat.eq_zero_or_pos k with rfl | hk
  · trivial
  · unfold readEntry
    dsimp only
    split
    · trivial
    · trivial
    · split
      · trivial
      · exact ⟨hk, h⟩
      · split
        · trivial
        · exact ⟨hk, h⟩
        · exact ⟨hk, h⟩

theorem atCursor_within (last : ℕ) (behind : List UInt8) (devBuf : List Block) :
    AtCursor.Within devBuf.length (atCursor last behind devBuf) := by
  unfold atCursor
  split
  · trivial
  · split
    · trivial
    · split
      · exact ⟨Nat.le_refl _, by rw [length_cons]; omega⟩
      · split
        · trivial
        · exact readEntry_within (by omega) _

theorem found_within (dev : Device) (B : ℕ) (j : JSuper) : AtCursor.Within (window B j) (found dev B j) := by
  have h := atCursor_within j.getLastCheckpoint (behindAt dev j) (ahead dev B j)
  rwa [ahead, length_straight] at h

section

variable {dev : Device} {it : JournalIterator} {k : ℕ}

theorem Good.cursor_eq (h : Good dev it) :
    it.cursor dev = .refill ∨ it.cursor dev = found dev it.devBufBlocks it.jsuper := by
  obtain ⟨n, hn, hbuf⟩ := h.buffered
  unfold cursor
  rw [hbuf]
  exact atCursor_prefix_eq (straight_prefix_of_le dev it.jsuper hn)

theorem Full.cursor_eq (h : Full dev it) : it.cursor dev = found dev it.devBufBlocks it.jsuper := by
  unfold cursor
  rw [h]
  rfl

theorem Good.consume (h : Good dev it) (hk : k ≤ it.devBuf.length) : Good dev (it.consume k) := by
  obtain ⟨n, hn, hbuf⟩ := h.buffered
  rw [hbuf, length_straight] at hk
  obtain ⟨hB, hu, he⟩ := window_le it.devBufBlocks it.jsuper
  refine ⟨h.inRing.release (by omega) (by omega), n - k, window_release h.inRing hk hn, ?_⟩
  show it.devBuf.drop k = _
  rw [hbuf, straight_drop dev h.inRing hk (by omega)]
  rfl

theorem Good.fill (dev : Device) (it : JournalIterator) (h : InRing it.jsuper) (hB : 0 < it.devBufBlocks)
    (hn : it.jsuper.djsuper.nUsed ≠ 0) : Good dev (it.fillDevBuffer dev) ∧ Full dev (it.fillDevBuffer dev) := by
  rw [fillDevBuffer_eq dev it h hB hn]
  exact ⟨⟨h, _, Nat.le_refl _, rfl⟩, rfl⟩

end

/-! ## The entries -/

/-- There are only blocks to skip from `j` to `j'`. -/
inductive Skips (dev : Device) (B : ℕ) : JSuper → JSuper → Prop
  | refl (j : JSuper) : Skips dev B j j
  | skip {j j' : JSuper} {k : ℕ} : j.djsuper.nUsed ≠ 0 → found dev B j = .skip k →
      Skips dev B (j.releaseFirstNSlots k) j' → Skips dev B j j'

theorem release_of_within {B k : ℕ} {j : JSuper} (h : InRing j) (hk : 1 ≤ k ∧ k ≤ window B j) :
    InRing (j.releaseFirstNSlots k) ∧ (j.releaseFirstNSlots k).djsuper.nUsed < j.djsuper.nUsed := by
  obtain ⟨-, hu, he⟩ := window_le B j
  refine ⟨h.release (by omega) (by omega), ?_⟩
  rw [release_nUsed (by omega)]
  omega

theorem InRing.skip {dev : Device} {B k : ℕ} {j : JSuper} (h : InRing j) (hf : found dev B j = .skip k) :
    InRing (j.releaseFirstNSlots k) ∧ (j.releaseFirstNSlots k).djsuper.nUsed < j.djsuper.nUsed := by
  have hw := found_within dev B j
  rw [hf] at hw
  exact release_of_within h hw

theorem InRing.entry {dev : Device} {B k : ℕ} {j : JSuper} {je : JournalEntry} (h : InRing j)
    (hf : found dev B j = .entry je k) :
    InRing (j.releaseFirstNSlots k) ∧ (j.releaseFirstNSlots k).djsuper.nUsed < j.djsuper.nUsed := by
  have hw := found_within dev B j
  rw [hf] at hw
  exact release_of_within h hw

theorem Skips.inRing {dev : Device} {B : ℕ} {j j' : JSuper} (hs : Skips dev B j j') (h : InRing j) :
    InRing j' ∧ j'.djsuper.nUsed ≤ j.djsuper.nUsed := by
  induction hs with
  | refl => exact ⟨h, Nat.le_refl _⟩
  | skip _ hf _ ih =>
    obtain ⟨hin, hlt⟩ := h.skip hf
    exact ⟨(ih hin).1, (ih hin).2.trans hlt.le⟩

/-- `it'` is an iterator with the buffer of `it`. -/
structure Moved (dev : Device) (it it' : JournalIterator) : Prop where
  good : Good dev it'
  devBufBlocks : it'.devBufBlocks = it.devBufBlocks

/-- The iterator has come to the head without another read. -/
def AtEnd (it it' : JournalIterator) : Prop :=
  it'.jsuper.djsuper.nUsed = 0 ∧ it'.pendingIO = it.pendingIO ∧ it'.refills = it.refills

/-- The iterator reads again. It has consumed a block since the call, or what was in the buffer did
not do. -/
structure Refilled (dev : Device) (it it' : JournalIterator) : Prop where
  left : it'.jsuper.djsuper.nUsed ≠ 0
  full : Full dev it'
  pendingIO : it'.pendingIO = true
  refills : it'.refills = it'.jsuper.djsuper.nUsed :: it.refills
  progress : it'.jsuper.djsuper.nUsed < it.jsuper.djsuper.nUsed ∨
    it'.jsuper = it.jsuper ∧ it.cursor dev = .refill

/-- What a call may return, by what there is from the tail on. -/
def Answers (dev : Device) (it : JournalIterator) : NextEntry → Prop
  | .entry je it' => Moved dev it it' ∧ it'.pendingIO = it.pendingIO ∧ it'.refills = it.refills ∧
      ∃ j k, Skips dev it.devBufBlocks it.jsuper j ∧ j.djsuper.nUsed ≠ 0 ∧
        found dev it.devBufBlocks j = .entry je k ∧ it'.jsuper = j.releaseFirstNSlots k
  | .null it' => Moved dev it it' ∧ Skips dev it.devBufBlocks it.jsuper it'.jsuper ∧
      (AtEnd it it' ∨ Refilled dev it it')
  | .terminate => ∃ j, Skips dev it.devBufBlocks it.jsuper j ∧ j.djsuper.nUsed ≠ 0 ∧
      found dev it.devBufBlocks j = .terminate
  | .outOfBounds => ∃ j, Skips dev it.devBufBlocks it.jsuper j ∧ j.djsuper.nUsed ≠ 0 ∧
      found dev it.devBufBlocks j = .outOfBounds

section

variable {dev : Device} {it : JournalIterator}

theorem Answers.skip {k : ℕ} {r : NextEntry} (h : InRing it.jsuper) (hn : it.jsuper.djsuper.nUsed ≠ 0)
    (hf : found dev it.devBufBlocks it.jsuper = .skip k) (hr : Answers dev (it.consume k) r) : Answers dev it r := by
  have hlt := (h.skip hf).2
  cases r with
  | entry je it' =>
    obtain ⟨hm, hp, hrf, j, i, hs, hj⟩ := hr
    exact ⟨⟨hm.good, hm.devBufBlocks⟩, hp, hrf, j, i, .skip hn hf hs, hj⟩
  | null it' =>
    obtain ⟨hm, hs, he⟩ := hr
    refine ⟨⟨hm.good, hm.devBufBlocks⟩, .skip hn hf hs, he.imp id fun hr => ?_⟩
    have hle : it'.jsuper.djsuper.nUsed ≤ (it.jsuper.releaseFirstNSlots k).djsuper.nUsed :=
      (hs.inRing (h.skip hf).1).2
    exact ⟨hr.left, hr.full, hr.pendingIO, hr.refills, .inl (by omega)⟩
  | terminate =>
    obtain ⟨j, hs, hj⟩ := hr
    exact ⟨j, .skip hn hf hs, hj⟩
  | outOfBounds =>
    obtain ⟨j, hs, hj⟩ := hr
    exact ⟨j, .skip hn hf hs, hj⟩

theorem answers_getNextEntryLoop (n : ℕ) {it : JournalIterator} (h : Good dev it) (hB : 0 < it.devBufBlocks)
    (hlen : it.devBuf.length < n) : Answers dev it (getNextEntryLoop dev n it) := by
  induction n generalizing it with
  | zero => omega
  | succ n ih =>
    unfold getNextEntryLoop
    by_cases hn : it.jsuper.djsuper.nUsed = 0
    · rw [if_pos (by simpa [JournalIterator.empty, JSuper.empty] using hn)]
      exact ⟨⟨h, rfl⟩, .refl _, .inl ⟨hn, rfl, rfl⟩⟩
    rw [if_neg (by simpa [JournalIterator.empty, JSuper.empty] using hn)]
    have hw : AtCursor.Within it.devBuf.length (it.cursor dev) := atCursor_within _ _ _
    cases hc : it.cursor dev with
    | refill =>
      obtain ⟨hg, hfull⟩ := Good.fill dev it h.inRing hB hn
      have hfill := fillDevBuffer_eq dev it h.inRing hB hn
      refine ⟨⟨hg, by rw [hfill]⟩, by rw [hfill]; exact .refl _, .inr ⟨?_, hfull, ?_, ?_, ?_⟩⟩
      · rw [hfill]
        exact hn
      · rw [hfill]
      · rw [hfill]
      · rw [hfill]
        exact .inr ⟨rfl, hc⟩
    | skip k =>
      rw [hc] at hw
      have hf : found dev it.devBufBlocks it.jsuper = .skip k :=
        (h.cursor_eq.resolve_left (by rw [hc]; nofun)).symm.trans hc
      refine Answers.skip h.inRing hn hf (ih (h.consume hw.2) hB ?_)
      show (it.devBuf.drop k).length < n
      obtain ⟨h1, h2⟩ := hw
      rw [length_drop]
      omega
    | entry je k =>
      rw [hc] at hw
      have hf := (h.cursor_eq.resolve_left (by rw [hc]; nofun)).symm.trans hc
      exact ⟨⟨h.consume hw.2, rfl⟩, rfl, rfl, it.jsuper, k, .refl _, hn, hf, rfl⟩
    | terminate =>
      have hf := (h.cursor_eq.resolve_left (by rw [hc]; nofun)).symm.trans hc
      exact ⟨it.jsuper, .refl _, hn, hf⟩
    | outOfBounds =>
      have hf := (h.cursor_eq.resolve_left (by rw [hc]; nofun)).symm.trans hc
      exact ⟨it.jsuper, .refl _, hn, hf⟩

theorem answers_getNextEntry (h : Good dev it) (hB : 0 < it.devBufBlocks) (hp : it.pendingIO = false) :
    Answers dev it (it.getNextEntry dev) := by
  unfold getNextEntry
  by_cases hn : it.jsuper.djsuper.nUsed = 0
  · rw [if_pos (by simp [JournalIterator.empty, JSuper.empty, hn])]
    exact ⟨⟨h, rfl⟩, .refl _, .inl ⟨hn, rfl, rfl⟩⟩
  · rw [if_neg (by simp [JournalIterator.empty, JSuper.empty, hn, hp])]
    exact answers_getNextEntryLoop _ h hB (Nat.lt_succ_self _)

end

end Ufs.Proof.Recovery
