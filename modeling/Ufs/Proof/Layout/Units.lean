import Ufs.Proof.Layout.Bits

/-!
# Where the units of data blocks are

`allocUnit` searches the bitmap blocks of a worker and an extent: what it finds
(`HandsOut`) is a multiple of the unit, counted from the first of these bitmap
blocks (`HandsOut.fits`), and each such multiple of a large unit is found when it alone
is free (`handsOut_large`). The units stay in place exactly if the bitmap blocks of each
extent are whole units and the last one that is searched describes blocks of the device
(`units_in_place_iff`).
-/

namespace Ufs.Proof.Layout

open Impl Layout
open Nat (mod_lt mul_le_mul_right add_mul one_mul zero_mul mul_comm mod_eq_of_lt le_add_right)

/-! ## The regions -/

/-- The bitmap blocks of worker `idx` for extents of index `k`. -/
def bmapBlocks (L : Layout) (idx : ℕ) (k : Fin nextentArr) : Set ℕ :=
  let start := L.getBmapStartBlockForWorker idx +
    L.getDataBMapStartBlockNoForExtentArrIdx k L.getDevBmapNumBlocksForWorker
  Set.Ico start (start + L.curMaxBmapBlocks k)

/-- The superblock, the inode bitmap, the journal, the data bitmap, the inodes and the data. -/
def regions (L : Layout) : List (Set ℕ) :=
  [Set.Ico 1 2,
    Set.Ico getImapStartBlock (getImapStartBlock + getDevImapNumBlocks),
    Set.Ico (getWorkerJournalSb 0) (getWorkerJournalSb nmaxFspWorker),
    Set.Ico (L.getBmapStartBlockForWorker 0) (L.getBmapStartBlockForWorker 0 + L.getDevBmapNumBlocksInTotal),
    Set.Ico L.getInodeStartBlock (L.getInodeStartBlock + getDevInodeNumBlocks),
    Set.Ico L.getDataStartBlock L.devBlocks]

/-- `allocateDataBlocks` gives an inode of the worker the unit with this bit, from some bitmaps. -/
def HandsOut (L : Layout) (idx : ℕ) (k : Fin nextentArr) (i bit : ℕ) : Prop :=
  ∃ st, (L.allocUnit idx k st).1 = .allocated i bit

/-- The data blocks of a unit. -/
def unitBlocks (L : Layout) (idx : ℕ) (k : Fin nextentArr) (i bit : ℕ) : Set ℕ :=
  Set.Ico (L.blockNo idx k i bit) (L.blockNo idx k i bit + extentArrIdx2BlockAllocUnit k)

/-- Every unit that is handed out is described by bitmap blocks of its worker and extent, overlaps no
other unit and is on the device. -/
def UnitsInPlace (L : Layout) : Prop :=
  ∀ idx < nmaxFspWorker, ∀ k i bit, HandsOut L idx k i bit →
    (∀ b ∈ unitBlocks L idx k i bit, L.getBmapBlockForLba b ∈ bmapBlocks L idx k) ∧
    (∀ idx' < nmaxFspWorker, ∀ k' i' bit', HandsOut L idx' k' i' bit' →
      (idx', k', i', bit') ≠ (idx, k, i, bit) →
        Disjoint (unitBlocks L idx k i bit) (unitBlocks L idx' k' i' bit')) ∧
    ∀ b ∈ unitBlocks L idx k i bit, L.convLbaToPba b < L.devBlocks

/-! ## The searches -/

theorem findBlockFreeJumpBitsNo_some {b : Bitmap} {n jump bit : ℕ}
    (h : findBlockFreeJumpBitsNo b n jump = some bit) : jump ∣ bit ∧ jump ≤ n - bit := by
  obtain ⟨hf, hb⟩ := Option.filter_eq_some_iff.1 h
  obtain ⟨-, m, -, rfl⟩ := findClear_some hf
  exact ⟨by simp, of_decide_eq_true hb⟩

section

variable {curBmap curMax unit i bit : ℕ}

theorem allocOneBlock_allocated : ∀ {n k : ℕ} {st : AllocState},
    (allocOneBlock curBmap curMax unit n k st).1 = .allocated i bit → 0 < curMax → i < curMax ∧ bit < bpb
  | 0, _, _, h, _ => by cases h
  | n + 1, k, st, h, hm => by
    unfold allocOneBlock at h
    dsimp only at h
    split at h
    · cases h
    split at h
    next bit' hb =>
      cases h
      exact ⟨mod_lt _ hm, (findBlockFreeBitNoStartFrom_some hb).1⟩
    split at h
    next bit' hb =>
      cases h
      split_ifs at hb
      exact ⟨mod_lt _ hm, (findBlockFreeBitNoStartFrom_some hb).1⟩
    exact allocOneBlock_allocated h hm

theorem allocJump_allocated : ∀ {n k : ℕ} {st : AllocState},
    (allocJump curBmap curMax unit n k st).1 = .allocated i bit → 0 < curMax →
      i < curMax ∧ unit ∣ bit ∧ unit ≤ bpb - bit
  | 0, _, _, h, _ => by cases h
  | n + 1, k, st, h, hm => by
    unfold allocJump at h
    dsimp only at h
    split at h
    · cases h
    split at h
    next bit' hb =>
      cases h
      exact ⟨mod_lt _ hm, findBlockFreeJumpBitsNo_some hb⟩
    exact allocJump_allocated h hm

theorem allocBmapBlocks_allocated : ∀ {n i0 : ℕ} {st : AllocState},
    (allocBmapBlocks curBmap unit n i0 st).1 = .allocated i bit → bit = 0 ∧ ∃ m < n, i = i0 + m * (unit / bpb)
  | 0, _, _, h => by cases h
  | n + 1, i0, st, h => by
    unfold allocBmapBlocks at h
    split at h
    · cases h
    split at h
    · cases h
      exact ⟨rfl, 0, by omega, by omega⟩
    · obtain ⟨hb, m, hm, rfl⟩ := allocBmapBlocks_allocated h
      exact ⟨hb, m + 1, by omega, by ring⟩

end

/-! ## Units -/

theorem unit_pos : ∀ k : Fin nextentArr, 0 < extentArrIdx2BlockAllocUnit k := by decide

theorem unit_cases : ∀ k : Fin nextentArr, k.1 = 0 ∧ extentArrIdx2BlockAllocUnit k = 1 ∨ k.1 = 1 ∧
    extentArrIdx2BlockAllocUnit k = 2048 ∨
      2 ≤ k.1 ∧ bpb ≤ extentArrIdx2BlockAllocUnit k ∧ bpb ∣ extentArrIdx2BlockAllocUnit k := by decide

variable {k : Fin nextentArr}

theorem HandsOut.fits {L : Layout} {idx : ℕ} {i bit : ℕ} (h : HandsOut L idx k i bit) :
    i < L.curMaxBmapBlocks k ∧ bit < bpb ∧ extentArrIdx2BlockAllocUnit k ∣ i * bpb + bit := by
  obtain ⟨st, h⟩ := h
  unfold Layout.allocUnit at h
  dsimp only at h
  -- without bitmap blocks no loop has a turn
  have hturns {s} (h0 : L.curMaxBmapBlocks k = 0) : L.turns k s = 0 := by
    have := Nat.mod_le s (2 ^ 32)
    simp only [turns, h0]
    omega
  rcases unit_cases k with ⟨-, hu⟩ | ⟨-, hu⟩ | ⟨-, hu, hd⟩
  · rw [hu, if_pos rfl] at h
    rcases Nat.eq_zero_or_pos (L.curMaxBmapBlocks k) with h0 | hm
    · rw [hturns h0] at h
      cases h
    · obtain ⟨hi, hb⟩ := allocOneBlock_allocated h hm
      exact ⟨hi, hb, by rw [hu]; exact one_dvd _⟩
  · rw [hu, if_neg (by decide), if_pos (by decide)] at h
    rcases Nat.eq_zero_or_pos (L.curMaxBmapBlocks k) with h0 | hm
    · rw [hturns h0] at h
      cases h
    · obtain ⟨hi, hb, hle⟩ := allocJump_allocated h hm
      refine ⟨hi, by omega, ?_⟩
      rw [hu]
      exact Dvd.dvd.add (Dvd.dvd.mul_left (by decide) i) hb
  · have hb : 1 < bpb := by decide
    rw [if_neg (by omega), if_neg (by omega)] at h
    obtain ⟨rfl, m, hm, rfl⟩ := allocBmapBlocks_allocated h
    obtain ⟨v, hv⟩ := hd
    have hpos : 0 < v := Nat.pos_of_mul_pos_left (hv ▸ unit_pos k)
    rw [hv, Nat.mul_div_cancel_left v (by omega)] at hm ⊢
    refine ⟨?_, by omega, ⟨m, by ring⟩⟩
    have := Nat.div_mul_le_self (L.curMaxBmapBlocks k + v - 1) v
    have := mul_le_mul_right v (show m + 1 ≤ _ from hm)
    rw [add_mul, one_mul] at this
    omega

theorem curBmapBlockNo_ne {b i j : ℕ} (hij : i < j) (hj : j < 2 ^ 32) : curBmapBlockNo b i ≠ curBmapBlockNo b j := by
  unfold curBmapBlockNo
  omega

/-- All bitmap blocks are in memory and full, except one that is empty. -/
def onlyFree (bno : ℕ) : AllocState :=
  ⟨fun _ => 0, fun _ => -1, fun n => some fun _ => decide (n ≠ bno)⟩

theorem allocBmapBlocks_onlyFree {b unit : ℕ} : ∀ {n i m : ℕ}, m < n → 0 < unit / bpb → i + m * (unit / bpb) < 2 ^ 32 →
      (allocBmapBlocks b unit n i (onlyFree (curBmapBlockNo b (i + m * (unit / bpb))))).1 = .allocated
        (i + m * (unit / bpb)) 0
  | n + 1, i, 0, _, _, _ => by
    rw [zero_mul, Nat.add_zero]
    simp [allocBmapBlocks, onlyFree, firstIntZero]
  | n + 1, i, m + 1, hm, hv, hlt => by
    have hi : i + (m + 1) * (unit / bpb) = i + unit / bpb + m * (unit / bpb) := by ring
    have hne : curBmapBlockNo b i ≠ curBmapBlockNo b (i + (m + 1) * (unit / bpb)) := by
      refine curBmapBlockNo_ne ?_ hlt
      rw [hi]
      omega
    have hfull : firstIntZero (fun _ => true) = false := by decide
    unfold allocBmapBlocks
    simp only [onlyFree, ne_eq, hne, not_false_eq_true, decide_true, hfull, Bool.false_eq_true, if_false]
    rw [hi] at hlt ⊢
    exact allocBmapBlocks_onlyFree (by omega) hv hlt

theorem curMaxBmapBlocks_lt (L : Layout) (k : Fin nextentArr) : L.curMaxBmapBlocks k < 2 ^ 32 := by
  unfold Layout.curMaxBmapBlocks Layout.maxBmapBlockNum
  split
  · exact mod_lt _ (by omega)
  · decide

theorem handsOut_large {L : Layout} {idx i : ℕ} (hk : 2 ≤ k.1)
    (hi : i < L.curMaxBmapBlocks k) (hd : extentArrIdx2BlockAllocUnit k / bpb ∣ i) : HandsOut L idx k i 0 := by
  have hb : 1 < bpb := by decide
  rcases unit_cases k with ⟨h0, -⟩ | ⟨h1, -⟩ | ⟨-, hu, -⟩
  · omega
  · omega
  obtain ⟨m, rfl⟩ := hd
  have hv : 0 < extentArrIdx2BlockAllocUnit k / bpb := Nat.div_pos hu (by omega)
  rw [Nat.mul_comm] at hi ⊢
  have hn : m < (L.curMaxBmapBlocks k + extentArrIdx2BlockAllocUnit k / bpb - 1) /
    (extentArrIdx2BlockAllocUnit k / bpb) := by
    rw [Nat.lt_div_iff_mul_lt hv]
    have := Nat.mul_comm m (extentArrIdx2BlockAllocUnit k / bpb)
    omega
  have hlt := curMaxBmapBlocks_lt L k
  refine ⟨onlyFree (curBmapBlockNo (L.curBmapBlockDiskBlockNo idx k)
    (0 + m * (extentArrIdx2BlockAllocUnit k / bpb))), ?_⟩
  unfold Layout.allocUnit
  dsimp only
  rw [if_neg (by omega), if_neg (by omega), allocBmapBlocks_onlyFree hn hv (by omega), Nat.zero_add]

/-! ## The bitmap blocks of workers and extents -/

theorem getBmapStartBlockForWorker_eq (L : Layout) (idx : ℕ) :
    L.getBmapStartBlockForWorker idx = 10485766 + idx * L.getDevBmapNumBlocksForWorker := by
  have h : getBmapStartBlock = 10485766 := by decide
  simp [Layout.getBmapStartBlockForWorker, h]

theorem extentIdx_le (k : Fin nextentArr) : k.1 ≤ 6 := Nat.le_of_lt_succ k.2

theorem totalPreShare_succ (L : Layout) {k : ℕ} (h : k < 6) :
    L.totalPreShare (k + 1) = L.totalPreShare k + L.share ⟨k, h⟩ := by
  simp [Layout.totalPreShare, List.take_add_one, h]

theorem totalPreShare_mono (L : Layout) {k k' : ℕ} (h : k ≤ k') (hk : k' ≤ 6) :
    L.totalPreShare k ≤ L.totalPreShare k' := by
  induction k', h using Nat.le_induction with
  | base => exact le_rfl
  | succ k' h ih =>
    rw [totalPreShare_succ L hk]
    have := ih (by omega)
    omega

theorem totalPreShare_six (L : Layout) : L.totalPreShare 6 = L.kFsExtArrShareSum := rfl

section

variable {L : Layout} {total : ℕ} (h320 : lastExtentMaxBmapBlockNum ≤ total) (h32 : total < 2 ^ 32)

include h320 h32

theorem perShare_eq : L.perShare total = (total - lastExtentMaxBmapBlockNum) / L.kFsExtArrShareSum := by
  rw [Layout.perShare, mod_eq_of_lt h32, u64Sub_of_le h320]

theorem shares_le : L.kFsExtArrShareSum * L.perShare total + lastExtentMaxBmapBlockNum ≤ total := by
  have := Nat.mul_div_le (total - lastExtentMaxBmapBlockNum) L.kFsExtArrShareSum
  rw [perShare_eq h320 h32]
  omega

theorem preShares_le {k : ℕ} (hk : k ≤ 6) : L.totalPreShare k * L.perShare total + lastExtentMaxBmapBlockNum ≤
    total := by
  have := mul_le_mul_right (L.perShare total) (totalPreShare_mono L hk le_rfl)
  have := shares_le (L := L) h320 h32
  rw [totalPreShare_six] at *
  omega

theorem start_eq (k : Fin nextentArr) : L.getDataBMapStartBlockNoForExtentArrIdx k total =
    L.totalPreShare k * L.perShare total := by
  have := preShares_le (L := L) h320 h32 (extentIdx_le k)
  exact mod_eq_of_lt (by omega)

theorem max_eq (hk : k.1 < 6) : L.maxBmapBlockNum k total = L.perShare total * L.share ⟨k, hk⟩ := by
  have := preShares_le (L := L) h320 h32 (k := k + 1) (by omega)
  rw [totalPreShare_succ L hk, Nat.add_mul, Nat.mul_comm (L.share _)] at this
  rw [Layout.maxBmapBlockNum, dif_pos hk, Nat.mod_eq_of_lt (by omega)]

theorem start_add_max (hk : k.1 < 6) : L.getDataBMapStartBlockNoForExtentArrIdx k total + L.maxBmapBlockNum k total =
      L.totalPreShare (k + 1) * L.perShare total := by
  rw [start_eq h320 h32, max_eq h320 h32 hk, totalPreShare_succ L hk]
  ring

theorem start_add_max_le (k : Fin nextentArr) : L.getDataBMapStartBlockNoForExtentArrIdx k total + L.maxBmapBlockNum k total ≤
      L.kFsExtArrShareSum * L.perShare total + lastExtentMaxBmapBlockNum := by
  by_cases hk : k.1 < 6
  · rw [start_add_max h320 h32 hk, ← totalPreShare_six]
    exact (mul_le_mul_right _ (totalPreShare_mono L hk le_rfl)).trans (le_add_right _ _)
  · have h6 : k.1 = 6 := by have := extentIdx_le k; omega
    rw [start_eq h320 h32, Layout.maxBmapBlockNum, dif_neg hk, h6, totalPreShare_six]

theorem start_add_max_le_start {k k' : Fin nextentArr} (h : k < k') :
    L.getDataBMapStartBlockNoForExtentArrIdx k total + L.maxBmapBlockNum k total ≤
      L.getDataBMapStartBlockNoForExtentArrIdx k' total := by
  have hk : k.1 < k'.1 := h
  rw [start_add_max h320 h32 (hk.trans_le (extentIdx_le k')), start_eq h320 h32]
  exact mul_le_mul_right _ (totalPreShare_mono L hk (extentIdx_le k'))

end

/-! ## The regions are apart -/

theorem regions_apart (L : Layout) : (regions L).Pairwise Disjoint := by
  have hj : getImapStartBlock + getDevImapNumBlocks = getWorkerJournalSb 0 := by decide
  have hb : L.getBmapStartBlockForWorker 0 = getWorkerJournalSb nmaxFspWorker := by
    simp [Layout.getBmapStartBlockForWorker, getBmapStartBlock]
  have hm : getWorkerJournalSb 0 ≤ getWorkerJournalSb nmaxFspWorker := by decide
  have hi : 2 ≤ getImapStartBlock := by decide
  have hd : L.getDataStartBlock = L.getInodeStartBlock + getDevInodeNumBlocks := rfl
  have hs : L.getInodeStartBlock = L.getBmapStartBlockForWorker 0 + L.getDevBmapNumBlocksInTotal := rfl
  have hdis {a b c d : ℕ} (h : b ≤ c) : Disjoint (Set.Ico a b) (Set.Ico c d) :=
    Set.Ico_disjoint_Ico.2 ((min_le_left b d).trans (h.trans (le_max_right a c)))
  simp only [regions, List.pairwise_cons, List.mem_cons, List.not_mem_nil, or_false, forall_eq_or_imp,
    forall_eq, false_imp_iff, implies_true, and_true, List.Pairwise.nil]
  refine ⟨⟨?_, ?_, ?_, ?_, ?_⟩, ⟨?_, ?_, ?_, ?_⟩, ⟨?_, ?_, ?_⟩, ⟨?_, ?_⟩, ?_⟩ <;> exact hdis (by omega)

/-! ## Units in place -/

theorem bpb_eq : bpb = 32768 := by decide

theorem lastExtentMaxBmapBlockNum_eq : lastExtentMaxBmapBlockNum = 320 := by decide

/-- The first bitmap block of a worker and an extent, counted from the first of all. -/
def firstBmap (L : Layout) (idx : ℕ) (k : Fin nextentArr) : ℕ :=
  idx * L.getDevBmapNumBlocksForWorker +
    L.getDataBMapStartBlockNoForExtentArrIdx k L.getDevBmapNumBlocksForWorker

theorem mem_bmapBlocks {L : Layout} {idx : ℕ} {n : ℕ} : n + 10485766 ∈ bmapBlocks L idx k ↔
      firstBmap L idx k ≤ n ∧ n < firstBmap L idx k + L.curMaxBmapBlocks k := by
  simp only [bmapBlocks, firstBmap, getBmapStartBlockForWorker_eq, Set.mem_Ico]
  omega

theorem getBmapBlockForLba_eq (L : Layout) (b : ℕ) : L.getBmapBlockForLba b = b % 2 ^ 32 / bpb + 10485766 := by
  rw [Layout.getBmapBlockForLba, getBmapStartBlockForWorker_eq, bpb_eq]
  omega

theorem blockNo_eq {L : Layout} {idx i bit : ℕ} (h : firstBmap L idx k < 2 ^ 17) (hi : i < 2 ^ 32) (hb : bit < bpb) :
    L.blockNo idx k i bit = firstBmap L idx k * bpb + (i * bpb + bit) := by
  have hc : L.curBmapBlockDiskBlockNo idx k = 10485766 + firstBmap L idx k := by
    simp only [Layout.curBmapBlockDiskBlockNo, getBmapStartBlockForWorker_eq, firstBmap] at *
    omega
  rw [Layout.blockNo, hc, getBmapStartBlockForWorker_eq, zero_mul, u64Sub_of_le (by omega)]
  rw [bpb_eq] at *
  omega

theorem getBmapBlockForLba_mem {L : Layout} {idx b : ℕ} (h : b < 2 ^ 32) :
    L.getBmapBlockForLba b ∈ bmapBlocks L idx k ↔ firstBmap L idx k * bpb ≤ b ∧
      b < (firstBmap L idx k + L.curMaxBmapBlocks k) * bpb := by
  rw [getBmapBlockForLba_eq, mem_bmapBlocks, mod_eq_of_lt h, bpb_eq]
  omega

section

variable {L : Layout}

/-- Whole units in the bitmap blocks of each extent, and blocks of the device for the last bitmap
block that is searched. -/
def Roomy (L : Layout) : Prop :=
  let total := L.devSize / 4096 / 32768 + 1
  let perShare := (total / 10 - 320) / L.kFsExtArrShareSum
  let last := 9 * (total / 10) + L.kFsExtArrShareSum * perShare + 320
  (∀ k : Fin 6, 2 ≤ k.1 → 2 ^ (k.1 - 2) ∣ perShare * L.share k) ∧
    last ≤ 2 ^ 17 ∧ 10501392 + total + last * 32768 ≤ L.devSize / 4096

theorem unit_of_mid : ∀ k : Fin nextentArr, 2 ≤ k.1 → k.1 < 6 →
    extentArrIdx2BlockAllocUnit k = 2 ^ (k.1 - 2) * bpb := by decide

theorem unit_dvd_of_not_mid : ∀ k : Fin nextentArr, k.1 < 2 ∨ k.1 = 6 → extentArrIdx2BlockAllocUnit k ∣ bpb ∨
      k.1 = 6 ∧ extentArrIdx2BlockAllocUnit k ∣ lastExtentMaxBmapBlockNum * bpb := by decide

instance (L : Layout) : Decidable (Roomy L) := inferInstanceAs (Decidable (_ ∧ _ ∧ _))

section

variable (h320 : lastExtentMaxBmapBlockNum ≤ L.getDevBmapNumBlocksForWorker)

include h320

theorem roomy_iff (h32 : L.getDevBmapNumBlocksForWorker < 2 ^ 32) :
    Roomy L ↔ (∀ k : Fin nextentArr, extentArrIdx2BlockAllocUnit k ∣ L.curMaxBmapBlocks k * bpb) ∧
      firstBmap L 9 (Fin.last 6) + lastExtentMaxBmapBlockNum ≤ 2 ^ 17 ∧
      L.getDataStartBlock + (firstBmap L 9 (Fin.last 6) + lastExtentMaxBmapBlockNum) * bpb ≤ L.devBlocks := by
  have hp := perShare_eq (L := L) h320 h32
  have hw : L.getDevBmapNumBlocksForWorker = (L.devSize / 4096 / 32768 + 1) / 10 := rfl
  have hf : firstBmap L 9 (Fin.last 6) = 9 * L.getDevBmapNumBlocksForWorker +
      L.kFsExtArrShareSum * L.perShare L.getDevBmapNumBlocksForWorker := by
    rw [firstBmap, start_eq h320 h32]
    rfl
  have hd : L.getDataStartBlock = 10501392 + (L.devSize / 4096 / 32768 + 1) := by
    have hi : getDevInodeNumBlocks = 15626 := by decide
    have ht : L.getDevBmapNumBlocksInTotal = L.devSize / 4096 / 32768 + 1 := rfl
    rw [Layout.getDataStartBlock, Layout.getInodeStartBlock, getBmapStartBlockForWorker_eq, hi, ht]
    omega
  have hunits : (∀ k : Fin 6, 2 ≤ k.1 → 2 ^ (k.1 - 2) ∣ L.perShare L.getDevBmapNumBlocksForWorker * L.share k) ↔
      ∀ k : Fin nextentArr, extentArrIdx2BlockAllocUnit k ∣ L.curMaxBmapBlocks k * bpb := by
    have hb : 0 < bpb := by decide
    have hmid (k : Fin nextentArr) (h2 : 2 ≤ k.1) (h6 : k.1 < 6) :
      extentArrIdx2BlockAllocUnit k ∣ L.curMaxBmapBlocks k * bpb ↔
          2 ^ (k.1 - 2) ∣ L.perShare L.getDevBmapNumBlocksForWorker * L.share ⟨k, h6⟩ := by
      rw [unit_of_mid k h2 h6, Layout.curMaxBmapBlocks, max_eq h320 h32 h6, Nat.mul_dvd_mul_iff_right hb]
    constructor
    · intro h k
      by_cases hk : 2 ≤ k.1 ∧ k.1 < 6
      · exact (hmid k hk.1 hk.2).2 (h ⟨k, hk.2⟩ hk.1)
      · have := extentIdx_le k
        rcases unit_dvd_of_not_mid k (by omega) with hu | ⟨h6, hu⟩
        · exact Dvd.dvd.mul_left hu _
        · rwa [Layout.curMaxBmapBlocks, Layout.maxBmapBlockNum, dif_neg (by omega)]
    · intro h k hk
      exact (hmid (k.castSucc) hk k.2).1 (h k.castSucc)
  rw [← hunits, hf, hd, lastExtentMaxBmapBlockNum_eq, bpb_eq]
  rw [lastExtentMaxBmapBlockNum_eq] at hp
  unfold Roomy
  dsimp only
  rw [← hw, ← hp, show L.devBlocks = L.devSize / 4096 from rfl]

theorem UnitsInPlace.roomy (h : UnitsInPlace L) : Roomy L := by
  have hlast : 2 ≤ (Fin.last 6).1 := by decide
  have hu : extentArrIdx2BlockAllocUnit (Fin.last 6) = 32 * 32768 := by decide
  have hm : L.curMaxBmapBlocks (Fin.last 6) = 320 := rfl
  have hb := bpb_eq
  have hn : 9 < nmaxFspWorker := by decide
  -- the first block of the first unit of the last worker and extent: its bitmap block is found
  -- in 32 bits, so the bitmap block that was searched is no later than `2 ^ 17`
  have hfirst : firstBmap L 9 (Fin.last 6) < 2 ^ 17 := by
    have h0 := (h 9 hn (Fin.last 6) 0 0 (handsOut_large hlast (by omega) (by simp))).1
      (L.blockNo 9 (Fin.last 6) 0 0) ⟨le_rfl, by omega⟩
    rw [getBmapBlockForLba_eq, mem_bmapBlocks, hb] at h0
    omega
  have h32 : L.getDevBmapNumBlocksForWorker < 2 ^ 32 := by
    rw [firstBmap] at hfirst
    omega
  -- the last block of the last unit
  obtain ⟨hmap, -, hdev⟩ := h 9 hn (Fin.last 6) 288 0 (handsOut_large hlast (by omega) (by rw [hu, hb]; decide))
  have heq := blockNo_eq hfirst (show 288 < 2 ^ 32 by decide) (show 0 < bpb by decide)
  have hlt : L.blockNo 9 (Fin.last 6) 288 0 + 1048575 ∈ unitBlocks L 9 (Fin.last 6) 288 0 :=
    ⟨Nat.le_add_right _ _, by rw [hu]; omega⟩
  have hmap := hmap _ hlt
  have hdev := hdev _ hlt
  rw [heq] at hmap hdev
  rw [getBmapBlockForLba_eq, mem_bmapBlocks, hb] at hmap
  rw [Layout.convLbaToPba, hb] at hdev
  refine (roomy_iff h320 h32).2 ⟨fun k => ?_, ?_, ?_⟩
  · rcases unit_cases k with ⟨-, hk⟩ | ⟨-, hk⟩ | ⟨h2, hle, v, hv⟩
    · exact hk ▸ one_dvd _
    · rw [hk]
      exact Dvd.dvd.mul_left (by decide) _
    -- otherwise the last unit has a block that is described by the next extent's first bitmap block
    have hvpos : 0 < v := Nat.pos_of_mul_pos_left (hv ▸ unit_pos k)
    have hdiv : extentArrIdx2BlockAllocUnit k / bpb = v := by
      rw [hv, Nat.mul_div_cancel_left v (by omega)]
    rw [hv, Nat.mul_comm bpb, Nat.mul_dvd_mul_iff_right (by omega), Nat.dvd_iff_mod_eq_zero]
    by_contra hr
    have hmod := Nat.mod_lt (L.curMaxBmapBlocks k) hvpos
    have hdm := Nat.div_add_mod (L.curMaxBmapBlocks k) v
    have hk0 : firstBmap L 0 k + L.curMaxBmapBlocks k ≤ L.getDevBmapNumBlocksForWorker := by
      have h1 := start_add_max_le (L := L) h320 h32 k
      have h2 := shares_le (L := L) h320 h32
      rw [firstBmap, Nat.zero_mul, Nat.zero_add]
      exact h1.trans h2
    have hpw : L.getDevBmapNumBlocksForWorker < 2 ^ 17 := by
      rw [firstBmap] at hfirst
      omega
    have hmax := curMaxBmapBlocks_lt L k
    have hout := (h 0 (by decide) k (v * (L.curMaxBmapBlocks k / v)) 0
      (handsOut_large h2 (by omega) (by rw [hdiv]; exact dvd_mul_right _ _))).1
      (L.blockNo 0 k (v * (L.curMaxBmapBlocks k / v)) 0 + L.curMaxBmapBlocks k % v * bpb)
      ⟨Nat.le_add_right _ _, by
        rw [hv, Nat.mul_comm bpb]
        exact Nat.add_lt_add_left (Nat.mul_lt_mul_of_pos_right hmod (by omega)) _⟩
    rw [blockNo_eq (by omega) (by omega) (by omega), Nat.add_zero, Nat.add_assoc, ← Nat.add_mul, hdm,
      ← Nat.add_mul] at hout
    have h32' : (firstBmap L 0 k + L.curMaxBmapBlocks k) * bpb < 2 ^ 32 := by
      have hle := Nat.mul_lt_mul_of_pos_right (hk0.trans_lt hpw) (show 0 < bpb by decide)
      rwa [hb] at hle ⊢
    rw [getBmapBlockForLba_mem h32'] at hout
    exact absurd hout.2 (lt_irrefl _)
  · rw [lastExtentMaxBmapBlockNum_eq]
    omega
  · rw [lastExtentMaxBmapBlockNum_eq, hb]
    omega

theorem firstBmap_add_le (h32 : L.getDevBmapNumBlocksForWorker < 2 ^ 32) {idx idx' : ℕ} {k k' : Fin nextentArr}
    (h : idx < idx' ∨ idx = idx' ∧ k < k') :
    firstBmap L idx k + L.curMaxBmapBlocks k ≤ firstBmap L idx' k' := by
  unfold firstBmap Layout.curMaxBmapBlocks
  rcases h with h | ⟨rfl, h⟩
  · have h1 := start_add_max_le (L := L) h320 h32 k
    have h2 := shares_le (L := L) h320 h32
    have h3 := mul_le_mul_right L.getDevBmapNumBlocksForWorker (show idx + 1 ≤ idx' from h)
    rw [add_mul, one_mul] at h3
    omega
  · have := start_add_max_le_start (L := L) h320 h32 h
    omega

end

theorem add_lt_of_dvd {u p m j : ℕ} (hp : u ∣ p) (hm : u ∣ m) (h : p < m) (hj : j < u) : p + j < m := by
  obtain ⟨a, rfl⟩ := hp
  obtain ⟨b, rfl⟩ := hm
  have := Nat.mul_le_mul_left u (show a + 1 ≤ b from Nat.lt_of_mul_lt_mul_left h)
  rw [Nat.mul_add, Nat.mul_one] at this
  omega

theorem eq_of_dvd {u p q b : ℕ} (hp : u ∣ p) (hq : u ∣ q) (hb : p ≤ b ∧ b < p + u) (hb' : q ≤ b ∧ b < q + u) :
    p = q := by
  by_contra hne
  rcases Nat.lt_or_gt_of_ne hne with h | h
  · have := add_lt_of_dvd hp hq h (show b - p < u by omega)
    omega
  · have := add_lt_of_dvd hq hp h (show b - q < u by omega)
    omega

theorem unitBlocks_subset (h : ∀ k : Fin nextentArr, extentArrIdx2BlockAllocUnit k ∣ L.curMaxBmapBlocks k * bpb)
    {idx i bit : ℕ} (hf : firstBmap L idx k < 2 ^ 17) (ho : HandsOut L idx k i bit)
    {b : ℕ} (hb : b ∈ unitBlocks L idx k i bit) : firstBmap L idx k * bpb ≤ b ∧
      b < (firstBmap L idx k + L.curMaxBmapBlocks k) * bpb := by
  obtain ⟨hi, hbit, hd⟩ := ho.fits
  have hmax := curMaxBmapBlocks_lt L k
  obtain ⟨h1, h2⟩ := hb
  rw [blockNo_eq hf (by omega) hbit] at h1 h2
  have hpos : i * bpb + bit < L.curMaxBmapBlocks k * bpb := by
    have := mul_le_mul_right bpb (show i + 1 ≤ _ from hi)
    rw [add_mul, one_mul] at this
    omega
  have := add_lt_of_dvd (j := b - (firstBmap L idx k * bpb + (i * bpb + bit))) hd (h k) hpos (by omega)
  rw [add_mul]
  omega

theorem Roomy.unitsInPlace (h320 : lastExtentMaxBmapBlockNum ≤ L.getDevBmapNumBlocksForWorker) (h : Roomy L) :
    UnitsInPlace L := by
  have hw : L.getDevBmapNumBlocksForWorker = (L.devSize / 4096 / 32768 + 1) / 10 := rfl
  have h32 : L.getDevBmapNumBlocksForWorker < 2 ^ 32 := by
    have h17 := h.2.1
    rw [hw]
    omega
  obtain ⟨hunits, h17, hdev⟩ := (roomy_iff h320 h32).1 h
  have hlast {idx : ℕ} (k : Fin nextentArr) (hidx : idx < nmaxFspWorker) : firstBmap L idx k + L.curMaxBmapBlocks k ≤
        firstBmap L 9 (Fin.last 6) + lastExtentMaxBmapBlockNum := by
    have hn : nmaxFspWorker = 10 := rfl
    by_cases hle : idx < 9 ∨ idx = 9 ∧ k < Fin.last 6
    · exact (firstBmap_add_le h320 h32 hle).trans (le_add_right _ _)
    · have hk : k = Fin.last 6 := by
        by_contra hne
        have := Fin.val_lt_last hne
        exact hle (.inr ⟨by omega, this⟩)
      subst hk
      have : idx = 9 := by omega
      subst this
      exact le_rfl
  have h320' := lastExtentMaxBmapBlockNum_eq
  have hf {idx : ℕ} (k : Fin nextentArr) (hidx : idx < nmaxFspWorker) {i bit : ℕ} (ho : HandsOut L idx k i bit) :
    firstBmap L idx k < 2 ^ 17 := by
    have := hlast k hidx
    have := ho.fits.1
    omega
  intro idx hidx k i bit ho
  have hsub {b : ℕ} := unitBlocks_subset (b := b) hunits (hf k hidx ho) ho
  refine ⟨fun b hb => ?_, fun idx' hidx' k' i' bit' ho' hne => ?_, fun b hb => ?_⟩
  · have hb' := hsub hb
    have := hlast k hidx
    rw [bpb_eq] at hb'
    rw [getBmapBlockForLba_mem (by omega), bpb_eq]
    exact hb'
  · have hsub' {b : ℕ} := unitBlocks_subset (b := b) hunits (hf k' hidx' ho') ho'
    rw [Set.disjoint_left]
    intro b hb hb'
    by_cases hsame : idx' = idx ∧ k' = k
    · -- two multiples of one unit
      obtain ⟨rfl, rfl⟩ := hsame
      obtain ⟨hi, hbit, hd⟩ := ho.fits
      obtain ⟨hi', hbit', hd'⟩ := ho'.fits
      have hmax := curMaxBmapBlocks_lt L k'
      rw [unitBlocks, blockNo_eq (hf k' hidx ho) (by omega) hbit, Set.mem_Ico] at hb
      rw [unitBlocks, blockNo_eq (hf k' hidx ho') (by omega) hbit', Set.mem_Ico] at hb'
      have heq := eq_of_dvd (b := b - firstBmap L idx' k' * bpb) hd hd' (by omega) (by omega)
      rw [bpb_eq] at heq hbit hbit'
      have hii : i' = i := by omega
      have hbb : bit' = bit := by omega
      exact hne (by rw [hii, hbb])
    · -- the bitmap blocks of one end before those of the other
      have hb := hsub hb
      have hb' := hsub' hb'
      have hle : firstBmap L idx k + L.curMaxBmapBlocks k ≤ firstBmap L idx' k' ∨
          firstBmap L idx' k' + L.curMaxBmapBlocks k' ≤ firstBmap L idx k := by
        rcases lt_trichotomy idx idx' with hlt | rfl | hlt
        · exact .inl (firstBmap_add_le h320 h32 (.inl hlt))
        · rcases lt_or_gt_of_ne (fun he => hsame ⟨rfl, he⟩) with hlt | hlt
          · exact .inr (firstBmap_add_le h320 h32 (.inr ⟨rfl, hlt⟩))
          · exact .inl (firstBmap_add_le h320 h32 (.inr ⟨rfl, hlt⟩))
        · exact .inr (firstBmap_add_le h320 h32 (.inl hlt))
      rcases hle with hle | hle
      · have := mul_le_mul_right bpb hle
        omega
      · have := mul_le_mul_right bpb hle
        omega
  · have hb' := hsub hb
    have := mul_le_mul_right bpb (hlast k hidx)
    rw [Layout.convLbaToPba]
    omega

end

/-- The regions are apart, and the units are in place exactly if the device is roomy. -/
theorem units_in_place_iff (L : Layout) (h320 : lastExtentMaxBmapBlockNum ≤ L.getDevBmapNumBlocksForWorker) :
    (regions L).Pairwise Disjoint ∧ UnitsInPlace L ↔ Roomy L :=
  ⟨fun h => h.2.roomy h320, fun h => ⟨regions_apart L, h.unitsInPlace h320⟩⟩

/-- A device of 1.7 TB with two shares: 400 bitmap blocks of each worker belong to no extent. -/
def sparseLayout : Layout := ⟨13599 * 2 ^ 27, ![1, 639, 0, 0, 0, 0]⟩

theorem units_in_place_sparse : lastExtentMaxBmapBlockNum ≤ sparseLayout.getDevBmapNumBlocksForWorker ∧
    UnitsInPlace sparseLayout :=
  have h : lastExtentMaxBmapBlockNum ≤ sparseLayout.getDevBmapNumBlocksForWorker := by decide
  ⟨h, ((units_in_place_iff sparseLayout h).2 (by decide)).2⟩

/-! ## Units that are not in place -/

/-- In the default build, the first unit that the last worker takes for the last extent ends after the
device. -/
theorem unit_past_device : lastExtentMaxBmapBlockNum ≤ standard.getDevBmapNumBlocksForWorker ∧
      (standard.allocUnit 9 (Fin.last 6) .formatted).1 = .allocated 0 0 ∧
      ∃ b ∈ unitBlocks standard 9 (Fin.last 6) 0 0, standard.devBlocks ≤ standard.convLbaToPba b :=
  ⟨by decide, by decide, standard.blockNo 9 (Fin.last 6) 0 0 + 1048575,
    ⟨by decide, by decide⟩, by decide⟩

/-- The size that the header names for its first version, 500 GB. -/
def firstLayout : Layout := ⟨536870912000, standard.share⟩

/-- With it a worker that has given the last extent of an inode a unit gives it to the extent before
too, as the third unit of that. -/
theorem units_overlap : ∃ k : Fin nextentArr, k.1 = 5 ∧ let st := (firstLayout.allocUnit 0 (Fin.last 6) .formatted).2
    let st := (firstLayout.allocUnit 0 k (firstLayout.allocUnit 0 k st).2).2
    (firstLayout.allocUnit 0 (Fin.last 6) .formatted).1 = .allocated 0 0 ∧
      (firstLayout.allocUnit 0 k st).1 = .allocated 16 0 ∧
      firstLayout.blockNo 0 (Fin.last 6) 0 0 ∈ unitBlocks firstLayout 0 k 16 0 :=
  ⟨⟨5, by decide⟩, rfl, by decide, by decide, by decide, by decide⟩

end Ufs.Proof.Layout
