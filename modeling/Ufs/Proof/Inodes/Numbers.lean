import Ufs.Framework.Run
import Ufs.Impl.Imap
import Ufs.Proof.Layout.Bits

/-!
# What `GetFreeInum` hands out

The search looks at all bits, from wherever it starts (`getFreeInum_spec`). The bitmap has more bits
than there are inodes, and its first bit is that of the number by which a failure is told.
`getFreeInum_serves_iff`: the numbers handed out along every run are those of inodes, and none is in
use, if and only if the bits that are not those of inodes are set at the start.
-/

namespace Ufs.Proof.Inodes

open Impl
open Layout (findBlockFreeBitNoStartFrom_some findBlockFreeBitNoStartFrom_least)
open Function (update update_of_ne update_self)

variable {m m' : Imap} {n i bit ino : ℕ}

/-! ## The search -/

theorem findBlockFreeBitNoStartFrom_none {b : Bitmap} (h : findBlockFreeBitNoStartFrom b (-1) n = none)
    (hbit : bit < n) : b bit = true := by
  by_contra hb
  exact (findBlockFreeBitNoStartFrom_least le_rfl).2 h bit ⟨by omega, hbit, by simpa using hb⟩

theorem search_some {p : ℕ × ℕ} (h : Imap.search n i m = (some p, m')) :
    p.1 < imapblockNum ∧ p.2 < bpb ∧ m.iMapBlock p.1 p.2 = false ∧ m'.iMapBlock = m.iMapBlock := by
  induction n generalizing i m with
  | zero => cases h
  | succ n ih =>
    unfold Imap.search at h
    dsimp only at h
    split at h
    · next hb =>
      cases h
      obtain ⟨hlt, hclear⟩ := findBlockFreeBitNoStartFrom_some hb
      exact ⟨Nat.mod_lt _ (by decide), hlt, hclear, rfl⟩
    · have hrest := ih h
      exact hrest

/-- It ends without one only when all bits that it looks at are set, where it looks at whole blocks but for the first
one. -/
theorem search_none (h : Imap.search n i m = (none, m')) : m'.iMapBlock = m.iMapBlock ∧
    ∀ j < n, (m.nextImapBlockFreeBitNo = -1 ∨ j ≠ 0) → ∀ bit < bpb,
      m.iMapBlock ((i + j) % imapblockNum) bit = true := by
  induction n generalizing i m with
  | zero =>
    cases h
    exact ⟨rfl, fun j hj => absurd hj (Nat.not_lt_zero _)⟩
  | succ n ih =>
    unfold Imap.search at h
    dsimp only at h
    split at h
    · cases h
    · next hb =>
      obtain ⟨hsame, hset⟩ := ih h
      refine ⟨hsame, fun j hj hcase bit hbit => ?_⟩
      cases j with
      | zero =>
        rw [hcase.resolve_right fun h => h rfl] at hb
        exact findBlockFreeBitNoStartFrom_none hb hbit
      | succ j =>
        have := hset j (by omega) (.inl rfl) bit hbit
        rwa [Nat.add_right_comm] at this

theorem test_eq (m : Imap) (hbit : bit < bpb) : m.test (bpb * i + bit) = m.iMapBlock i bit := by
  unfold Imap.test
  rw [Nat.mul_add_div (by decide), Nat.div_eq_of_lt hbit, Nat.add_zero, Nat.mul_add_mod, Nat.mod_eq_of_lt hbit]

theorem test_update (hbit : bit < bpb) {x : Bool} (h : m'.iMapBlock = update m.iMapBlock i
    (update (m.iMapBlock i) bit x)) :
    m'.test = update m.test (bpb * i + bit) x := by
  funext ino
  have hdiv := Nat.div_add_mod ino bpb
  unfold Imap.test
  rw [h]
  rcases eq_or_ne ino (bpb * i + bit) with rfl | hne
  · rw [update_self, Nat.mul_add_div (by decide), Nat.div_eq_of_lt hbit, Nat.add_zero, Nat.mul_add_mod,
      Nat.mod_eq_of_lt hbit, update_self, update_self]
  · rw [update_of_ne hne]
    rcases eq_or_ne (ino / bpb) i with rfl | hi
    · rw [update_self, update_of_ne fun heq => hne ?_]
      rw [← heq]
      exact hdiv.symm
    · rw [update_of_ne hi]

theorem getFreeInum_spec (m : Imap) : (m.getFreeInum.1 < imapblockNum * bpb ∧ m.test m.getFreeInum.1 = false ∧
      m.getFreeInum.2.test = update m.test m.getFreeInum.1 true) ∨
    m.getFreeInum.1 = 0 ∧ m.getFreeInum.2.test = m.test ∧ ∀ ino < imapblockNum * bpb, m.test ino = true := by
  unfold Imap.getFreeInum
  cases h : Imap.search (imapblockNum + 1) m.nextImapNo m with
  | mk found m' =>
    cases found with
    | some p =>
      obtain ⟨hblk, hbit, hclear, hsame⟩ := search_some h
      left
      dsimp only
      refine ⟨?_, ?_, ?_⟩
      · unfold imapblockNum at hblk ⊢
        unfold bpb bsize at hbit ⊢
        omega
      · rw [test_eq m hbit]
        exact hclear
      · exact test_update hbit (by rw [hsame]; rfl)
    | none =>
      obtain ⟨hsame, hset⟩ := search_none h
      refine .inr ⟨rfl, ?_, fun ino hino => ?_⟩
      · funext ino
        unfold Imap.test
        rw [hsame]
      -- The block is one of the last `imapblockNum` that were looked at.
      · have hblk : ino / bpb < imapblockNum := Nat.div_lt_of_lt_mul (by rwa [Nat.mul_comm] at hino)
        have hlast := hset ((ino / bpb + imapblockNum - m.nextImapNo % imapblockNum - 1) % imapblockNum + 1)
          (Nat.succ_lt_succ (Nat.mod_lt _ (by decide))) (.inr (Nat.succ_ne_zero _)) (ino % bpb)
            (Nat.mod_lt _ (by decide))
        have hidx : (m.nextImapNo + ((ino / bpb + imapblockNum - m.nextImapNo % imapblockNum - 1) % imapblockNum + 1)) %
            imapblockNum = ino / bpb := by
          generalize ino / bpb = b at hblk ⊢
          unfold imapblockNum at hblk ⊢
          omega
        rwa [hidx] at hlast

/-! ## Runs -/

variable {s s' : Inums} {l : Inums.Label}

/-- A number is handed out as it should be: its bit was clear and is the only one that changes, it
is that of a slot of the inode table, which is in the region of the inodes, and no inode has it.
None is handed out only when there is none. -/
def Serves (s : Inums) : Prop :=
  if s.imap.getFreeInum.1 = 0 then
    s.imap.getFreeInum.2.test = s.imap.test ∧ ∀ ino < imapblockNum * bpb, s.imap.test ino = true
  else
    s.imap.test s.imap.getFreeInum.1 = false ∧
      s.imap.getFreeInum.2.test = Function.update s.imap.test s.imap.getFreeInum.1 true ∧
      s.imap.getFreeInum.1 < ninodes ∧
      (bsize / 512 * getInodeStartBlock ≤ calcSectorForInode s.imap.getFreeInum.1 ∧
        calcSectorForInode s.imap.getFreeInum.1 < bsize / 512 * getDataStartBlock) ∧
      s.imap.getFreeInum.1 ∉ s.live

/-- A number that `AllocateInode` may give. -/
def IsInode (ino : ℕ) : Prop := ino ≠ 0 ∧ ino < ninodes

/-- The bits of the inodes that are there are set, and those that are not of inodes. -/
structure Marked (s : Inums) : Prop where
  live (ino : ℕ) : ino ∈ s.live → IsInode ino ∧ s.imap.test ino = true
  rest (ino : ℕ) : ino < imapblockNum * bpb → ¬ IsInode ino → s.imap.test ino = true

theorem returnInode_test (m : Imap) (ino : ℕ) : (m.returnInode ino).test = update m.test ino false := by
  have h : (m.returnInode ino).test = update m.test (bpb * (ino / bpb) + ino % bpb) false :=
    test_update (Nat.mod_lt _ (by decide)) rfl
  rwa [Nat.div_add_mod] at h

theorem processInodeBitmapChange_eq (h : IsInode ino) : m.processInodeBitmapChange ino = m.returnInode ino := by
  have hblk : u64Sub (getImapForInode ino) getImapStartBlock = ino / bpb := by
    have hlt : ino / bpb < 4 := Nat.div_lt_of_lt_mul (lt_trans h.2 (by decide))
    unfold getImapForInode getImapStartBlock u64Sub
    generalize ino / bpb = blk at hlt ⊢
    rw [Nat.mod_eq_of_lt (by omega), if_pos (by omega)]
    omega
  unfold Imap.processInodeBitmapChange Imap.returnInode
  rw [hblk]

theorem Marked.free (h : Marked s) (hin : ino ∈ s.live) : Marked ⟨s.imap.returnInode ino, s.live.erase ino⟩ where
  live x hx := by
    obtain ⟨hne, hx⟩ := Finset.mem_erase.1 hx
    refine ⟨(h.live x hx).1, ?_⟩
    rw [returnInode_test, update_of_ne hne]
    exact (h.live x hx).2
  rest x hlt hx := by
    have hne : x ≠ ino := by
      rintro rfl
      exact hx (h.live x hin).1
    rw [returnInode_test, update_of_ne hne]
    exact h.rest x hlt hx

theorem sector_bounds (h : ino < ninodes) : bsize / 512 * getInodeStartBlock ≤ calcSectorForInode ino ∧
    calcSectorForInode ino < bsize / 512 * getDataStartBlock := by
  have hstart : bsize / 512 * getInodeStartBlock + ninodes < 2 ^ 32 := by decide
  have hend : bsize / 512 * getInodeStartBlock + ninodes ≤ bsize / 512 * getDataStartBlock := by decide
  unfold calcSectorForInode
  rw [Nat.mod_eq_of_lt (by omega)]
  omega

theorem Marked.serves (h : Marked s) : Serves s := by
  rcases getFreeInum_spec s.imap with ⟨hlt, hclear, htest⟩ | ⟨hzero, htest, hall⟩
  · have hino : IsInode s.imap.getFreeInum.1 := by
      by_contra hno
      rw [h.rest _ hlt hno] at hclear
      cases hclear
    rw [Serves, if_neg hino.1]
    refine ⟨hclear, htest, hino.2, sector_bounds hino.2, fun hin => ?_⟩
    rw [(h.live _ hin).2] at hclear
    cases hclear
  · rw [Serves, if_pos hzero]
    exact ⟨htest, hall⟩

theorem Marked.step (l : Inums.Label) (s s' : Inums) (h : Marked s) (hstep : Inums.step l s = some s') : Marked s' := by
  cases l with
  | getFreeInum =>
    have hs' : s' = ⟨s.imap.getFreeInum.2,
        if s.imap.getFreeInum.1 = 0 then s.live else insert s.imap.getFreeInum.1 s.live⟩ := (Option.some.inj hstep).symm
    rw [hs']
    have hserves := h.serves
    unfold Serves at hserves
    split at hserves
    · next hzero =>
      rw [if_pos hzero]
      refine ⟨fun x hx => ?_, fun x hlt hx => ?_⟩
      · rw [hserves.1]
        exact h.live x hx
      · rw [hserves.1]
        exact h.rest x hlt hx
    · next hne =>
      obtain ⟨-, htest, hlt, -, -⟩ := hserves
      rw [if_neg hne]
      have hset (x : ℕ) (hx : s.imap.test x = true) : s.imap.getFreeInum.2.test x = true := by
        rw [htest]
        rcases eq_or_ne x s.imap.getFreeInum.1 with rfl | hx'
        · exact update_self ..
        · rw [update_of_ne hx']
          exact hx
      refine ⟨fun x hx => ?_, fun x hlt hx => hset x (h.rest x hlt hx)⟩
      rcases Finset.mem_insert.1 hx with rfl | hx
      · refine ⟨⟨hne, hlt⟩, ?_⟩
        rw [htest]
        exact update_self ..
      · exact ⟨(h.live x hx).1, hset x (h.live x hx).2⟩
  | returnInode ino =>
    unfold Inums.step at hstep
    dsimp only at hstep
    split at hstep
    · next hin =>
      cases hstep
      exact h.free hin
    · cases hstep
  | processInodeBitmapChange ino =>
    unfold Inums.step at hstep
    dsimp only at hstep
    split at hstep
    · next hin =>
      cases hstep
      rw [processInodeBitmapChange_eq (h.live ino hin).1]
      exact h.free hin
    · cases hstep

/-! ## A clear bit that is not that of an inode -/

/-- The inode numbers whose bit is clear. -/
def clearInodes (m : Imap) : Finset ℕ := (Finset.range ninodes).filter fun ino => m.test ino = false

theorem card_clearInodes_lt (hclear : m.test m.getFreeInum.1 = false)
    (htest : m.getFreeInum.2.test = update m.test m.getFreeInum.1 true) (hlt : m.getFreeInum.1 < ninodes) :
    (clearInodes m.getFreeInum.2).card < (clearInodes m).card := by
  refine Finset.card_lt_card (Finset.ssubset_iff_of_subset ?_ |>.2 ?_)
  · intro x hx
    obtain ⟨hrange, hx⟩ := Finset.mem_filter.1 hx
    refine Finset.mem_filter.2 ⟨hrange, ?_⟩
    rw [htest] at hx
    rcases eq_or_ne x m.getFreeInum.1 with rfl | hne
    · exact hclear
    · rwa [update_of_ne hne] at hx
  · refine ⟨m.getFreeInum.1, Finset.mem_filter.2 ⟨Finset.mem_range.2 hlt, hclear⟩, fun hx => ?_⟩
    rw [clearInodes, Finset.mem_filter, htest, update_self] at hx
    cases hx.2

theorem exists_not_serves (hlt : ino < imapblockNum * bpb) (hno : ¬ IsInode ino) (s : Inums)
    (hclear : s.imap.test ino = false) : ∃ ls s', run Inums.step ls s = some s' ∧ ¬ Serves s' := by
  induction hcard : (clearInodes s.imap).card using Nat.strong_induction_on generalizing s with
  | _ k ih =>
    by_cases hserves : Serves s
    · have hserves' := hserves
      unfold Serves at hserves'
      split at hserves'
      · rw [hserves'.2 ino hlt] at hclear
        cases hclear
      · next hne =>
        obtain ⟨hbit, htest, hinode, -, -⟩ := hserves'
        have hstep : Inums.step .getFreeInum s = some ⟨s.imap.getFreeInum.2, insert s.imap.getFreeInum.1 s.live⟩ := by
          unfold Inums.step
          dsimp only
          rw [if_neg hne]
        have hother : ino ≠ s.imap.getFreeInum.1 := by
          rintro rfl
          exact hno ⟨hne, hinode⟩
        have hstill : s.imap.getFreeInum.2.test ino = false := by
          rw [htest, update_of_ne hother]
          exact hclear
        obtain ⟨ls, s', hrun, hnot⟩ := ih (clearInodes s.imap.getFreeInum.2).card
          (hcard ▸ card_clearInodes_lt hbit htest hinode) ⟨s.imap.getFreeInum.2, insert s.imap.getFreeInum.1 s.live⟩
          hstill rfl
        exact ⟨.getFreeInum :: ls, s', run_cons_eq_some.2 ⟨_, hstep, hrun⟩, hnot⟩
    · exact ⟨[], s, rfl, hserves⟩

/-- For a bitmap with the bits of the inodes there are, and any cursor: whatever is handed out,
given back and deallocated, numbers are handed out as they should be if and only if all bits are set
that are not those of inodes. -/
theorem getFreeInum_serves_iff (m : Imap) (live : Finset ℕ) (hlive : ∀ ino ∈ live, IsInode ino ∧ m.test ino = true) :
    (∀ ls s, run Inums.step ls ⟨m, live⟩ = some s → Serves s) ↔ ∀ ino < imapblockNum * bpb, ¬ IsInode ino →
      m.test ino = true := by
  constructor
  · intro h ino hlt hno
    by_contra hclear
    obtain ⟨ls, s, hrun, hnot⟩ := exists_not_serves hlt hno ⟨m, live⟩ (by simpa using hclear)
    exact hnot (h ls s hrun)
  · intro h ls s hrun
    exact (run_inv' Marked.step hrun ⟨hlive, h⟩).serves

/-- A bitmap on which the root directory, whose number is 1, is the only inode, and the rest is set that should be. -/
def rootImap : Imap := ⟨fun blk nr => decide (bpb * blk + nr ≤ 1 ∨ ninodes ≤ bpb * blk + nr), 0, -1⟩

theorem rootImap_test (ino : ℕ) : rootImap.test ino = decide (ino ≤ 1 ∨ ninodes ≤ ino) := by
  unfold Imap.test rootImap
  dsimp only
  rw [Nat.div_add_mod]

theorem getFreeInum_serves_root : (∀ ino ∈ ({1} : Finset ℕ), IsInode ino ∧ rootImap.test ino = true) ∧
    ∀ ls s, run Inums.step ls ⟨rootImap, {1}⟩ = some s → Serves s := by
  have hlive : ∀ ino ∈ ({1} : Finset ℕ), IsInode ino ∧ rootImap.test ino = true := by
    intro ino hino
    rw [Finset.mem_singleton.mp hino, rootImap_test]
    exact ⟨⟨by decide, by decide⟩, by decide⟩
  refine ⟨hlive, (getFreeInum_serves_iff rootImap {1} hlive).mpr fun ino hlt hno => ?_⟩
  rw [rootImap_test, decide_eq_true_iff]
  by_contra h
  rw [not_or, not_le, not_le] at h
  exact hno ⟨by omega, h.2⟩

/-- The bitmap that `mkfs` writes, with the first two bits set. -/
def mkfsImap : Imap := ⟨fun blk nr => decide (bpb * blk + nr ≤ 1), 0, -1⟩

/-- From there numbers are handed out that are not those of inodes; and when all inodes are in use the next number is
not refused but is past the inode table. -/
theorem getFreeInum_past_table : (∃ ls s, run Inums.step ls ⟨mkfsImap, {1}⟩ = some s ∧ ¬ Serves s) ∧
    ∀ m : Imap, (∀ ino < imapblockNum * bpb, m.test ino = decide (ino < ninodes)) → ninodes ≤ m.getFreeInum.1 ∧
      m.getFreeInum.1 ≠ 0 := by
  have htest (ino : ℕ) : mkfsImap.test ino = decide (ino ≤ 1) := by
    unfold Imap.test mkfsImap
    dsimp only
    rw [Nat.div_add_mod]
  have hno : ¬ IsInode ninodes := fun h => absurd h.2 (Nat.lt_irrefl _)
  refine ⟨exists_not_serves (by decide) hno _ ?_, fun m hm => ?_⟩
  · rw [htest]
    decide
  · rcases getFreeInum_spec m with ⟨hlt, hclear, -⟩ | ⟨-, -, hall⟩
    · rw [hm _ hlt, decide_eq_false_iff_not, not_lt] at hclear
      exact ⟨hclear, Nat.ne_of_gt (lt_of_lt_of_le (by decide) hclear)⟩
    · have := hall ninodes (by decide)
      rw [hm _ (by decide)] at this
      simp at this

end Ufs.Proof.Inodes
