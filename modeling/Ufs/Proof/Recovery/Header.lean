import Ufs.Impl.JournalIterator
import Ufs.Proof.Entry.Bounds

/-!
# What the iterator finds at its cursor

By the words of the blocks at the cursor: a block that is not a header of an entry
newer than the checkpoint (`FreshHeader`) is skipped (`atCursor_of_stale`); at one
that is, the iterator needs the blocks that the header counts (`atCursor_of_fresh`),
decodes the body, and wants the commit block of the same entry in the last of them
(`CommitOf`, `readEntry_eq`). It ends the process if the header counts no block
or the body is read past the buffer.
-/

namespace Ufs.Proof.Recovery

open Codec Impl JournalIterator Entry
open List

/-- A block that looks like the first one of an entry newer than the checkpoint `last`. -/
def FreshHeader (last : ℕ) (b : List UInt8) : Prop :=
  wordAt b 0 = jbodyMagic.toNat ∧ wordAt b 16 ≤ kMaxJournalBodySize ∧ last < wordAt b 8

instance (last : ℕ) (b : List UInt8) : Decidable (FreshHeader last b) := inferInstanceAs (Decidable (_ ∧ _))

/-- The number of blocks that a header declares. -/
def headerBlocks (b : List UInt8) : ℕ := wordAt b 40

/-- The partial entry that a header is read as. -/
def headerOf (b : List UInt8) : JournalEntry :=
  ⟨.deserializedPartial, [], UInt64.ofNat (wordAt b 32), UInt64.ofNat (wordAt b 40), UInt64.ofNat (wordAt b 8)⟩

/-- The block is the commit record of the entry. -/
def CommitOf (je : JournalEntry) (b : List UInt8) : Prop :=
  wordAt b 0 = jcommitMagic.toNat ∧ wordAt b 8 = je.ustimeSerialized.toNat ∧ wordAt b 16 = je.nIle.toNat ∧
    wordAt b 24 = je.startBlock.toNat ∧ wordAt b 32 = je.nblocks.toNat

instance (je : JournalEntry) (b : List UInt8) : Decidable (CommitOf je b) := inferInstanceAs (Decidable (_ ∧ _))

/-- The bytes of the blocks in a row. -/
def bytes (blocks : List Block) : List UInt8 := blocks.flatMap Subtype.val

@[simp] theorem bytes_cons (b : Block) (bs : List Block) : bytes (b :: bs) = b.1 ++ bytes bs := List.flatMap_cons

@[simp] theorem length_bytes (blocks : List Block) : (bytes blocks).length = blocks.length * bsize := by
  induction blocks with
  | nil => rfl
  | cons b bs ih => rw [bytes_cons, List.length_append, b.2, ih, List.length_cons]; ring

theorem drop_bytes (blocks : List Block) (n : ℕ) : (bytes blocks).drop (n * bsize) = bytes (blocks.drop n) := by
  induction n generalizing blocks with
  | zero => rw [Nat.zero_mul, drop_zero, drop_zero]
  | succ n ih =>
    cases blocks with
    | nil => rw [drop_nil]; exact drop_nil
    | cons b bs =>
      rw [bytes_cons, drop_succ_cons, ← ih, Nat.succ_mul, Nat.add_comm, ← drop_drop, drop_left' b.2]

/-- A block that starts with `bs`, with zeros after it. -/
def padded (bs : List UInt8) : Block := ⟨bs.takeD bsize 0, List.takeD_length _ _ _⟩

theorem wordAt_append_left {a b : List UInt8} {off : ℕ} (h : off + 8 ≤ a.length) :
    wordAt (a ++ b) off = wordAt a off := by
  unfold wordAt
  rw [drop_append_of_le_length (by omega), take_append_of_le_length (by rw [length_drop]; omega)]

theorem toNat_wordAt (b : List UInt8) (off : ℕ) : (UInt64.ofNat (wordAt b off)).toNat = wordAt b off :=
  toNat_ofNat_word _

theorem FreshHeader.bytes_cons {last : ℕ} {b : Block} (bs : List Block) (behind : List UInt8)
    (h : FreshHeader last b.1) :
    FreshHeader last (bytes (b :: bs) ++ behind) ∧ headerOf (bytes (b :: bs) ++ behind) = headerOf b.1 := by
  have hlen : b.1.length = 4096 := b.2
  have hword : ∀ off, off + 8 ≤ 48 → wordAt (bytes (b :: bs) ++ behind) off = wordAt b.1 off := by
    intro off hoff
    rw [Recovery.bytes_cons, append_assoc]
    exact wordAt_append_left (by omega)
  unfold FreshHeader headerOf at *
  rw [hword 0 (by omega), hword 8 (by omega), hword 16 (by omega), hword 32 (by omega), hword 40 (by omega)]
  exact ⟨h, rfl⟩

theorem parse_fresh {last : ℕ} {b : List UInt8} (hlen : 48 ≤ b.length) (h : FreshHeader last b) :
    ∃ rest, JournalEntry.new.parseJournalEntryHeader b = .ok (headerOf b, rest) :=
  parse_of_words hlen h.1 h.2.1

theorem isJournalHeaderValid_iff {last : ℕ} {b : Block} {je : JournalEntry} {rest : List UInt8}
    (h : JournalEntry.new.parseJournalEntryHeader b.1 = .ok (je, rest)) :
      isJournalHeaderValid last je = true ↔ FreshHeader last b.1 := by
  have hlen : b.1.length = 4096 := b.2
  simp only [isJournalHeaderValid, Bool.and_eq_true, decide_eq_true_eq, parse_partial_iff h, FreshHeader, and_assoc]
  refine and_congr_right fun hm => and_congr_right fun hs => ?_
  obtain ⟨_, hp⟩ := parse_of_words (by omega) hm hs
  rw [h] at hp
  cases hp
  rw [toNat_wordAt]

theorem not_freshHeader_zeros (last : ℕ) : ¬ FreshHeader last (padded []).1 := fun h =>
  absurd h.1 (by decide +kernel)

section

variable {last : ℕ} {b : Block} {bs : List Block} {behind : List UInt8}

theorem parse_block (b : Block) : ∃ r, JournalEntry.new.parseJournalEntryHeader b.1 = .ok r := by
  have hlen : b.1.length = 4096 := b.2
  exact parse_ok_iff.2 ⟨by omega, fun _ => ⟨by omega, fun _ => by omega⟩⟩

theorem atCursor_of_stale (h : ¬ FreshHeader last b.1) : atCursor last behind (b :: bs) = .skip 1 := by
  obtain ⟨⟨je, rest⟩, hp⟩ := parse_block b
  simp only [atCursor, hp]
  rw [if_pos]
  rw [Bool.not_eq_true', ← Bool.not_eq_true, isJournalHeaderValid_iff hp]
  exact h

theorem atCursor_of_fresh (h : FreshHeader last b.1) : atCursor last behind (b :: bs) = if (b :: bs).length <
    headerBlocks b.1 then .refill
    else readEntry (headerBlocks b.1) (bytes ((b :: bs).take (headerBlocks b.1)) ++ behind) := by
  have hlen : b.1.length = 4096 := b.2
  obtain ⟨rest, hp⟩ := parse_fresh (by omega) h
  have hn : (headerOf b.1).nblocks.toNat = headerBlocks b.1 := toNat_wordAt _ _
  simp only [atCursor, hp]
  rw [if_neg, hn]
  · rfl
  · rw [Bool.not_eq_true', ← Bool.not_eq_true, not_not, isJournalHeaderValid_iff hp]
    exact h

end

theorem takes_commitWords : Takes JournalEntry.commitWords .outOfBounds 40 fun bs =>
    (UInt64.ofNat (leNat (bs.take 8)), UInt64.ofNat (leNat ((bs.drop 8).take 8)),
      UInt64.ofNat (leNat ((bs.drop 16).take 8)), UInt64.ofNat (leNat ((bs.drop 24).take 8)),
        UInt64.ofNat (leNat ((bs.drop 32).take 8))) := by
  have h := takes_u64.bind fun magic => takes_u64.bind fun ustime => takes_u64.bind fun nIle =>
    takes_u64.bind fun startBlock => takes_u64.bind fun nblocks =>
      takes_pure DeserializeError.outOfBounds (magic, ustime, nIle, startBlock, nblocks)
  simp only [drop_drop] at h
  exact h

theorem isValidCommitBlock_eq (je : JournalEntry) (b : Block) (behind : List UInt8) :
    je.isValidCommitBlock (b.1 ++ behind) bsize = .ok (decide (CommitOf je b.1)) := by
  have hlen : b.1.length = 4096 := b.2
  have hword : ∀ off, off + 8 ≤ 40 → wordAt (b.1 ++ behind) off = wordAt b.1 off := fun off hoff =>
    wordAt_append_left (by omega)
  have hcommit : CommitOf je b.1 ↔ CommitOf je (b.1 ++ behind) := by
    unfold CommitOf
    rw [hword 0 (by omega), hword 8 (by omega), hword 16 (by omega), hword 24 (by omega), hword 32 (by omega)]
  have hdecide : decide (CommitOf je b.1) = decide (CommitOf je (b.1 ++ behind)) := decide_eq_decide.2 hcommit
  rw [hdecide]
  unfold JournalEntry.isValidCommitBlock
  rw [if_neg (by decide), takes_commitWords (b.1 ++ behind), if_pos (by rw [length_append]; omega)]
  show Except.ok _ = Except.ok _
  congr 1
  rw [Bool.eq_iff_iff]
  simp only [Bool.not_eq_true', Bool.or_eq_false_iff, bne_eq_false_iff_eq, decide_eq_true_eq, and_assoc, ofNat_word_eq]
  rfl

/-- What is made of the entry of `k` blocks whose body is decoded to `r`, with `c` in the place of its
commit block. -/
def decoded (k : ℕ) (c : Block) (r : Except DeserializeError JournalEntry) : AtCursor :=
  match r with
  | .error .outOfBounds => .outOfBounds
  | .error (.runtimeError _) => .skip k
  | .ok je => if CommitOf je c.1 then .entry je k else .skip k

theorem readEntry_eq {last : ℕ} {b c : Block} {bs : List Block} {behind : List UInt8} (h : FreshHeader last b.1)
    (hc : (b :: bs).getLast? = some c) :
    readEntry (b :: bs).length (bytes (b :: bs) ++ behind) = decoded (b :: bs).length c
      ((headerOf b.1).deserializeBody (bytes (b :: bs) ++ behind) ((b :: bs).length * bsize)) := by
  obtain ⟨hfresh, hhead⟩ := h.bytes_cons bs behind
  have hlen : (bytes (b :: bs)).length = (b :: bs).length * 4096 := length_bytes _
  obtain ⟨rest, hp⟩ := parse_fresh (by rw [length_append, hlen, length_cons]; omega) hfresh
  have hctor : JournalEntry.ofBuf (bytes (b :: bs) ++ behind) ((b :: bs).length * bsize) = .ok (headerOf b.1) := by
    unfold JournalEntry.ofBuf
    rw [if_neg, hp, hhead]
    · rfl
    · show ¬ (b :: bs).length * 4096 < 48
      rw [length_cons]
      omega
  have hlast : (bytes (b :: bs) ++ behind).drop (((b :: bs).length - 1) * bsize) = c.1 ++ behind := by
    rw [drop_append_of_le_length (by rw [length_bytes]; exact Nat.mul_le_mul_right _ (Nat.sub_le _ _)), drop_bytes,
      drop_length_sub_one (cons_ne_nil b bs)]
    rw [List.getLast?_eq_getLast_of_ne_nil (cons_ne_nil b bs), Option.some.injEq] at hc
    rw [hc, Recovery.bytes_cons]
    exact congrArg (· ++ behind) (append_nil _)
  simp only [readEntry, hctor, decoded]
  cases (headerOf b.1).deserializeBody (bytes (b :: bs) ++ behind) ((b :: bs).length * bsize) with
  | error e => cases e <;> rfl
  | ok je =>
    simp only [hlast, isValidCommitBlock_eq]
    by_cases hcommit : CommitOf je c.1
    · rw [if_pos hcommit, decide_eq_true hcommit]
    · rw [if_neg hcommit, decide_eq_false hcommit]

end Ufs.Proof.Recovery
