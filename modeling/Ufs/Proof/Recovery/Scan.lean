import Ufs.Proof.Entry.Codec
import Ufs.Proof.Recovery.Collect

/-!
# What the scan finds in a journal

The region that recovery scans is a list of items (`Laid`): entries whose commit block is on the
device, entries of which it has some blocks only, and blocks that hold nothing newer than the
checkpoint. In the place of a block that is not on the device is what was there before, most of the
time a block of an older entry (`WrittenEntry.stale`). The body of an entry is decoded before its
commit block is looked at; if its counts are those of an older block, it may be read past the blocks
of the entry. `scan_exact` puts what is found at the items together.
-/

namespace Ufs.Proof.Recovery

open Impl JournalIterator Entry Journal
open List

/-! ## A journal -/

/-- An entry as the server writes it, at the time `now`: its body, padded to whole blocks with what was
in the buffer, and the commit block over what was in its place. -/
structure WrittenEntry where
  je : JournalEntry
  pads : ℕ → Padding
  now : UInt64
  slack : List UInt8
  commitBuf : Block
  fits : je.calcBodySize ≤ kMaxJournalBodySize
  room : je.calcBodySize ≤ (je.nblocks.toNat - 1) * bsize
  nblocks_le : je.nblocks.toNat ≤ maxBlocks

namespace WrittenEntry

variable (e : WrittenEntry)

/-- The blocks of its slot. -/
def nblocks : ℕ := e.je.nblocks.toNat

/-- The bytes of its body blocks, with what is behind the body. -/
def body : List UInt8 := (e.je.serializeBody e.pads e.now).1 ++ e.slack

theorem length_serializeCommit (je : JournalEntry) (b : Block) : (je.serializeCommit b.1).length = bsize := by
  simp only [JournalEntry.serializeCommit, length_append, Codec.length_put, length_drop, b.2]
  rfl

/-- Its commit record. -/
def commitBlock : Block :=
  ⟨(e.je.serializeBody e.pads e.now).2.serializeCommit e.commitBuf.1, length_serializeCommit _ _⟩

/-- The `i`-th block of its slot. -/
def block (i : ℕ) : Block := if i + 1 < e.nblocks then padded (e.body.drop (i * bsize)) else e.commitBlock

/-- The blocks of its slot as they were written. -/
def blocks : List Block := (List.range e.nblocks).map e.block

/-- The blocks of an entry whose commit block is not on the device, with some blocks of its body. In
place of the others is what was there before. -/
def torn (written : ℕ → Bool) (older : ℕ → Block) : List Block :=
  (List.range e.nblocks).map fun i => if i + 1 < e.nblocks ∧ written i then e.block i else older i

end WrittenEntry

/-- What is in the region: blocks that hold nothing of the entries after the checkpoint, entries whose
commit block is on the device, and entries whose commit block is not, of which `behind` is what the
buffer has behind their blocks when they are decoded. -/
inductive Item where
  | old (b : Block)
  | committed (e : WrittenEntry)
  | uncommitted (e : WrittenEntry) (written : ℕ → Bool) (older : ℕ → Block) (behind : List UInt8)

namespace Item

/-- The blocks that an item takes. -/
def blocks : Item → List Block
  | old b => [b]
  | committed e => e.blocks
  | uncommitted e written older _ => e.torn written older

/-- The entries that a scan finds in an item. -/
def entries : Item → List JournalEntry
  | committed e => [readBack e.je e.now]
  | old _ | uncommitted _ _ _ _ => []

/-- The entries are newer than the checkpoint `last`. -/
def Live (last : ℕ) : Item → Prop
  | old _ => True
  | committed e | uncommitted e _ _ _ => last < e.now.toNat

/-- `bs` is what the buffer has behind the item. -/
def HasBehind (bs : List UInt8) : Item → Prop
  | old _ | committed _ => True
  | uncommitted _ _ _ behind => behind = bs

end Item

/-- The items are the region, in ring order from its tail. No item goes past the end of the ring. -/
def Laid (dev : Device) : List Item → JSuper → Prop
  | [], j => j.djsuper.nUsed = 0
  | x :: xs, j => x.blocks.length ≤ j.djsuper.nUsed ∧ x.blocks.length ≤ tillEnd j ∧
      straight dev j x.blocks.length = x.blocks ∧ x.HasBehind (behindAt dev j) ∧
      Laid dev xs (j.releaseFirstNSlots x.blocks.length)

/-! ## The conditions -/

/-- A block that looks like the commit block of an entry newer than the checkpoint `last`. -/
def FreshCommit (last : ℕ) (b : List UInt8) : Prop := wordAt b 0 = jcommitMagic.toNat ∧ last < wordAt b 8

/-- No block looks like a header newer than the checkpoint but the first block of an entry, and none like
a commit block in the place of one. -/
def Item.NoLookAlike (last : ℕ) : Item → Prop
  | .old b => ¬ FreshHeader last b.1
  | .committed _ => True
  | .uncommitted e written older _ =>
    if written 0 then ¬ FreshCommit last (older (e.nblocks - 1)).1
    else ∀ b ∈ e.torn written older, ¬ FreshHeader last b.1

/-- The body of an entry that is not committed is decoded inside the buffer, if the first of its blocks
is on the device. -/
def Item.TornFits : Item → Prop
  | .old _ | .committed _ => True
  | .uncommitted e written older behind => written 0 = true →
    (headerOf (e.block 0).1).deserializeBody (bytes (e.torn written older) ++ behind)
      (e.nblocks * bsize) ≠ .error .outOfBounds

/-! ## The blocks of an entry -/

section

variable (e : WrittenEntry)

theorem WrittenEntry.two_le : 2 ≤ e.nblocks := by
  have h := e.room
  have h48 : 48 ≤ e.je.calcBodySize := Nat.le_add_right _ _
  by_contra hlt
  have h0 : e.je.nblocks.toNat - 1 = 0 := by
    unfold WrittenEntry.nblocks at hlt
    omega
  rw [h0, Nat.zero_mul] at h
  omega

theorem WrittenEntry.exists_nblocks : ∃ n, e.nblocks = n + 1 :=
  Nat.exists_eq_succ_of_ne_zero (Nat.ne_of_gt (Nat.lt_of_lt_of_le Nat.zero_lt_two e.two_le))

theorem takeD_add (n m : ℕ) (bs : List UInt8) : bs.takeD (n + m) 0 = bs.takeD n 0 ++ (bs.drop n).takeD m 0 := by
  induction n generalizing bs with
  | zero => rw [Nat.zero_add, drop_zero]; rfl
  | succ n ih =>
    rw [Nat.succ_add]
    show bs.headD 0 :: bs.tail.takeD (n + m) 0 = bs.headD 0 :: (bs.tail.takeD n 0 ++ _)
    rw [ih, drop_tail]

theorem bytes_padded (n : ℕ) (bs : List UInt8) : bytes ((List.range n).map fun i => padded (bs.drop (i * bsize))) =
    bs.takeD (n * bsize) 0 := by
  induction n generalizing bs with
  | zero => rw [Nat.zero_mul]; rfl
  | succ n ih =>
    have hmap : (List.range n).map (fun i => padded (bs.drop ((i + 1) * bsize))) =
        (List.range n).map fun i => padded ((bs.drop bsize).drop (i * bsize)) :=
      map_congr_left fun i _ => by rw [drop_drop, Nat.succ_mul, Nat.add_comm]
    rw [range_succ_eq_map, map_cons, map_map, bytes_cons, Nat.succ_mul, Nat.add_comm, takeD_add, ← ih, ← hmap,
      Nat.zero_mul]
    rfl

theorem WrittenEntry.bytes_blocks : ∃ rest, bytes e.blocks = (e.je.serializeBody e.pads e.now).1 ++ rest := by
  have hbody : (List.range (e.nblocks - 1)).map e.block = (List.range (e.nblocks - 1)).map fun i =>
    padded (e.body.drop (i * bsize)) := by
    refine map_congr_left fun i hi => if_pos ?_
    have := mem_range.1 hi
    omega
  have hblocks : e.blocks = (List.range (e.nblocks - 1)).map e.block ++ [e.block (e.nblocks - 1)] := by
    unfold WrittenEntry.blocks
    obtain ⟨n, hn⟩ := e.exists_nblocks
    rw [hn, range_succ, map_append]
    rfl
  have hlen : e.body.take e.je.calcBodySize = (e.je.serializeBody e.pads e.now).1 :=
    take_left' (length_serializeBody _ _ _)
  have hle : e.je.calcBodySize ≤ e.body.length := by
    rw [WrittenEntry.body, length_append, length_serializeBody]
    omega
  obtain ⟨d, hd⟩ := Nat.exists_eq_add_of_le e.room
  refine ⟨(e.body.drop e.je.calcBodySize).takeD d 0 ++ bytes [e.block (e.nblocks - 1)], ?_⟩
  rw [hblocks, bytes, flatMap_append, hbody]
  show bytes _ ++ bytes _ = _
  rw [bytes_padded, WrittenEntry.nblocks, hd, takeD_add, takeD_eq_take _ hle, hlen, append_assoc]

theorem WrittenEntry.blocks_cons : ∃ bs, e.blocks = e.block 0 :: bs := by
  unfold WrittenEntry.blocks
  obtain ⟨n, hn⟩ := e.exists_nblocks
  rw [hn, range_succ_eq_map, map_cons]
  exact ⟨_, rfl⟩

@[simp] theorem WrittenEntry.length_blocks : e.blocks.length = e.nblocks := by simp [WrittenEntry.blocks]

theorem WrittenEntry.getLast_blocks : e.blocks.getLast? = some e.commitBlock := by
  have h2 := e.two_le
  unfold WrittenEntry.blocks
  rw [List.getLast?_map, List.getLast?_range, if_neg (by omega), Option.map_some, WrittenEntry.block, if_neg (by omega)]

theorem headerOf_of_parse {mem rest : List UInt8} {je : JournalEntry} (h48 : 48 ≤ mem.length)
    (hp : JournalEntry.new.parseJournalEntryHeader mem = .ok (je, rest)) (hs : je.state = .deserializedPartial) :
    headerOf mem = je ∧ wordAt mem 0 = jbodyMagic.toNat ∧ wordAt mem 16 ≤ kMaxJournalBodySize := by
  obtain ⟨hm, hsize⟩ := (parse_partial_iff hp).1 hs
  obtain ⟨_, hp'⟩ := parse_of_words h48 hm hsize
  rw [hp] at hp'
  cases hp'
  exact ⟨rfl, hm, hsize⟩

theorem WrittenEntry.header : headerOf (e.block 0).1 = ⟨.deserializedPartial, [], e.je.startBlock, e.je.nblocks,
    e.now⟩ ∧
    headerBlocks (e.block 0).1 = e.nblocks ∧ wordAt (e.block 0).1 0 = jbodyMagic.toNat ∧
    ∀ last, FreshHeader last (e.block 0).1 ↔ last < e.now.toNat := by
  obtain ⟨bs, hbs⟩ := e.blocks_cons
  obtain ⟨rest, hrest⟩ := e.bytes_blocks
  have hlen : (e.block 0).1.length = 4096 := (e.block 0).2
  have hword : ∀ off, off + 8 ≤ 48 → wordAt (bytes e.blocks) off = wordAt (e.block 0).1 off := by
    intro off hoff
    rw [hbs, bytes_cons]
    exact wordAt_append_left (by omega)
  have hparse := hrest ▸ parse_serializeBody e.fits rest
  have h48 : 48 ≤ (bytes e.blocks).length := by
    rw [hbs, bytes_cons, length_append]
    omega
  obtain ⟨hhead, hm, hsize⟩ := headerOf_of_parse h48 hparse rfl
  have hhead' : headerOf (e.block 0).1 = headerOf (bytes e.blocks) := by
    unfold headerOf
    rw [hword 8 (by omega), hword 32 (by omega), hword 40 (by omega)]
  have hstamp : wordAt (e.block 0).1 8 = e.now.toNat := by
    rw [← toNat_wordAt]
    exact congrArg (fun je => je.ustimeSerialized.toNat) (hhead'.trans hhead)
  refine ⟨hhead'.trans hhead, ?_, hword 0 (by omega) ▸ hm, fun last => ?_⟩
  · unfold headerBlocks
    rw [← toNat_wordAt]
    exact congrArg (fun je => je.nblocks.toNat) (hhead'.trans hhead)
  · unfold FreshHeader
    rw [← hword 0 (by omega), ← hword 16 (by omega), hstamp]
    exact ⟨fun h => h.2.2, fun h => ⟨hm, hsize, h⟩⟩

theorem WrittenEntry.commitOf : CommitOf (readBack e.je e.now) e.commitBlock.1 := by
  have h := isValidCommitBlock_serializeCommit (readBack e.je e.now) (e.je.serializeBody e.pads e.now).2 e.commitBuf.1
  have h' := (isValidCommitBlock_eq (readBack e.je e.now) e.commitBlock []).symm.trans h
  have hn : e.je.nIle = (readBack e.je e.now).nIle := by
    unfold JournalEntry.nIle readBack
    rw [length_map]
  rw [Except.ok.injEq, decide_eq_decide] at h'
  exact h'.2 ⟨rfl, hn, rfl, rfl⟩

end

theorem deserializeBody_ustime {b : List UInt8} {je : JournalEntry} {mem : List UInt8} {n : ℕ} (hlen : 32 ≤ mem.length)
    (h : (headerOf b).deserializeBody mem n = .ok je) : je.ustimeSerialized.toNat = wordAt b 8 := by
  have heq : (fresh (headerOf b)).deserializeBody mem n = _ := deserializeBody_eq hlen
  rw [show fresh (headerOf b) = headerOf b from rfl, h] at heq
  split_ifs at heq
  cases hiles : JournalEntry.deserializeIles (wordAt mem 24) (u64Sub (wordAt mem 16) 48) (mem.drop 48) [] with
  | error => rw [hiles] at heq; cases heq
  | ok iles =>
    rw [hiles] at heq
    cases heq
    exact toNat_wordAt b 8

/-! ## What is found -/

variable {xs : List Item} {x : Item}

section

variable {dev : Device} {B : ℕ} {j : JSuper}

theorem ahead_of_laid (hl : Laid dev (x :: xs) j) (hB : x.blocks.length ≤ B) :
    ∃ rest, ahead dev B j = x.blocks ++ rest := by
  obtain ⟨hu, he, hs, -⟩ := hl
  have hw : x.blocks.length ≤ window B j := by
    unfold window
    omega
  obtain ⟨rest, hrest⟩ := straight_prefix_of_le dev j hw
  exact ⟨rest, by rw [← hs]; exact hrest.symm⟩

theorem found_of_fresh {b c : Block} {bs rest : List Block} (ha : ahead dev B j = b :: bs ++ rest)
    (hf : FreshHeader j.getLastCheckpoint b.1) (hk : headerBlocks b.1 = (b :: bs).length)
    (hc : (b :: bs).getLast? = some c) : found dev B j = decoded (b :: bs).length c
        ((headerOf b.1).deserializeBody (bytes (b :: bs) ++ behindAt dev j) ((b :: bs).length * bsize)) := by
  unfold found
  rw [ha, cons_append, atCursor_of_fresh hf, ← cons_append, hk, take_left,
    if_neg (by rw [length_append]; omega), readEntry_eq hf hc]

theorem found_committed {e : WrittenEntry} {rest : List Block} (ha : ahead dev B j = e.blocks ++ rest)
    (hl : j.getLastCheckpoint < e.now.toNat) : found dev B j = .entry (readBack e.je e.now) e.nblocks := by
  obtain ⟨bs, hbs⟩ := e.blocks_cons
  obtain ⟨rest', hrest⟩ := e.bytes_blocks
  obtain ⟨hhead, hn, -, hfresh⟩ := e.header
  have hlen : (e.block 0 :: bs).length = e.nblocks := by rw [← hbs, e.length_blocks]
  have hdecode : (headerOf (e.block 0).1).deserializeBody (bytes (e.block 0 :: bs) ++ behindAt dev j)
    (e.nblocks * bsize) =
      .ok (readBack e.je e.now) := by
    rw [hhead, ← hbs, hrest, append_assoc]
    refine deserialize_serializeBody e.fits (rest' ++ behindAt dev j) (e.room.trans (Nat.mul_le_mul_right _ ?_))
    exact Nat.sub_le _ _
  rw [hbs] at ha
  rw [found_of_fresh ha ((hfresh _).2 hl) (hn.trans hlen.symm) (hbs ▸ e.getLast_blocks), hlen, hdecode]
  unfold decoded
  dsimp only
  rw [if_pos e.commitOf]

theorem release_release {a b : ℕ} (hr : InRing j) (h : a + b ≤ j.djsuper.nUsed) :
    (j.releaseFirstNSlots a).releaseFirstNSlots b = j.releaseFirstNSlots (a + b) := by
  have hu : u64Sub (u64Sub j.djsuper.nUsed a) b = u64Sub j.djsuper.nUsed (a + b) := by
    rw [u64Sub_of_le (a := j.djsuper.nUsed) (b := a) (by omega), u64Sub_of_le (by omega), u64Sub_of_le h]
    omega
  have hsmall := hr.small
  have htail := hr.tail
  have hle := hr.le
  have hlt := Nat.mod_lt (j.djsuper.tail + a) hr.pos
  have ht : u64Add (u64Add j.djsuper.tail a % j.djsuper.capacity) b % j.djsuper.capacity =
      u64Add j.djsuper.tail (a + b) % j.djsuper.capacity := by
    rw [u64Add_of_lt (a := j.djsuper.tail) (b := a) (by omega), u64Add_of_lt (by omega), u64Add_of_lt (by omega),
      Nat.mod_add_mod, Nat.add_assoc]
  have hun : u64Add (u64Add j.nblocksUnaccounted a) b = u64Add j.nblocksUnaccounted (a + b) := by
    simp only [u64Add, Nat.mod_add_mod, Nat.add_assoc]
  simp only [JSuper.releaseFirstNSlots, JSuper.unsafeNItemsDequeued, JSuper.addUnaccounted, hu, ht, hun]

theorem skips_stale {bs : List Block} (hne : bs ≠ []) (h : InRing j) (hB : 0 < B) (hu : bs.length ≤ j.djsuper.nUsed)
    (he : bs.length ≤ tillEnd j) (hs : straight dev j bs.length = bs)
      (hf : ∀ b ∈ bs, ¬ FreshHeader j.getLastCheckpoint b.1) :
    Skips dev B j (j.releaseFirstNSlots bs.length) := by
  induction bs generalizing j with
  | nil => exact absurd rfl hne
  | cons b bs ih =>
    rw [length_cons] at hu he hs
    have hn : j.djsuper.nUsed ≠ 0 := by omega
    have hfound : found dev B j = .skip 1 := by
      obtain ⟨cs, hcs⟩ := straight_cons dev j (window_pos h hB hn)
      obtain ⟨ds, hds⟩ := straight_cons dev j (Nat.succ_pos bs.length)
      rw [hds] at hs
      unfold found ahead
      rw [hcs, (List.cons.inj hs).1]
      exact atCursor_of_stale (hf b mem_cons_self)
    refine .skip hn hfound ?_
    rcases eq_or_ne bs [] with rfl | hbs
    · exact .refl _
    have hrest : straight dev (j.releaseFirstNSlots 1) bs.length = bs := by
      have hdrop := straight_drop dev h (Nat.succ_le_succ (Nat.zero_le bs.length)) he
      rw [hs] at hdrop
      exact hdrop.symm
    have hrel := ih hbs (h.release (by omega) (by omega)) (by rw [release_nUsed (by omega)]; omega)
      (tillEnd_release h (Nat.succ_le_succ (Nat.zero_le bs.length)) he) hrest
      fun b hb => hf b (mem_cons_of_mem _ hb)
    rwa [release_release h (by omega), Nat.add_comm] at hrel

/-- What is found at an item whose body, if it is torn, is decoded inside the buffer. -/
def ItemFound (dev : Device) (B : ℕ) (j : JSuper) (x : Item) : Prop :=
  x.entries = [] ∧ Skips dev B j (j.releaseFirstNSlots x.blocks.length) ∨
    ∃ je, x.entries = [je] ∧ found dev B j = .entry je x.blocks.length

theorem Item.length_blocks_pos (x : Item) : 0 < x.blocks.length := by
  cases x with
  | old b => exact Nat.zero_lt_one
  | committed e | uncommitted e =>
    have h2 := e.two_le
    simp only [Item.blocks, WrittenEntry.blocks, WrittenEntry.torn, length_map, length_range]
    omega

theorem Item.length_blocks_le (x : Item) : x.blocks.length ≤ maxBlocks := by
  cases x with
  | old b => exact (by decide : 1 ≤ maxBlocks)
  | committed e | uncommitted e =>
    simp only [Item.blocks, WrittenEntry.blocks, WrittenEntry.torn, length_map, length_range]
    exact e.nblocks_le

theorem found_torn {e : WrittenEntry} {written : ℕ → Bool} {older : ℕ → Block} {behind : List UInt8} {rest : List Block}
    (ha : ahead dev B j = e.torn written older ++ rest) (hbehind : behind = behindAt dev j)
      (hl : j.getLastCheckpoint < e.now.toNat)
    (hw : written 0 = true) (hc : ¬ FreshCommit j.getLastCheckpoint (older (e.nblocks - 1)).1) :
    ((Item.uncommitted e written older behind).TornFits → found dev B j = .skip e.nblocks) ∧
      (¬ (Item.uncommitted e written older behind).TornFits → found dev B j = .outOfBounds) := by
  have h2 := e.two_le
  obtain ⟨bs, hbs⟩ : ∃ bs, e.torn written older = e.block 0 :: bs := by
    unfold WrittenEntry.torn
    obtain ⟨n, hn⟩ := e.exists_nblocks
    rw [hn, range_succ_eq_map, map_cons, if_pos ⟨by omega, hw⟩]
    exact ⟨_, rfl⟩
  have hlast : (e.torn written older).getLast? = some (older (e.nblocks - 1)) := by
    unfold WrittenEntry.torn
    rw [List.getLast?_map, List.getLast?_range, if_neg (by omega), Option.map_some, if_neg (by omega)]
  have hlen : (e.torn written older).length = e.nblocks := by simp [WrittenEntry.torn]
  obtain ⟨-, hn, -, hfresh⟩ := e.header
  subst hbehind
  have hfound := found_of_fresh (hbs ▸ ha) ((hfresh _).2 hl) (by rw [hn, ← hlen, hbs]) (hbs ▸ hlast)
  rw [← hbs, hlen] at hfound
  have htorn : (Item.uncommitted e written older (behindAt dev j)).TornFits ↔
      (headerOf (e.block 0).1).deserializeBody (bytes (e.torn written older) ++ behindAt dev j) (e.nblocks * bsize) ≠
        .error .outOfBounds := forall_prop_of_true hw
  rw [hfound, htorn]
  cases hd : (headerOf (e.block 0).1).deserializeBody (bytes (e.torn written older) ++ behindAt dev j)
    (e.nblocks * bsize) with
  | error err =>
    cases err with
    | runtimeError what => exact ⟨fun _ => rfl, fun h => absurd nofun h⟩
    | outOfBounds => exact ⟨fun h => absurd rfl h, fun _ => rfl⟩
  | ok je =>
    refine ⟨fun _ => ?_, fun h => absurd nofun h⟩
    -- The stamp of what is in the place of the commit block is not that of the entry.
    have hlong : 32 ≤ (bytes (e.torn written older) ++ behindAt dev j).length := by
      rw [length_append, length_bytes, hlen]
      show 32 ≤ e.nblocks * 4096 + _
      omega
    have hstamp := deserializeBody_ustime hlong hd
    unfold decoded
    dsimp only
    rw [if_neg]
    intro hcommit
    refine hc ⟨hcommit.1, ?_⟩
    rw [hcommit.2.1, hstamp]
    exact ((hfresh _).2 hl).2.2

theorem itemFound (h : InRing j) (hB : maxBlocks ≤ B) (hlaid : Laid dev (x :: xs) j)
    (hlive : x.Live j.getLastCheckpoint) (hlook : x.NoLookAlike j.getLastCheckpoint) :
    (x.TornFits → ItemFound dev B j x) ∧ (¬ x.TornFits → found dev B j = .outOfBounds) := by
  obtain ⟨rest, ha⟩ := ahead_of_laid hlaid (x.length_blocks_le.trans hB)
  obtain ⟨hu, he, hs, hbehind, -⟩ := hlaid
  have hB' := pos_of_maxBlocks_le hB
  have hpos := x.length_blocks_pos
  cases x with
  | old b =>
    refine ⟨fun _ => .inl ⟨rfl, skips_stale (cons_ne_nil _ _) h hB' hu he hs ?_⟩, fun h => absurd trivial h⟩
    intro b' hb'
    rw [mem_singleton.1 hb']
    exact hlook
  | committed e =>
    refine ⟨fun _ => .inr ⟨_, rfl, ?_⟩, fun h => absurd trivial h⟩
    rw [found_committed ha hlive, Item.blocks, e.length_blocks]
  | uncommitted e written older behind =>
    have hlen : (Item.uncommitted e written older behind).blocks.length = e.nblocks := by
      simp [Item.blocks, WrittenEntry.torn]
    by_cases hw : written 0 = true
    · obtain ⟨hfits, hnot⟩ := found_torn ha hbehind hlive hw (by simpa [Item.NoLookAlike, hw] using hlook)
      refine ⟨fun htorn => .inl ⟨rfl, .skip (by omega) (hfits htorn) ?_⟩, hnot⟩
      rw [hlen]
      exact .refl _
    · have hlook : ∀ b ∈ e.torn written older, ¬ FreshHeader j.getLastCheckpoint b.1 := by
        simpa only [Item.NoLookAlike, if_neg hw] using hlook
      exact ⟨fun _ => .inl ⟨rfl, skips_stale (length_pos_iff.1 hpos) h hB' hu he hs hlook⟩, fun htorn =>
        absurd (fun h => absurd h hw) htorn⟩

end

/-! ## The scan -/

/-- What the scan returns until its iterator is empty is the committed entries, in the order of the
ring. -/
def ScanExact (dev : Device) (B : ℕ) (j : JSuper) (items : List Item) : Prop :=
  ∀ es, Collects dev (.ofJSuper j B) es ↔ es = items.flatMap Item.entries

section

variable {dev : Device} {B : ℕ} {last : ℕ}

theorem release_of_laid {j : JSuper} (h : InRing j) (hlaid : Laid dev (x :: xs) j) :
    InRing (j.releaseFirstNSlots x.blocks.length) := h.release hlaid.1 hlaid.2.1

section

variable (hB : maxBlocks ≤ B)

include hB

theorem finds_items (items : List Item) {j : JSuper} (h : InRing j)
    (hlast : j.getLastCheckpoint = last) (hlaid : Laid dev items j) (hlive : ∀ x ∈ items, x.Live last)
    (hlook : ∀ x ∈ items, x.NoLookAlike last) (htorn : ∀ x ∈ items, x.TornFits) :
    ∃ j', Finds dev B j (items.flatMap Item.entries) j' ∧ j'.djsuper.nUsed = 0 := by
  induction items generalizing j with
  | nil => exact ⟨j, .refl _, hlaid⟩
  | cons x xs ih =>
    obtain ⟨hx, hlive⟩ := forall_mem_cons.1 hlive
    obtain ⟨hlx, hlook⟩ := forall_mem_cons.1 hlook
    obtain ⟨htx, htorn⟩ := forall_mem_cons.1 htorn
    obtain ⟨j', hf, h0⟩ := ih (release_of_laid h hlaid) hlast hlaid.2.2.2.2 hlive hlook htorn
    refine ⟨j', ?_, h0⟩
    have hn : j.djsuper.nUsed ≠ 0 := by
      have := x.length_blocks_pos
      have := hlaid.1
      omega
    rw [flatMap_cons]
    rcases (itemFound h hB hlaid (hlast ▸ hx) (hlast ▸ hlx)).1 htx with ⟨he, hs⟩ | ⟨je, he, hfound⟩
    · rw [he]
      exact hs.finds hf
    · rw [he]
      exact .entry hn hfound hf

theorem tornFits_of_finds (items : List Item) {j j' : JSuper} {es : List JournalEntry}
    (h : InRing j) (hlast : j.getLastCheckpoint = last) (hlaid : Laid dev items j) (hlive : ∀ x ∈ items, x.Live last)
    (hlook : ∀ x ∈ items, x.NoLookAlike last) (hf : Finds dev B j es j') (h0 : j'.djsuper.nUsed = 0) :
      ∀ x ∈ items, x.TornFits := by
  induction items generalizing j es with
  | nil => exact nofun
  | cons x xs ih =>
    obtain ⟨hx, hlive⟩ := forall_mem_cons.1 hlive
    obtain ⟨hlx, hlook⟩ := forall_mem_cons.1 hlook
    have hn : j.djsuper.nUsed ≠ 0 := by
      have := x.length_blocks_pos
      have := hlaid.1
      omega
    obtain ⟨hfits, hnot⟩ := itemFound h hB hlaid (hlast ▸ hx) (hlast ▸ hlx)
    have htx : x.TornFits := by
      by_contra htorn
      obtain ⟨k, hk | ⟨je, hk⟩⟩ := hf.moves h0 hn
      · exact nomatch (hnot htorn).symm.trans hk
      · exact nomatch (hnot htorn).symm.trans hk
    refine forall_mem_cons.2 ⟨htx, ?_⟩
    rcases hfits htx with ⟨-, hs⟩ | ⟨je, -, hfound⟩
    · exact ih (release_of_laid h hlaid) hlast hlaid.2.2.2.2 hlive hlook (hs.finds_of hf h0)
    · obtain ⟨_, -, hrest⟩ := hf.of_entry h0 hn hfound
      exact ih (release_of_laid h hlaid) hlast hlaid.2.2.2.2 hlive hlook hrest

theorem scanExact_of_items {items : List Item} {j : JSuper} (h : InRing j)
    (hlaid : Laid dev items j) (hlive : ∀ x ∈ items, x.Live j.getLastCheckpoint)
    (hlook : ∀ x ∈ items, x.NoLookAlike j.getLastCheckpoint) (htorn : ∀ x ∈ items, x.TornFits) :
      ScanExact dev B j items := by
  obtain ⟨j', hf, h0⟩ := finds_items hB items h rfl hlaid hlive hlook htorn
  have hB' := pos_of_maxBlocks_le hB
  intro es
  rw [collects_iff (good_ofJSuper h B) hB']
  constructor
  · rintro ⟨j'', hf', h0'⟩
    exact hf'.eq_of_end hf h0' h0
  · rintro rfl
    exact ⟨j', hf, h0⟩

theorem tornFits_of_scanExact {items : List Item} {j : JSuper} (h : InRing j)
    (hlaid : Laid dev items j) (hlive : ∀ x ∈ items, x.Live j.getLastCheckpoint)
    (hlook : ∀ x ∈ items, x.NoLookAlike j.getLastCheckpoint) (hscan : ScanExact dev B j items) :
      ∀ x ∈ items, x.TornFits := by
  have hB' := pos_of_maxBlocks_le hB
  obtain ⟨j', hf, h0⟩ := (collects_iff (good_ofJSuper h B) hB').1 ((hscan _).2 rfl)
  exact tornFits_of_finds hB items h rfl hlaid hlive hlook hf h0

end

end

/-- The scan of a journal returns the committed entries exactly when the bodies that are torn are decoded
inside the buffer, if no block is taken for one that it is not. -/
theorem scan_exact (dev : Device) {sb B : ℕ} {dj : JSuperOnDisk} {items : List Item} (hB : maxBlocks ≤ B)
    (hv : validateJSuper sb (JSuper.ofDisk dj) = .ok ()) (hr : Scannable dj)
    (hlaid : Laid dev items (extended dj)) (hlive : ∀ x ∈ items, x.Live dj.lastChkptTs) :
    extendToUnaccountedRegion (JSuper.ofDisk dj) = .ok (extended dj) ∧
      ((∀ x ∈ items, x.NoLookAlike dj.lastChkptTs) ∧ (∀ x ∈ items, x.TornFits) →
      ScanExact dev B (extended dj) items) ∧ ((∀ x ∈ items, x.NoLookAlike dj.lastChkptTs) →
        ScanExact dev B (extended dj) items →
      ∀ x ∈ items, x.TornFits) := by
  rw [← extended_getLastCheckpoint dj] at hlive ⊢
  exact ⟨(extend_of_accepted hr.toSmall hv).1, fun h => scanExact_of_items hB hr.inRing hlaid hlive h.1 h.2,
    tornFits_of_scanExact hB hr.inRing hlaid hlive⟩

/-! ## Entries of earlier laps -/

/-- The first block and the commit block of an entry that is not newer than the checkpoint are not taken
for those of one that is. -/
theorem WrittenEntry.stale {e : WrittenEntry} {last : ℕ} (h : e.now.toNat ≤ last) :
    (¬ FreshHeader last (e.block 0).1 ∧ ¬ FreshCommit last (e.block 0).1) ∧
      ¬ FreshHeader last e.commitBlock.1 ∧ ¬ FreshCommit last e.commitBlock.1 := by
  have hmagic : jbodyMagic.toNat ≠ jcommitMagic.toNat := by decide
  obtain ⟨hcommit, hstamp, -⟩ := e.commitOf
  obtain ⟨-, -, hbody, hfresh⟩ := e.header
  refine ⟨⟨fun hf => ?_, fun hc => hmagic (hbody.symm.trans hc.1)⟩, fun hf => hmagic (hf.1.symm.trans hcommit),
    fun hc => ?_⟩
  · have := (hfresh last).1 hf
    omega
  · have hlt := hc.2
    rw [hstamp] at hlt
    exact absurd hlt (Nat.not_lt.2 h)

/-! ## Two journals -/

theorem exists_olds {dev : Device} {P : Block → Prop} {j : JSuper} (h : InRing j)
    (hP : ∀ i < j.djsuper.nUsed, P (dev (j.idxToBlockNo (j.djsuper.tail + i)))) :
      ∃ xs, Laid dev xs j ∧ ∀ x ∈ xs, ∃ b, x = .old b ∧ P b := by
  induction hN : j.djsuper.nUsed generalizing j with
  | zero => exact ⟨[], hN, nofun⟩
  | succ n ih =>
    have hend : 1 ≤ tillEnd j := by
      have := Nat.mod_lt j.djsuper.tail h.pos
      unfold tillEnd
      omega
    have hu : 1 ≤ j.djsuper.nUsed := by omega
    have hrest : ∀ i < (j.releaseFirstNSlots 1).djsuper.nUsed,
        P (dev ((j.releaseFirstNSlots 1).idxToBlockNo ((j.releaseFirstNSlots 1).djsuper.tail + i))) := by
      intro i hi
      rw [release_nUsed hu] at hi
      have hnext := hP (1 + i) (by omega)
      rw [← Nat.add_assoc, JSuper.idxToBlockNo, ← Nat.mod_add_mod] at hnext
      rw [JSuper.idxToBlockNo, release_tail h h.pos, release_capacity]
      exact hnext
    obtain ⟨xs, hlaid, hxs⟩ := ih (h.release hu hend) hrest (by rw [release_nUsed hu]; omega)
    exact ⟨.old (blockAt dev j) :: xs, ⟨hu, hend, rfl, trivial, hlaid⟩,
      forall_mem_cons.2 ⟨⟨_, rfl, hP 0 (by omega)⟩, hxs⟩⟩

theorem laid_journalOf (ts : ℕ) (x : Item) (hbehind : x.HasBehind
    (List.replicate ((32 - x.blocks.length) * bsize) 0)) : ∃ xs,
    Laid (journalOf x.blocks) (x :: xs) (extended (globalJSuper ts)) ∧
    ∀ y ∈ xs, y = .old (padded []) := by
  have hin := (scannable_globalJSuper ts).inRing
  have hlen := x.length_blocks_le
  have hmax : maxBlocks < kMaxUnaccountedBlocks := by decide
  have hused : kMaxUnaccountedBlocks ≤ (extended (globalJSuper ts)).djsuper.nUsed := by
    show kMaxUnaccountedBlocks ≤ 0 + (kMaxUnaccountedBlocks + _)
    omega
  have htail : (extended (globalJSuper ts)).djsuper.tail = 0 := rfl
  have hle := hin.le
  have hend : x.blocks.length ≤ tillEnd (extended (globalJSuper ts)) := by
    unfold tillEnd
    rw [htail, Nat.zero_mod]
    omega
  have hidx : (extended (globalJSuper ts)).idxToBlockNo 0 = (globalJSuper 0).jstartBlockno := by
    rw [JSuper.idxToBlockNo, Nat.zero_mod]
    rfl
  have hzeros : ∀ i < ((extended (globalJSuper ts)).releaseFirstNSlots x.blocks.length).djsuper.nUsed,
      journalOf x.blocks (((extended (globalJSuper ts)).releaseFirstNSlots x.blocks.length).idxToBlockNo
        (((extended (globalJSuper ts)).releaseFirstNSlots x.blocks.length).djsuper.tail + i)) = padded [] := by
    intro i hi
    rw [release_nUsed (by omega)] at hi
    rw [JSuper.idxToBlockNo, release_tail hin (by omega), release_capacity, Nat.mod_add_mod, htail, Nat.zero_add,
      Nat.mod_eq_of_lt (by omega)]
    exact journalOf_of_le (Nat.le_add_right _ _)
  obtain ⟨xs, hlaid, hxs⟩ := exists_olds (P := fun b => b = padded []) (hin.release (by omega) hend) hzeros
  refine ⟨xs, ⟨by omega, hend, ?_, hbehind, hlaid⟩, fun y hy => ?_⟩
  · apply ext_getElem
    · rw [length_straight]
    · intro i _ hi
      simp only [straight, getElem_map, getElem_range, htail]
      rw [hidx, journalOf_add, getD_eq_getElem _ _ hi]
  · obtain ⟨b, rfl, rfl⟩ := hxs y hy
    rfl

theorem oneExtentEntry_fits : oneExtentEntry.calcBodySize ≤ kMaxJournalBodySize ∧
    oneExtentEntry.calcBodySize ≤ (oneExtentEntry.nblocks.toNat - 1) * bsize ∧
      oneExtentEntry.nblocks.toNat ≤ maxBlocks := by decide +kernel

/-- An entry of two blocks. -/
def shortEntry (now : UInt64) : WrittenEntry :=
  ⟨oneExtentEntry, somePads, now, [], padded [], oneExtentEntry_fits.1, oneExtentEntry_fits.2.1,
    oneExtentEntry_fits.2.2⟩

theorem scan_exact_shortEntry : ∃ items, Laid (journalOf (shortEntry 9).blocks) items (extended (globalJSuper 0)) ∧
    items.flatMap Item.entries = [readBack oneExtentEntry 9] ∧
    ScanExact (journalOf (shortEntry 9).blocks) 32 (extended (globalJSuper 0)) items := by
  obtain ⟨xs, hlaid, hxs⟩ := laid_journalOf 0 (.committed (shortEntry 9)) trivial
  have holds : ∀ y ∈ xs, y.Live 0 ∧ y.NoLookAlike 0 ∧ y.TornFits ∧ y.entries = [] := by
    intro y hy
    rw [hxs y hy]
    exact ⟨trivial, not_freshHeader_zeros 0, trivial, rfl⟩
  have hlive : (9 : UInt64).toNat > 0 := by decide
  refine ⟨.committed (shortEntry 9) :: xs, hlaid, ?_, ?_⟩
  · rw [List.flatMap_cons, List.flatMap_eq_nil_iff.mpr fun y hy => (holds y hy).2.2.2]
    rfl
  · refine (scan_exact _ (Nat.le_refl _) (globalJSuper_accepted 0) (scannable_globalJSuper 0) hlaid
      (List.forall_mem_cons.mpr ⟨hlive, fun y hy => (holds y hy).1⟩)).2.1 ⟨?_, ?_⟩
    · exact List.forall_mem_cons.mpr ⟨trivial, fun y hy => (holds y hy).2.1⟩
    · exact List.forall_mem_cons.mpr ⟨trivial, fun y hy => (holds y hy).2.2.1⟩

theorem deserializeBody_of_not_itemsFit {b mem : List UInt8} {n : ℕ} (h : 56 ≤ mem.length) (hn : 48 ≤ n)
    (hm : wordAt mem 0 = jbodyMagic.toNat) (hu : wordAt mem 8 = wordAt b 8) (hle : wordAt mem 16 ≤ n)
    (hiles : wordAt mem 24 ≠ 0) (hsize : 56 ≤ wordAt mem 16) (hentry : wordAt (mem.drop 48) 0 ≤ wordAt mem 16 - 48)
    (hitems : ¬ ItemsFit (mem.drop 48)) : (headerOf b).deserializeBody mem n = .error .outOfBounds := by
  have hlen : 8 ≤ (mem.drop 48).length := by
    rw [length_drop]
    omega
  have hile : InodeLogEntry.ofBuf (wordAt mem 16 - 48) (mem.drop 48) = .error .outOfBounds := by
    rw [ofBuf_eq (.inr hlen), if_neg (by omega), if_neg (by omega)]
    exact (fieldsRead_fieldsOfBuf hlen).2 hitems
  have hustime : wordAt mem 8 = (headerOf b).ustimeSerialized.toNat := hu.trans (toNat_wordAt b 8).symm
  have hstate : (headerOf b).state = .deserializedPartial := rfl
  show (fresh (headerOf b)).deserializeBody mem n = _
  rw [deserializeBody_eq (by omega), if_neg (by omega), if_neg (not_not.2 hstate),
    if_neg (not_or.2 ⟨not_not.2 hm, not_not.2 hustime⟩), if_neg (by omega), u64Sub_of_le (by omega)]
  obtain ⟨k, hk⟩ := Nat.exists_eq_succ_of_ne_zero hiles
  rw [hk, JournalEntry.deserializeIles, if_neg (by omega), hile]
  rfl

/-- `n` extents. -/
def extents (n : ℕ) : List ((_ : UInt64) × ExtMapVal) :=
  (List.range n).map fun i => ⟨UInt64.ofNat i, ⟨1, 0, 1, true⟩⟩

theorem nodupKeys_extents {n : ℕ} (h : n ≤ 2 ^ 64) : (extents n).NodupKeys := by
  unfold extents List.NodupKeys
  rw [List.keys, map_map]
  refine List.Nodup.map_on (fun x hx y hy he => ?_) nodup_range
  have hx : x < UInt64.size := (mem_range.1 hx).trans_le h
  have hy : y < UInt64.size := (mem_range.1 hy).trans_le h
  have he : (UInt64.ofNat x).toNat = (UInt64.ofNat y).toNat := congrArg UInt64.toNat he
  rwa [UInt64.toNat_ofNat_of_lt' hx, UInt64.toNat_ofNat_of_lt' hy] at he

theorem nodupKeys_extents_long : (extents 164).NodupKeys := nodupKeys_extents (by decide)

/-- An entry of three blocks. -/
def longEntry : JournalEntry :=
  ⟨.prepare, [{ oneExtent with extAdd := ⟨extents 164, nodupKeys_extents_long⟩ }], 1000, 3, 0⟩

theorem longEntry_size : longEntry.calcBodySize = 4115 := by
  have hlen : (extents 164).length = 164 := by simp [extents]
  simp [longEntry, JournalEntry.calcBodySize, InodeLogEntry.calcSize, oneExtent, hlen]

theorem longEntry_fits : longEntry.calcBodySize ≤ kMaxJournalBodySize ∧
    longEntry.calcBodySize ≤ (longEntry.nblocks.toNat - 1) * bsize ∧ longEntry.nblocks.toNat ≤ maxBlocks := by
  rw [longEntry_size]
  decide

/-- The same, written. -/
def writtenLong : WrittenEntry :=
  ⟨longEntry, somePads, 6, [], padded [], longEntry_fits.1, longEntry_fits.2.1, longEntry_fits.2.2⟩

/-- Only its first block is on the device. In place of the others are the two blocks of an entry that was
checkpointed at the time 5. It is at the start of a buffer of 32 blocks, with zeros behind it. -/
def tornLong : Item := .uncommitted writtenLong (fun i => i == 0) (fun i => (shortEntry 5).block (i - 1))
  (List.replicate (29 * bsize) 0)

/-- The words that the decoding of the torn entry comes to: the number of extents to delete is taken from
the old entry. -/
theorem tornLong_words :
    wordAt (bytes tornLong.blocks) 0 = jbodyMagic.toNat ∧
    wordAt (bytes tornLong.blocks) 8 = wordAt (writtenLong.block 0).1 8 ∧
    wordAt (bytes tornLong.blocks) 16 = 4115 ∧ wordAt (bytes tornLong.blocks) 24 = 1 ∧
    wordAt ((bytes tornLong.blocks).drop 48) 0 = 4067 ∧
    nExtAdd ((bytes tornLong.blocks).drop 48) = 164 ∧
    32 * 4096 < nExtDel ((bytes tornLong.blocks).drop 48) := by
  decide +kernel

theorem not_tornFits_tornLong : ¬ tornLong.TornFits := by
  obtain ⟨hm, hu, hsize, hiles, hentry, hadd, hdel⟩ := tornLong_words
  have hlen : (bytes tornLong.blocks).length = 3 * 4096 := length_bytes _
  have hfits : tornLong.TornFits ↔ (headerOf (writtenLong.block 0).1).deserializeBody
      (bytes tornLong.blocks ++ List.replicate (29 * 4096) 0) (3 * 4096) ≠ .error .outOfBounds :=
    forall_prop_of_true rfl
  rw [hfits, not_not]
  generalize bytes tornLong.blocks = mem at *
  generalize hzeros : List.replicate (29 * 4096) (0 : UInt8) = zeros
  have hlen' : zeros.length = 29 * 4096 := by rw [← hzeros, length_replicate]
  have hdrop : (mem ++ zeros).drop 48 = mem.drop 48 ++ zeros := drop_append_of_le_length (by omega)
  have hword : ∀ off, off + 8 ≤ 3 * 4096 → wordAt (mem ++ zeros) off = wordAt mem off := fun off hoff =>
    wordAt_append_left (by omega)
  have hword' : ∀ off, off + 8 ≤ 3 * 4096 - 48 →
      wordAt (mem.drop 48 ++ zeros) off = wordAt (mem.drop 48) off := fun off hoff =>
    wordAt_append_left (by rw [length_drop]; omega)
  have hadd' : nExtAdd (mem.drop 48 ++ zeros) = nExtAdd (mem.drop 48) := hword' _ (by decide)
  have hdel' : nExtDel (mem.drop 48 ++ zeros) = nExtDel (mem.drop 48) := by
    unfold nExtDel
    rw [hadd']
    exact hword' _ (by omega)
  have hitems : ¬ ItemsFit ((mem ++ zeros).drop 48) := by
    unfold ItemsFit
    rw [hdrop, hdel', length_append, length_drop]
    omega
  refine deserializeBody_of_not_itemsFit (by rw [length_append]; omega) (by omega) ?_ ?_ ?_ ?_ ?_ ?_ hitems
  · rw [hword 0 (by omega), hm]
  · rw [hword 8 (by omega), hu]
  · rw [hword 16 (by omega)]
    omega
  · rw [hword 24 (by omega)]
    omega
  · rw [hword 16 (by omega)]
    omega
  · rw [hdrop, hword' 0 (by omega), hword 16 (by omega)]
    omega

/-- The scan reads past the buffer that the torn entry is in. -/
theorem scan_past_torn : ∃ items, Laid (journalOf tornLong.blocks) items (extended (globalJSuper 5)) ∧
    (∀ x ∈ items, x.Live 5 ∧ x.NoLookAlike 5) ∧
    ¬ ScanExact (journalOf tornLong.blocks) 32 (extended (globalJSuper 5)) items := by
  obtain ⟨xs, hlaid, hxs⟩ := laid_journalOf 5 tornLong rfl
  have hitems : ∀ x ∈ tornLong :: xs, x.Live 5 ∧ x.NoLookAlike 5 := by
    refine List.forall_mem_cons.mpr ⟨⟨show 5 < (6 : UInt64).toNat by decide, ?_⟩, fun y hy => ?_⟩
    · exact (WrittenEntry.stale (by decide)).2.2
    · rw [hxs y hy]
      exact ⟨trivial, not_freshHeader_zeros 5⟩
  refine ⟨_, hlaid, hitems, fun hscan => ?_⟩
  exact not_tornFits_tornLong (tornFits_of_scanExact (Nat.le_refl _) (scannable_globalJSuper 5).inRing hlaid
    (fun x hx => (hitems x hx).1) (fun x hx => (hitems x hx).2) hscan tornLong List.mem_cons_self)

end Ufs.Proof.Recovery
