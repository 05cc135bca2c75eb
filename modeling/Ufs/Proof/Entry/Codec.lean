import Ufs.Impl.JournalEntry

/-!
# The format of journal entries

`journal_entry_round_trip`: what `serializeBody` writes is read back, whatever follows in the
buffer, and the commit block is valid for that entry and no other. Maps come back equal as maps
(`Same`). Every field is written and read by the same pair of functions (`reads_put`), and
`Reads.bind` follows the order of the fields. The loop over the entries moves by the size that each
computes of itself (`calcSize_restored`).
-/

namespace Ufs.Proof.Entry

open Impl Codec
open List (append_assoc append_nil length_append map_cons nil_append sum_cons)
open Reads (pure)
open InodeLogEntry (serializeFields calcSize serialize fieldsOfBuf ofBuf)
open UInt64 (ofNat toNat_ofNat_of_lt')
open JournalEntry (serializeIles deserializeIles serializeBody calcBodySize deserializeBody bodyHeader commitWords)

/-! ## The parts of an inode log entry -/

theorem reads_timeval (t : Timeval) : Reads getTimeval (putTimeval t) t := by
  rw [putTimeval, ← append_nil (put t.tvUsec)]
  exact (reads_put _ _).bind ((reads_put _ _).bind (pure _))

theorem reads_bool (b : Bool) : Reads (get DeserializeError.outOfBounds) [if b then 1 else 0]
    (if b then 1 else 0 : UInt8) := by
  cases b with
  | false => exact reads_put _ (0 : UInt8)
  | true => exact reads_put _ (1 : UInt8)

theorem reads_extMapVal (pad : Vector UInt8 3) (v : ExtMapVal) : Reads getExtMapVal (putExtMapVal pad v) v := by
  have hpad : Reads (take DeserializeError.outOfBounds 3) pad.toList pad.toList := by
    have h := reads_take DeserializeError.outOfBounds pad.toList
    rwa [Vector.length_toList] at h
  rw [putExtMapVal, ← append_nil pad.toList]
  simp only [append_assoc]
  refine (reads_put _ _).bind ((reads_put _ _).bind ((reads_put _ _).bind ((reads_bool _).bind (hpad.bind ?_))))
  obtain ⟨a, b, c, _ | _⟩ := v <;> exact pure _

theorem reads_extent (pad : UInt64 → Vector UInt8 3) (e : (_ : UInt64) × ExtMapVal) :
    Reads getExtent (putExtent pad e) e := by
  rw [putExtent, ← append_nil (putExtMapVal _ _)]
  exact (reads_put _ _).bind ((reads_extMapVal _ _).bind (pure _))

theorem reads_dependency (e : (_ : UInt64) × UInt64) : Reads getDependency (putDependency e) e := by
  rw [putDependency, ← append_nil (put e.2)]
  exact (reads_put _ _).bind ((reads_put _ _).bind (pure _))

@[simp] theorem length_putTimeval (t : Timeval) : (putTimeval t).length = 16 := by
  simp [putTimeval]

@[simp] theorem length_putExtent (pad : UInt64 → Vector UInt8 3) (e : (_ : UInt64) × ExtMapVal) :
    (putExtent pad e).length = 24 := by
  simp [putExtent, putExtMapVal]

@[simp] theorem length_putDependency (e : (_ : UInt64) × UInt64) : (putDependency e).length = 16 := by
  simp [putDependency]

theorem length_serializeFields (pad : Padding) (e : InodeLogEntry) :
    8 + (e.serializeFields pad).length = e.calcSize := by
  unfold serializeFields calcSize
  simp only [length_append, length_put, length_putTimeval, List.length_flatMap, length_putExtent,
    length_putDependency, width_uint8, width_uint16, width_uint32, width_uint64, List.map_const',
    List.sum_replicate_nat]
  omega

theorem length_serialize (pad : Padding) (e : InodeLogEntry) : (e.serialize pad).length = e.calcSize := by
  rw [serialize, length_append, length_put]
  exact length_serializeFields pad e

/-! ## An inode log entry -/

/-- The map that one gets by inserting the entries of `m` one by one. -/
def reread {ν : Type} (m : AList fun _ : UInt64 => ν) : AList fun _ : UInt64 => ν :=
  m.entries.foldl (fun m e => m.insert e.1 e.2) ∅

/-- What is read back of an inode log entry: the extent sequence number and the inode pointer are
not written. -/
def restored (e : InodeLogEntry) : InodeLogEntry :=
  { e with
    extAdd := reread e.extAdd
    extDel := reread e.extDel
    dependsOn := reread e.dependsOn
    extentSeqNo := none
    minode := none }

variable {ν : Type}

theorem length_reread (m : AList fun _ : UInt64 => ν) : (reread m).entries.length = m.entries.length :=
    (entries_foldl_perm m).length_eq

theorem lookup_reread (m : AList fun _ : UInt64 => ν) (k : UInt64) :
    (reread m).lookup k = m.lookup k := AList.perm_lookup (entries_foldl_perm m)

theorem calcSize_restored (e : InodeLogEntry) : (restored e).calcSize = e.calcSize := by
  unfold calcSize
  simp only [restored, length_reread]

variable {e : InodeLogEntry}

theorem toNat_length_of_lt (h : e.calcSize < 2 ^ 64) : (ofNat e.extAdd.entries.length).toNat = e.extAdd.entries.length ∧
    (ofNat e.extDel.entries.length).toNat = e.extDel.entries.length ∧
      (ofNat e.dependsOn.entries.length).toNat = e.dependsOn.entries.length := by
  unfold calcSize at h
  refine ⟨?_, ?_, ?_⟩ <;> exact toNat_ofNat_of_lt' (by simp only [UInt64.size]; omega)

theorem reads_map {pair : Reader DeserializeError ((_ : UInt64) × ν)}
    {bytes : (_ : UInt64) × ν → List UInt8} (h : ∀ e, Reads pair (bytes e) e) {m : AList fun _ : UInt64 => ν}
    {n : ℕ} (hn : n = m.entries.length) : Reads (readMap pair n ∅) (m.entries.flatMap bytes) (reread m) := by
  rw [hn]
  exact reads_readMap h m.entries ∅

theorem reads_serializeFields (pad : Padding) (hlt : e.calcSize < 2 ^ 64) :
    Reads fieldsOfBuf (e.serializeFields pad) (restored e) := by
  obtain ⟨hadd, hdel, hdep⟩ := toNat_length_of_lt hlt
  unfold fieldsOfBuf serializeFields
  rw [← append_nil (e.dependsOn.entries.flatMap putDependency)]
  simp only [append_assoc]
  refine (reads_put _ _).bind ((reads_put _ _).bind ((reads_put _ _).bind ((reads_put _ _).bind ?_)))
  refine (reads_put _ _).bind ((reads_put _ _).bind ((reads_put _ _).bind ((reads_put _ _).bind ?_)))
  refine (reads_timeval _).bind ((reads_timeval _).bind ((reads_timeval _).bind ?_))
  refine (reads_put _ _).bind ((reads_put _ _).bind ((reads_put _ _).bind ?_))
  refine (reads_put _ _).bind ((reads_map (reads_extent _) hadd).bind ?_)
  refine (reads_put _ _).bind ((reads_map (reads_extent _) hdel).bind ?_)
  refine (reads_put _ _).bind ((reads_map reads_dependency hdep).bind ?_)
  exact pure _

theorem reads_serialize (pad : Padding) {bufSize : ℕ} (h : e.calcSize ≤ bufSize)
    (hlt : e.calcSize < 2 ^ 64) : Reads (ofBuf bufSize) (e.serialize pad) (restored e) := by
  have h8 : ¬ bufSize < 8 := by
    unfold calcSize at h
    omega
  have hsize : ¬ bufSize < (ofNat (8 + (e.serializeFields pad).length)).toNat := by
    rw [length_serializeFields, toNat_ofNat_of_lt' hlt]
    omega
  unfold ofBuf serialize
  rw [if_neg h8]
  refine (reads_put _ _).bind ?_
  rw [if_neg hsize]
  exact reads_serializeFields pad hlt

/-- What is read back is the entry in all that is written of it: its fields, and its maps as maps. -/
structure Same (e e' : InodeLogEntry) : Prop where
  fields : e = { e' with
    extAdd := e.extAdd, extDel := e.extDel, dependsOn := e.dependsOn, extentSeqNo := e.extentSeqNo,
    minode := e.minode }
  extAdd : ∀ k, e'.extAdd.lookup k = e.extAdd.lookup k
  extDel : ∀ k, e'.extDel.lookup k = e.extDel.lookup k
  dependsOn : ∀ k, e'.dependsOn.lookup k = e.dependsOn.lookup k

theorem same_restored (e : InodeLogEntry) : Same e (restored e) :=
  ⟨rfl, lookup_reread _, lookup_reread _, lookup_reread _⟩

/-! ## A journal entry -/

theorem length_serializeIles (pads : ℕ → Padding) (es : List InodeLogEntry) :
    (serializeIles pads es).length = (es.map calcSize).sum := by
  induction es generalizing pads with
  | nil => rfl
  | cons e es ih =>
    rw [serializeIles, length_append, length_serialize, ih, map_cons, sum_cons]

theorem deserializeIles_serializeIles (pads : ℕ → Padding) (es : List InodeLogEntry) (rest : List UInt8)
    (ileVec : List InodeLogEntry) (hlt : (es.map calcSize).sum < 2 ^ 64) :
    deserializeIles es.length (es.map calcSize).sum (serializeIles pads es ++ rest) ileVec = .ok
      (ileVec ++ es.map restored) := by
  induction es generalizing pads ileVec with
  | nil => simp [deserializeIles]
  | cons e es ih =>
    rw [map_cons, sum_cons] at hlt ⊢
    have hpos : e.calcSize + (es.map calcSize).sum ≠ 0 := by
      unfold calcSize
      omega
    have hread := reads_serialize (pads 0) (Nat.le_add_right e.calcSize (es.map calcSize).sum)
      (by omega) (serializeIles (fun i => pads (i + 1)) es ++ rest)
    have hdrop : ∀ l, (e.serialize (pads 0) ++ l).drop e.calcSize = l := fun l => by
      rw [← length_serialize (pads 0) e, List.drop_left]
    rw [List.length_cons, deserializeIles, if_neg hpos, serializeIles, append_assoc, hread]
    show deserializeIles es.length (u64Sub _ (restored e).calcSize) (List.drop (restored e).calcSize _)
      (ileVec ++ [restored e]) = _
    rw [calcSize_restored, hdrop, u64Sub_of_le (Nat.le_add_right _ _), Nat.add_sub_cancel_left, ih _ _ (by omega),
      append_assoc, map_cons]
    rfl

/-- What is read back of a journal entry that was serialised at `now`. -/
def readBack (je : JournalEntry) (now : UInt64) : JournalEntry :=
  ⟨.deserialized, je.ileVec.map restored, je.startBlock, je.nblocks, now⟩

theorem length_serializeBody (je : JournalEntry) (pads : ℕ → Padding) (now : UInt64) :
    (je.serializeBody pads now).1.length = je.calcBodySize := by
  simp only [serializeBody, length_append, length_put, width_uint64, length_serializeIles, calcBodySize]

section

variable {je : JournalEntry} {pads : ℕ → Padding} {now : UInt64} (h : je.calcBodySize ≤ kMaxJournalBodySize)

include h

theorem entrySize_toNat : (ofNat (48 + (serializeIles pads je.ileVec).length)).toNat = je.calcBodySize := by
  have hlt : je.calcBodySize < 2 ^ 64 := Nat.lt_of_le_of_lt h (by decide)
  rw [length_serializeIles]
  exact toNat_ofNat_of_lt' hlt

theorem nIle_toNat : je.nIle.toNat = je.ileVec.length := by
  have hle : ∀ es : List InodeLogEntry, es.length ≤ (es.map calcSize).sum := by
    intro es
    induction es with
    | nil => rfl
    | cons e es ih =>
      rw [List.length_cons, map_cons, sum_cons]
      unfold calcSize at ih ⊢
      omega
  have := hle je.ileVec
  have hk : kMaxJournalBodySize = 126976 := rfl
  rw [calcBodySize] at h
  exact toNat_ofNat_of_lt' (by simp only [UInt64.size]; omega)

theorem parse_serializeBody (rest : List UInt8) : JournalEntry.new.parseJournalEntryHeader
    ((je.serializeBody pads now).1 ++ rest) =
      .ok (⟨.deserializedPartial, [], je.startBlock, je.nblocks, now⟩, serializeIles pads je.ileVec ++ rest) := by
  have hsize : ¬ kMaxJournalBodySize < (ofNat (48 + (serializeIles pads je.ileVec).length)).toNat := by
    rw [entrySize_toNat h]
    omega
  have hread : Reads JournalEntry.new.parseJournalEntryHeader
      (put jbodyMagic ++ (put now ++ (put (ofNat (48 + (serializeIles pads je.ileVec).length)) ++
        (put je.nIle ++ (put je.startBlock ++ (put je.nblocks ++ []))))))
      ⟨.deserializedPartial, [], je.startBlock, je.nblocks, now⟩ := by
    unfold JournalEntry.parseJournalEntryHeader
    refine (reads_put _ _).bind ?_
    rw [if_neg (not_not.2 rfl)]
    refine (reads_put _ _).bind ((reads_put _ _).bind ?_)
    rw [if_neg hsize]
    exact (reads_put _ _).bind ((reads_put _ _).bind ((reads_put _ _).bind (pure _)))
  rw [← hread]
  simp only [serializeBody, append_assoc, nil_append]

theorem deserialize_serializeBody (rest : List UInt8) {bufSize : ℕ} (hle : je.calcBodySize ≤ bufSize) :
    deserializeBody ⟨.deserializedPartial, [], je.startBlock, je.nblocks, now⟩
      ((je.serializeBody pads now).1 ++ rest) bufSize = .ok (readBack je now) := by
  have hnew : calcBodySize ⟨.deserializedPartial, [], je.startBlock, je.nblocks, now⟩ = 48 := rfl
  have hbody : je.calcBodySize = 48 + (je.ileVec.map calcSize).sum := rfl
  have hsum : (je.ileVec.map calcSize).sum < 2 ^ 64 := by
    have hk : kMaxJournalBodySize = 126976 := rfl
    omega
  have hread : Reads bodyHeader (put jbodyMagic ++ (put now ++
    (put (ofNat (48 + (serializeIles pads je.ileVec).length)) ++
        (put je.nIle ++ [])))) (jbodyMagic, now, _, je.nIle) :=
    (reads_put _ _).bind ((reads_put _ _).bind ((reads_put _ _).bind ((reads_put _ _).bind (pure _))))
  have hbuf : (je.serializeBody pads now).1 ++ rest = put jbodyMagic ++
    (put now ++ (put (ofNat (48 + (serializeIles pads je.ileVec).length)) ++
        (put je.nIle ++ []))) ++ (put je.startBlock ++ put je.nblocks ++ (serializeIles pads je.ileVec ++ rest)) := by
    simp only [serializeBody, append_assoc, nil_append]
  have hdrop : ((je.serializeBody pads now).1 ++ rest).drop 48 = serializeIles pads je.ileVec ++ rest := by
    rw [serializeBody, append_assoc]
    exact List.drop_left' (by simp)
  unfold deserializeBody
  rw [hnew, if_neg (by omega), if_neg (not_not.2 rfl), hdrop, hbuf, hread]
  show (if _ then _ else _) = _
  rw [if_neg (by simp), entrySize_toNat h, if_neg (by omega), nIle_toNat h, u64Sub_of_le (by omega), hbody,
    Nat.add_sub_cancel_left]
  dsimp only
  rw [deserializeIles_serializeIles pads _ rest _ hsum]
  rfl

end

/-- A commit block is valid for the entries that agree with it in the stamp, the number of inode
log entries and the blocks. -/
theorem isValidCommitBlock_serializeCommit (je other : JournalEntry) (block : List UInt8) :
    je.isValidCommitBlock (other.serializeCommit block) bsize = .ok (decide
      (other.ustimeSerialized = je.ustimeSerialized ∧ other.nIle = je.nIle ∧ other.startBlock = je.startBlock ∧
        other.nblocks = je.nblocks)) := by
  have hread : Reads commitWords (put jcommitMagic ++ (put other.ustimeSerialized ++
    (put other.nIle ++ (put other.startBlock ++
        (put other.nblocks ++ []))))) (jcommitMagic, _, _, _, _) :=
    (reads_put _ _).bind ((reads_put _ _).bind ((reads_put _ _).bind
      ((reads_put _ _).bind ((reads_put _ _).bind (pure _)))))
  have hbuf : other.serializeCommit block = put jcommitMagic ++ (put other.ustimeSerialized ++ (put other.nIle ++
      (put other.startBlock ++ (put other.nblocks ++ [])))) ++ block.drop 40 := by
    simp only [JournalEntry.serializeCommit, append_assoc, nil_append]
  rw [JournalEntry.isValidCommitBlock, if_neg (by decide), hbuf, hread]
  show Except.ok _ = _
  congr 1
  rw [Bool.eq_iff_iff]
  simp [and_assoc]

/-- An entry that fits is written in exactly the bytes that it computes, and read back from them:
with its stamp, its blocks and its inode log entries, in all that is written of these. Of all
commit blocks exactly those with its stamp, its blocks and its number of entries are
valid for it, its own among them. -/
theorem journal_entry_round_trip (je : JournalEntry) (pads : ℕ → Padding) (now : UInt64)
    (h : je.calcBodySize ≤ kMaxJournalBodySize) :
    (je.serializeBody pads now).1.length = je.calcBodySize ∧
      (∀ e ∈ je.ileVec, ∀ pad, (e.serialize pad).length = e.calcSize) ∧
    ∀ (rest : List UInt8) (bufSize : ℕ), je.calcBodySize ≤ bufSize → ∃ part left back,
      JournalEntry.new.parseJournalEntryHeader ((je.serializeBody pads now).1 ++ rest) = .ok (part, left) ∧
      part.deserializeBody ((je.serializeBody pads now).1 ++ rest) bufSize = .ok back ∧
      back.ustimeSerialized = now ∧ back.startBlock = je.startBlock ∧ back.nblocks = je.nblocks ∧
        List.Forall₂ Same je.ileVec back.ileVec ∧
      ∀ block : List UInt8, back.isValidCommitBlock ((je.serializeBody pads now).2.serializeCommit block) bsize =
        .ok true ∧
        ∀ other : JournalEntry, back.isValidCommitBlock (other.serializeCommit block) bsize = .ok (decide
          (other.ustimeSerialized = now ∧ other.nIle = je.nIle ∧ other.startBlock = je.startBlock ∧
            other.nblocks = je.nblocks)) := by
  have hn : (readBack je now).nIle = je.nIle := by
    simp only [JournalEntry.nIle, readBack, List.length_map]
  refine ⟨length_serializeBody je pads now, fun e _ pad => length_serialize pad e, fun rest bufSize hle => ?_⟩
  refine ⟨_, _, _, parse_serializeBody h rest, deserialize_serializeBody h rest hle, rfl, rfl, rfl, ?_,
    fun block => ⟨?_, fun other => ?_⟩⟩
  · simp only [readBack, List.forall₂_map_right_iff, List.forall₂_same]
    exact fun e _ => same_restored e
  · rw [isValidCommitBlock_serializeCommit, hn]
    exact congrArg Except.ok (decide_eq_true ⟨rfl, rfl, rfl, rfl⟩)
  · rw [isValidCommitBlock_serializeCommit, hn]
    rfl

/-- An entry of inode 3, which is in memory, with one extent added. -/
def oneExtent : InodeLogEntry where
  inode := 3
  syncID := 1
  optfieldBitarr := 0
  mode := 0
  uid := 0
  gid := 0
  blockCount := 0
  bitmapOp := 0
  dentryCount := 0
  nlink := 1
  size := 4096
  atime := ⟨0, 0⟩
  mtime := ⟨0, 0⟩
  ctime := ⟨0, 0⟩
  extentSeqNo := some 1
  extAdd := AList.singleton 7 ⟨1, 0, 1, true⟩
  extDel := ∅
  dependsOn := ∅
  minode := some 0

/-- A journal entry of two blocks with one inode. -/
def oneExtentEntry : JournalEntry := ⟨.prepare, [oneExtent], 1000, 2, 0⟩

/-- Padding bytes that are not zero. -/
def somePads (_ : ℕ) : Padding := ⟨fun _ => #v[1, 2, 3], fun _ => #v[4, 5, 6]⟩

theorem journal_entry_round_trip_oneExtent : oneExtentEntry.calcBodySize = 203 ∧ ∃ part left back,
    JournalEntry.new.parseJournalEntryHeader ((oneExtentEntry.serializeBody somePads 9).1 ++ []) = .ok (part, left) ∧
    part.deserializeBody ((oneExtentEntry.serializeBody somePads 9).1 ++ []) 4096 = .ok back ∧
    List.Forall₂ Same oneExtentEntry.ileVec back.ileVec := by
  obtain ⟨-, -, h⟩ := journal_entry_round_trip oneExtentEntry somePads 9 (by decide)
  obtain ⟨part, left, back, h₁, h₂, -, -, -, h₃, -⟩ := h [] 4096 (by decide)
  exact ⟨rfl, part, left, back, h₁, h₂, h₃⟩

/-- The two fields of an inode log entry that are not written are lost. -/
theorem minode_not_restored : oneExtentEntry.calcBodySize ≤ kMaxJournalBodySize ∧ ∃ part left back,
    JournalEntry.new.parseJournalEntryHeader ((oneExtentEntry.serializeBody somePads 9).1 ++ []) = .ok (part, left) ∧
    part.deserializeBody ((oneExtentEntry.serializeBody somePads 9).1 ++ []) 4096 = .ok back ∧
    back.ileVec.map InodeLogEntry.minode ≠ oneExtentEntry.ileVec.map InodeLogEntry.minode ∧
    back.ileVec.map InodeLogEntry.extentSeqNo ≠ oneExtentEntry.ileVec.map InodeLogEntry.extentSeqNo := by
  have hle : oneExtentEntry.calcBodySize ≤ kMaxJournalBodySize := by decide
  refine ⟨hle, _, _, _, parse_serializeBody hle [], deserialize_serializeBody hle [] (by decide), ?_, ?_⟩
  all_goals decide

end Ufs.Proof.Entry
