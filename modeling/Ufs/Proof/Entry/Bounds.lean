import Ufs.Impl.JournalEntry

/-!
# Decoding stays in bounds

What `ParseJournalEntryHeader`, `deserializeBody` and the `InodeLogEntry` constructor read of
arbitrary bytes. They are run on the bytes inside the declared size only, so that a read of any
other byte is `outOfBounds`. `decode_in_bounds_iff` gives, for each of them, the bytes on which it
stays in bounds. The sizes are checked from above only, and the number of items in the maps of an
inode log entry is not checked at all (`reads_past_the_body`).
-/

namespace Ufs.Proof.Entry

open Codec Impl
open InodeLogEntry (fieldsOfBuf ofBuf calcSize)
open JournalEntry (bodyHeader deserializeBody deserializeIles new)
open List

variable {mem : List UInt8}

/-- The 64-bit word at offset `off`. -/
def wordAt (mem : List UInt8) (off : ℕ) : ℕ := leNat ((mem.drop off).take 8)

/-- The declared size of a journal entry, at offset 16 of its body. -/
def jeSize (buf : List UInt8) : ℕ := wordAt buf 16

/-- The part of the buffer that the header declares. -/
def declared (buf : List UInt8) : List UInt8 := buf.take (jeSize buf)

/-! ## The properties -/

/-- The header is refused, or lies inside the declared size. -/
def HeaderInBounds (buf : List UInt8) : Prop :=
  ∃ je rest, JournalEntry.new.parseJournalEntryHeader buf = .ok (je, rest) ∧
    (je.state ≠ .deserializedPartial ∨ ∃ r, JournalEntry.new.parseJournalEntryHeader (declared buf) = .ok r)

/-- `remaining_buf_size` does not wrap in the loop of `deserializeBody`. -/
def NoWrap : ℕ → ℕ → List UInt8 → Prop
  | 0, _, _ => True
  | n + 1, remainingBufSize, ptr =>
    remainingBufSize ≠ 0 → ∀ ile rest, InodeLogEntry.ofBuf remainingBufSize ptr = .ok (ile, rest) →
      ile.calcSize ≤ remainingBufSize ∧ NoWrap n (remainingBufSize - ile.calcSize) (ptr.drop ile.calcSize)

/-- The checks of `deserializeBody` before its loop. -/
structure Accepted (je : JournalEntry) (buf : List UInt8) : Prop where
  size : 48 ≤ buf.length
  state : je.state = .deserializedPartial
  magic : wordAt buf 0 = jbodyMagic.toNat
  ustime : wordAt buf 8 = je.ustimeSerialized.toNat
  fits : jeSize buf ≤ buf.length

/-- `deserializeBody` reports an error in its checks, or reads inside the declared size, does not wrap
`remaining_buf_size`, and makes no more entries and items than fit in that size. -/
def BodyInBounds (je : JournalEntry) (buf : List UInt8) : Prop :=
  (¬ Accepted je buf ∧ ∃ what, je.deserializeBody buf buf.length = .error (.runtimeError what)) ∨
    je.deserializeBody (declared buf) buf.length ≠ .error .outOfBounds ∧ 48 ≤ jeSize buf ∧
      NoWrap (wordAt buf 24) (jeSize buf - 48) ((declared buf).drop 48) ∧
      ∀ je', je.deserializeBody (declared buf) buf.length = .ok je' → je'.calcBodySize ≤ jeSize buf

/-- The constructor reports an error, or reads inside the size it is given and makes no more items than fit
in it. -/
def IleInBounds (buf : List UInt8) : Prop :=
  InodeLogEntry.ofBuf buf.length buf ≠ .error .outOfBounds ∧
    ∀ ile rest, InodeLogEntry.ofBuf buf.length buf = .ok (ile, rest) → ile.calcSize ≤ buf.length

/-! ## The conditions -/

/-- The number of items that an inode log entry declares for its maps. -/
def nExtAdd (mem : List UInt8) : ℕ := wordAt mem 107

/-- The number of deleted extents in a serialised inode log entry. -/
def nExtDel (mem : List UInt8) : ℕ := wordAt mem (115 + 24 * nExtAdd mem)

/-- The number of inodes that it depends on. -/
def nDependsOn (mem : List UInt8) : ℕ := wordAt mem (123 + 24 * nExtAdd mem + 24 * nExtDel mem)

/-- The items that an inode log entry declares are inside `mem`. -/
def ItemsFit (mem : List UInt8) : Prop :=
  131 + 24 * nExtAdd mem + 24 * nExtDel mem + 16 * nDependsOn mem ≤ mem.length

/-- The buffer is shorter than the size it begins with, or than that word. -/
def Refused (mem : List UInt8) : Prop := mem.length < 8 ∨ mem.length < wordAt mem 0

/-- The keys of `n` items of `width` bytes at `off`. -/
def keysAt (mem : List UInt8) (off width n : ℕ) : List UInt64 :=
  (List.range n).map fun i => UInt64.ofNat (wordAt mem (off + width * i))

/-- The size of the inode log entry at the start of `mem`, by its different keys. -/
def ileSize (mem : List UInt8) : ℕ :=
  131 + 24 * (keysAt mem 115 24 (nExtAdd mem)).dedup.length +
    24 * (keysAt mem (123 + 24 * nExtAdd mem) 24 (nExtDel mem)).dedup.length +
    16 * (keysAt mem (131 + 24 * nExtAdd mem + 24 * nExtDel mem) 16 (nDependsOn mem)).dedup.length

/-- Each of the next `n` inode log entries has its items inside what is left of `mem`, up to one that is
refused. -/
def IlesFit : ℕ → List UInt8 → Prop
  | 0, _ => True
  | n + 1, mem => Refused mem ∨ ItemsFit mem ∧ IlesFit n (mem.drop (ileSize mem))

/-- The reads of the header stay inside the buffer. -/
def HeaderFits (buf : List UInt8) : Prop :=
  8 ≤ buf.length ∧ (wordAt buf 0 = jbodyMagic.toNat →
    24 ≤ buf.length ∧ (jeSize buf ≤ kMaxJournalBodySize → 48 ≤ jeSize buf ∧ 48 ≤ buf.length))

/-- If the header is accepted, the reads of the body stay inside the declared part. -/
def BodyFits (je : JournalEntry) (buf : List UInt8) : Prop :=
  Accepted je buf → 48 ≤ jeSize buf ∧ IlesFit (wordAt buf 24) ((declared buf).drop 48)

/-! ## The readers -/

theorem toNat_ofNat_word (bs : List UInt8) : (UInt64.ofNat (leNat (bs.take 8))).toNat = leNat (bs.take 8) := by
  rw [UInt64.toNat_ofNat']
  apply Nat.mod_eq_of_lt
  calc leNat (bs.take 8) < 256 ^ (bs.take 8).length := leNat_lt _
    _ ≤ 256 ^ 8 := Nat.pow_le_pow_right (by omega) (by rw [length_take]; omega)
    _ = 2 ^ 64 := by norm_num

theorem ofNat_word_eq {bs : List UInt8} {a : UInt64} : UInt64.ofNat (leNat (bs.take 8)) = a ↔
    leNat (bs.take 8) = a.toNat := by
  rw [← UInt64.toNat_inj, toNat_ofNat_word]

theorem wordAt_take {off n : ℕ} (h : off + 8 ≤ n) : wordAt (mem.take n) off = wordAt mem off := by
  unfold wordAt
  rw [drop_take, take_take, Nat.min_eq_left (by omega)]

theorem takes_u64 : Takes (get .outOfBounds : Reader DeserializeError UInt64) .outOfBounds 8
    fun bs => UInt64.ofNat (leNat (bs.take 8)) := takes_get _

theorem takes_u32 : Takes (get .outOfBounds : Reader DeserializeError UInt32) .outOfBounds 4
    fun bs => UInt32.ofNat (leNat (bs.take 4)) := takes_get _

theorem takes_u16 : Takes (get .outOfBounds : Reader DeserializeError UInt16) .outOfBounds 2
    fun bs => UInt16.ofNat (leNat (bs.take 2)) := takes_get _

theorem takes_u8 : Takes (get .outOfBounds : Reader DeserializeError UInt8) .outOfBounds 1 fun bs =>
    UInt8.ofNat (leNat (bs.take 1)) := takes_get _

theorem takes_timeval : ∃ v, Takes getTimeval .outOfBounds 16 v :=
  ⟨_, (takes_get _).bind fun _ => (takes_get _).bind fun _ => takes_pure _ _⟩

theorem takes_extMapVal : ∃ v, Takes getExtMapVal .outOfBounds 16 v :=
  ⟨_, (takes_get _).bind fun _ => (takes_get _).bind fun _ => (takes_get _).bind fun _ =>
    (takes_get _).bind fun _ => (takes_take _ 3).bind fun _ => takes_pure _ _⟩

theorem takes_extent : ∃ v, Takes getExtent .outOfBounds 24 v ∧ ∀ bs, (v bs).1 = UInt64.ofNat (leNat (bs.take 8)) := by
  obtain ⟨v, hv⟩ := takes_extMapVal
  exact ⟨_, (takes_get _).bind fun _ => hv.bind fun _ => takes_pure _ _, fun _ => rfl⟩

theorem takes_dependency : ∃ v, Takes getDependency .outOfBounds 16 v ∧ ∀ bs,
    (v bs).1 = UInt64.ofNat (leNat (bs.take 8)) :=
  ⟨_, (takes_get _).bind fun _ => (takes_get _).bind fun _ => takes_pure _ _, fun _ => rfl⟩

/-- What the fields of an inode log entry are read to, after its size. -/
def FieldsRead (mem : List UInt8) (r : Except DeserializeError (InodeLogEntry × List UInt8)) : Prop :=
  (ItemsFit mem → ∃ ile rest, r = .ok (ile, rest) ∧ ile.calcSize = ileSize mem) ∧
    (¬ ItemsFit mem → r = .error .outOfBounds)

theorem fieldsRead_short (h : mem.length < 131 + 24 * nExtAdd mem + 24 * nExtDel mem + 16 * nDependsOn mem) :
    FieldsRead mem (.error .outOfBounds) :=
  ⟨fun hf => absurd hf (Nat.not_le_of_lt h), fun _ => rfl⟩

theorem fieldsRead_fieldsOfBuf (h8 : 8 ≤ mem.length) : FieldsRead mem (fieldsOfBuf (mem.drop 8)) := by
  obtain ⟨_, htime⟩ := takes_timeval
  obtain ⟨_, hext, hextKey⟩ := takes_extent
  obtain ⟨_, hdep, hdepKey⟩ := takes_dependency
  have short : mem.length < 131 → FieldsRead mem (.error .outOfBounds) := fun h => fieldsRead_short (by omega)
  unfold fieldsOfBuf
  -- the fields of fixed width, up to offset 107
  refine takes_u64.run_bind h8 (fun h => short (by omega)) fun h => ?_
  refine takes_u64.run_bind h (fun h => short (by omega)) fun h => ?_
  refine takes_u32.run_bind h (fun h => short (by omega)) fun h => ?_
  refine takes_u32.run_bind h (fun h => short (by omega)) fun h => ?_
  refine takes_u32.run_bind h (fun h => short (by omega)) fun h => ?_
  refine takes_u32.run_bind h (fun h => short (by omega)) fun h => ?_
  refine takes_u32.run_bind h (fun h => short (by omega)) fun h => ?_
  refine takes_u32.run_bind h (fun h => short (by omega)) fun h => ?_
  refine htime.run_bind h (fun h => short (by omega)) fun h => ?_
  refine htime.run_bind h (fun h => short (by omega)) fun h => ?_
  refine htime.run_bind h (fun h => short (by omega)) fun h => ?_
  refine takes_u16.run_bind h (fun h => short (by omega)) fun h => ?_
  refine takes_u8.run_bind h (fun h => short (by omega)) fun h => ?_
  refine takes_u64.run_bind h (fun h => short (by omega)) fun h => ?_
  -- the maps, each after the number of its items
  refine takes_u64.run_bind h (fun h => short (by omega)) fun h => ?_
  rw [toNat_ofNat_word]
  show FieldsRead mem ((readMap getExtent (nExtAdd mem) ∅ >>= _) (mem.drop 115))
  refine readMap_run_bind hext h (fun h => fieldsRead_short (by omega)) fun h extAdd hadd => ?_
  refine takes_u64.run_bind h (fun h => fieldsRead_short (by omega)) fun h => ?_
  rw [toNat_ofNat_word]
  show FieldsRead mem ((readMap getExtent (nExtDel mem) ∅ >>= _) (mem.drop _))
  refine readMap_run_bind hext h (fun h => fieldsRead_short (by omega)) fun h extDel hdel => ?_
  refine takes_u64.run_bind h (fun h => fieldsRead_short (by omega)) fun h => ?_
  rw [toNat_ofNat_word]
  have hn : leNat ((mem.drop (115 + 24 * nExtAdd mem + 8 + 24 * nExtDel mem)).take 8) = nDependsOn mem := by
    unfold nDependsOn wordAt
    congr 3
    omega
  rw [hn]
  refine readMap_run_bind hdep h (fun h => fieldsRead_short (by omega)) fun h dependsOn hdeps => ?_
  refine ⟨fun _ => ⟨_, _, rfl, ?_⟩, fun hno => absurd ?_ hno⟩
  · show 8 * 3 + 4 * 6 + 16 * 3 + 2 + 1 + 8 * 4 + extAdd.entries.length * (8 + 16) +
      extDel.entries.length * (8 + 16) + dependsOn.entries.length * 16 = ileSize mem
    have h1 : 115 + 24 * nExtAdd mem + 8 = 123 + 24 * nExtAdd mem := by omega
    have h2 : 115 + 24 * nExtAdd mem + 8 + 24 * nExtDel mem + 8 = 131 + 24 * nExtAdd mem + 24 * nExtDel mem := by
      omega
    rw [hadd, hdel, hdeps]
    simp only [hextKey, hdepKey]
    show _ + (keysAt mem 115 24 _).dedup.length * _ + (keysAt mem (115 + 24 * nExtAdd mem + 8) 24 _).dedup.length * _ +
      (keysAt mem (115 + 24 * nExtAdd mem + 8 + 24 * nExtDel mem + 8) 16 _).dedup.length * _ = _
    rw [h2, h1, ileSize]
    omega
  · show 131 + 24 * nExtAdd mem + 24 * nExtDel mem + 16 * nDependsOn mem ≤ mem.length
    omega

theorem ileSize_le (h : ItemsFit mem) : ileSize mem ≤ mem.length := by
  have hkeys : ∀ off width n, (keysAt mem off width n).dedup.length ≤ n := by
    intro off width n
    refine (dedup_sublist _).length_le.trans (Nat.le_of_eq ?_)
    rw [keysAt, length_map, length_range]
  have h1 := hkeys 115 24 (nExtAdd mem)
  have h2 := hkeys (123 + 24 * nExtAdd mem) 24 (nExtDel mem)
  have h3 := hkeys (131 + 24 * nExtAdd mem + 24 * nExtDel mem) 16 (nDependsOn mem)
  unfold ItemsFit at h
  unfold ileSize
  omega

/-! ## The constructor -/

theorem ofBuf_eq {n : ℕ} (h : n < 8 ∨ 8 ≤ mem.length) : ofBuf n mem = if n < 8 then .error
    (.runtimeError "invalid buffer")
    else if n < wordAt mem 0 then .error (.runtimeError "invalid buffer - size too small") else fieldsOfBuf
      (mem.drop 8) := by
  unfold ofBuf
  by_cases h8 : n < 8
  · rw [if_pos h8, if_pos h8]
    rfl
  · rw [if_neg h8, if_neg h8]
    show Except.bind ((get .outOfBounds : Reader DeserializeError UInt64) mem) _ = _
    rw [takes_u64 mem, if_pos (h.resolve_left h8)]
    show (if n < (UInt64.ofNat (leNat (mem.take 8))).toNat then _ else fieldsOfBuf : Reader _ _) (mem.drop 8) = _
    rw [toNat_ofNat_word]
    show (if n < wordAt mem 0 then _ else fieldsOfBuf : Reader _ _) (mem.drop 8) = _
    split <;> rfl

theorem ofBuf_of_refused (h : Refused mem) : ∃ what, ofBuf mem.length mem = .error (.runtimeError what) := by
  rw [ofBuf_eq (Nat.lt_or_ge _ _)]
  by_cases h8 : mem.length < 8
  · rw [if_pos h8]
    exact ⟨_, rfl⟩
  · rw [if_neg h8, if_pos (h.resolve_left h8)]
    exact ⟨_, rfl⟩

theorem fieldsRead_ofBuf (h : ¬ Refused mem) : FieldsRead mem (ofBuf mem.length mem) := by
  obtain ⟨h8, hsize⟩ := not_or.1 h
  rw [ofBuf_eq (Nat.lt_or_ge _ _), if_neg h8, if_neg hsize]
  exact fieldsRead_fieldsOfBuf (Nat.le_of_not_lt h8)

theorem ile_in_bounds_iff {buf : List UInt8} : IleInBounds buf ↔ Refused buf ∨ ItemsFit buf := by
  by_cases hr : Refused buf
  · obtain ⟨what, hwhat⟩ := ofBuf_of_refused hr
    refine iff_of_true ?_ (.inl hr)
    unfold IleInBounds
    rw [hwhat]
    exact ⟨nofun, nofun⟩
  · obtain ⟨hfit, hno⟩ := fieldsRead_ofBuf hr
    constructor
    · intro h
      by_contra hc
      exact h.1 (hno fun hf => hc (.inr hf))
    · rintro (h | h)
      · exact absurd h hr
      · obtain ⟨ile, rest, hok, hsize⟩ := hfit h
        unfold IleInBounds
        rw [hok]
        refine ⟨nofun, fun ile' rest' h' => ?_⟩
        cases h'
        rw [hsize]
        exact ileSize_le h

/-! ## The body -/

theorem deserializeIles_of_refused (hr : Refused mem) (n : ℕ) (acc : List InodeLogEntry) :
    NoWrap (n + 1) mem.length mem ∧ (deserializeIles (n + 1) mem.length mem acc = .ok acc ∨
      ∃ what, deserializeIles (n + 1) mem.length mem acc = .error (.runtimeError what)) := by
  obtain ⟨what, hwhat⟩ := ofBuf_of_refused hr
  constructor
  · intro _ ile rest h
    rw [hwhat] at h
    cases h
  · unfold deserializeIles
    by_cases h0 : mem.length = 0
    · exact .inl (if_pos h0)
    · rw [if_neg h0, hwhat]
      exact .inr ⟨what, rfl⟩

theorem deserializeIles_of_fits (hr : ¬ Refused mem) (hf : ItemsFit mem) (n : ℕ)
    (acc : List InodeLogEntry) : ∃ ile : InodeLogEntry, ile.calcSize = ileSize mem ∧
      deserializeIles (n + 1) mem.length mem acc =
        deserializeIles n (mem.drop (ileSize mem)).length (mem.drop (ileSize mem)) (acc ++ [ile]) ∧
      (NoWrap (n + 1) mem.length mem ↔ NoWrap n (mem.drop (ileSize mem)).length (mem.drop (ileSize mem))) := by
  obtain ⟨ile, rest, hok, hsize⟩ := (fieldsRead_ofBuf hr).1 hf
  have h0 : mem.length ≠ 0 := fun h => hr (.inl (by omega))
  have hle : ileSize mem ≤ mem.length := ileSize_le hf
  refine ⟨ile, hsize, ?_, ?_⟩
  · rw [deserializeIles, if_neg h0, hok, length_drop, ← u64Sub_of_le hle, ← hsize]
    rfl
  · rw [length_drop, ← hsize]
    constructor
    · intro h
      exact (h h0 ile rest hok).2
    · intro h _ ile' rest' h'
      rw [hok] at h'
      cases h'
      exact ⟨hsize.trans_le hle, h⟩

/-- The loop reads inside `mem` and does not wrap exactly if the entries fit, and then makes no more than
`mem` has room for. -/
theorem deserializeIles_iff (n : ℕ) (mem : List UInt8) (acc : List InodeLogEntry) :
    (deserializeIles n mem.length mem acc ≠ .error .outOfBounds ∧ NoWrap n mem.length mem ↔ IlesFit n mem) ∧
    (IlesFit n mem → ∀ iles, deserializeIles n mem.length mem acc = .ok iles →
      (iles.map calcSize).sum ≤ (acc.map calcSize).sum + mem.length) := by
  induction n generalizing mem acc with
  | zero =>
    refine ⟨iff_of_true ⟨nofun, trivial⟩ trivial, fun _ iles h => ?_⟩
    cases h
    exact Nat.le_add_right ..
  | succ n ih =>
    by_cases hr : Refused mem
    · obtain ⟨hwrap, hrun | ⟨what, hrun⟩⟩ := deserializeIles_of_refused hr n acc
      · rw [hrun]
        refine ⟨iff_of_true ⟨nofun, hwrap⟩ (.inl hr), fun _ iles h => ?_⟩
        cases h
        exact Nat.le_add_right ..
      · rw [hrun]
        refine ⟨iff_of_true ⟨nofun, hwrap⟩ (.inl hr), fun _ iles h => ?_⟩
        cases h
    by_cases hf : ItemsFit mem
    · obtain ⟨ile, hsize, hrun, hwrap⟩ := deserializeIles_of_fits hr hf n acc
      have hfits : IlesFit (n + 1) mem ↔ IlesFit n (mem.drop (ileSize mem)) :=
        ⟨fun h => (h.resolve_left hr).2, fun h => .inr ⟨hf, h⟩⟩
      obtain ⟨ih1, ih2⟩ := ih (mem.drop (ileSize mem)) (acc ++ [ile])
      rw [hrun, hwrap, hfits]
      refine ⟨ih1, fun h iles hiles => (ih2 h iles hiles).trans ?_⟩
      have hle := ileSize_le hf
      rw [length_drop, map_append, sum_append, map_singleton, sum_singleton]
      omega
    · have hrun : deserializeIles (n + 1) mem.length mem acc = .error .outOfBounds := by
        rw [deserializeIles, if_neg fun h => hr (.inl (by omega)), (fieldsRead_ofBuf hr).2 hf]
        rfl
      have hnot : ¬ IlesFit (n + 1) mem := fun h => hf (h.resolve_left hr).1
      exact ⟨iff_of_false (fun h => h.1 hrun) hnot, fun h => absurd h hnot⟩

/-- The entry that `deserializeBody` is called on: it has no inode log entries. -/
def fresh (je : JournalEntry) : JournalEntry := { je with ileVec := [] }

theorem takes_bodyHeader : Takes bodyHeader .outOfBounds 32 fun bs =>
    (UInt64.ofNat (leNat (bs.take 8)), UInt64.ofNat (leNat ((bs.drop 8).take 8)),
      UInt64.ofNat (leNat ((bs.drop 16).take 8)), UInt64.ofNat (leNat ((bs.drop 24).take 8))) := by
  have h := takes_u64.bind fun magic => takes_u64.bind fun ustime => takes_u64.bind fun jeSize =>
    takes_u64.bind fun numIle => takes_pure DeserializeError.outOfBounds (magic, ustime, jeSize, numIle)
  simp only [drop_drop] at h
  exact h

theorem deserializeBody_eq {je : JournalEntry} {bufSize : ℕ} (h : 32 ≤ mem.length) :
    (fresh je).deserializeBody mem bufSize = if bufSize < 48 then .error (.runtimeError "buffer too small")
      else if je.state ≠ .deserializedPartial then .error (.runtimeError "Requires partially deserialized Jentry")
      else if wordAt mem 0 ≠ jbodyMagic.toNat ∨ wordAt mem 8 ≠ je.ustimeSerialized.toNat then
        .error (.runtimeError "Requires same buffer used for partial deserialization")
      else if bufSize < wordAt mem 16 then .error (.runtimeError "buffer too small")
      else (deserializeIles (wordAt mem 24) (u64Sub (wordAt mem 16) 48) (mem.drop 48) []).map
        fun ileVec => { je with ileVec, state := .deserialized } := by
  unfold deserializeBody
  have hsize : (fresh je).calcBodySize = 48 := rfl
  have hmagic : UInt64.ofNat (leNat (mem.take 8)) = jbodyMagic ↔ wordAt mem 0 = jbodyMagic.toNat := ofNat_word_eq
  have hustime : UInt64.ofNat (leNat ((mem.drop 8).take 8)) = (fresh je).ustimeSerialized ↔
      wordAt mem 8 = je.ustimeSerialized.toNat := ofNat_word_eq
  have hstate : (fresh je).state = je.state := rfl
  simp only [hsize, hstate, takes_bodyHeader mem, if_pos h]
  by_cases h48 : bufSize < 48
  · rw [if_pos h48, if_pos h48]
    rfl
  · rw [if_neg h48, if_neg h48]
    by_cases hs : je.state ≠ .deserializedPartial
    · rw [if_pos hs, if_pos hs]
      rfl
    · rw [if_neg hs, if_neg hs]
      show (if UInt64.ofNat (leNat (mem.take 8)) ≠ jbodyMagic ∨
          UInt64.ofNat (leNat ((mem.drop 8).take 8)) ≠ (fresh je).ustimeSerialized then _ else
        if bufSize < (UInt64.ofNat (leNat ((mem.drop 16).take 8))).toNat then _ else _) = _
      simp only [ne_eq, hmagic, hustime, toNat_ofNat_word]
      rfl

section Body

variable {je : JournalEntry} {buf : List UInt8}

theorem deserializeBody_of_not_accepted (h : ¬ Accepted (fresh je) buf) :
    ∃ what, (fresh je).deserializeBody buf buf.length = .error (.runtimeError what) := by
  by_cases h48 : buf.length < 48
  · refine ⟨"buffer too small", ?_⟩
    unfold deserializeBody
    exact if_pos h48
  · rw [deserializeBody_eq (by omega), if_neg h48]
    split
    · exact ⟨_, rfl⟩
    · rename_i hstate
      split
      · exact ⟨_, rfl⟩
      · rename_i hwords
        split
        · exact ⟨_, rfl⟩
        · rename_i hsize
          push Not at hstate hwords
          exact absurd ⟨by omega, hstate, hwords.1, hwords.2, Nat.le_of_not_lt hsize⟩ h

theorem deserializeBody_of_accepted (h : Accepted (fresh je) buf) (h48 : 48 ≤ jeSize buf) :
    (fresh je).deserializeBody (declared buf) buf.length =
      (deserializeIles (wordAt buf 24) ((declared buf).drop 48).length ((declared buf).drop 48) []).map
        fun ileVec => { je with ileVec, state := .deserialized } := by
  have hlen : (declared buf).length = jeSize buf := length_take_of_le h.fits
  have hword : ∀ off, off + 8 ≤ 48 → wordAt (declared buf) off = wordAt buf off := fun off hoff =>
    wordAt_take (by omega)
  have hje : wordAt (declared buf) 16 = jeSize buf := hword 16 (by omega)
  have hsize := h.size
  have hstate : je.state = .deserializedPartial := h.state
  have hustime : wordAt buf 8 = je.ustimeSerialized.toNat := h.ustime
  rw [deserializeBody_eq (by omega), hword 0 (by omega), hword 8 (by omega), hje, hword 24 (by omega),
    if_neg (by omega), if_neg (not_not.2 hstate),
    if_neg (not_or.2 ⟨not_not.2 h.magic, not_not.2 hustime⟩), if_neg (Nat.not_lt.2 h.fits),
    length_drop, hlen, u64Sub_of_le h48]

theorem body_in_bounds_iff : BodyInBounds (fresh je) buf ↔ BodyFits (fresh je) buf := by
  by_cases ha : Accepted (fresh je) buf
  · have hlen : ((declared buf).drop 48).length = jeSize buf - 48 := by
      rw [length_drop, declared, length_take_of_le ha.fits]
    obtain ⟨hiff, hsum⟩ := deserializeIles_iff (wordAt buf 24) ((declared buf).drop 48) []
    constructor
    · rintro (⟨hno, -⟩ | ⟨hreads, h48, hwrap, -⟩) -
      · exact absurd ha hno
      · refine ⟨h48, hiff.1 ⟨fun h => hreads ?_, hlen ▸ hwrap⟩⟩
        rw [deserializeBody_of_accepted ha h48, h]
        rfl
    · intro hfits
      obtain ⟨h48, hiles⟩ := hfits ha
      obtain ⟨hreads, hwrap⟩ := hiff.2 hiles
      refine .inr ?_
      rw [deserializeBody_of_accepted ha h48]
      cases hrun : deserializeIles (wordAt buf 24) ((declared buf).drop 48).length ((declared buf).drop 48) [] with
      | error e =>
        refine ⟨fun h => hreads ?_, h48, hlen ▸ hwrap, nofun⟩
        rw [hrun]
        cases h
        rfl
      | ok iles =>
        refine ⟨nofun, h48, hlen ▸ hwrap, fun je' h => ?_⟩
        cases h
        have := hsum hiles iles hrun
        show 48 + (iles.map calcSize).sum ≤ jeSize buf
        rw [map_nil, sum_nil, hlen] at this
        omega
  · exact iff_of_true (.inl ⟨ha, deserializeBody_of_not_accepted ha⟩) fun h => absurd h ha

end Body

/-! ## The header -/

/-- What `ParseJournalEntryHeader` makes of `mem`, by its words. -/
def HeaderRead (mem : List UInt8) (r : Except DeserializeError (JournalEntry × List UInt8)) : Prop :=
  if mem.length < 8 then r = .error .outOfBounds
  else if wordAt mem 0 ≠ jbodyMagic.toNat then ∃ je rest, r = .ok (je, rest) ∧ je.state = .deserializedErrorMagic
  else if mem.length < 24 then r = .error .outOfBounds
  else if kMaxJournalBodySize < wordAt mem 16 then
    ∃ je rest, r = .ok (je, rest) ∧ je.state = .deserializedErrorEntrySize
  else if mem.length < 48 then r = .error .outOfBounds
  else ∃ rest, r = .ok (⟨.deserializedPartial, [], UInt64.ofNat (wordAt mem 32), UInt64.ofNat (wordAt mem 40),
    UInt64.ofNat (wordAt mem 8)⟩, rest)

theorem headerRead_parse (mem : List UInt8) : HeaderRead mem (new.parseJournalEntryHeader mem) := by
  show HeaderRead mem (new.parseJournalEntryHeader (mem.drop 0))
  unfold JournalEntry.parseJournalEntryHeader
  refine takes_u64.run_bind (Nat.zero_le _) (fun h => ?_) fun h8 => ?_
  · rw [HeaderRead, if_pos (by omega)]
  · have hmagic : UInt64.ofNat (leNat ((mem.drop 0).take 8)) = jbodyMagic ↔ wordAt mem 0 = jbodyMagic.toNat :=
      ofNat_word_eq
    by_cases hm : wordAt mem 0 = jbodyMagic.toNat
    · rw [if_neg (not_not.2 (hmagic.2 hm))]
      have short : mem.length < 24 → HeaderRead mem (.error .outOfBounds) := fun h => by
        rw [HeaderRead, if_neg (by omega), if_neg (not_not.2 hm), if_pos h]
      refine takes_u64.run_bind h8 (fun h => short (by omega)) fun h16 => ?_
      refine takes_u64.run_bind h16 (fun h => short (by omega)) fun h24 => ?_
      rw [toNat_ofNat_word, show leNat ((mem.drop (0 + 8 + 8)).take 8) = wordAt mem 16 from rfl]
      by_cases hsize : kMaxJournalBodySize < wordAt mem 16
      · rw [if_pos hsize, HeaderRead, if_neg (by omega), if_neg (not_not.2 hm), if_neg (by omega), if_pos hsize]
        exact ⟨_, _, rfl, rfl⟩
      · rw [if_neg hsize]
        have short : mem.length < 48 → HeaderRead mem (.error .outOfBounds) := fun h => by
          rw [HeaderRead, if_neg (by omega), if_neg (not_not.2 hm), if_neg (by omega), if_neg hsize, if_pos h]
        refine takes_u64.run_bind h24 (fun h => short (by omega)) fun h32 => ?_
        refine takes_u64.run_bind h32 (fun h => short (by omega)) fun h40 => ?_
        refine takes_u64.run_bind h40 (fun h => short (by omega)) fun h48 => ?_
        rw [HeaderRead, if_neg (by omega), if_neg (not_not.2 hm), if_neg (by omega), if_neg hsize, if_neg (by omega)]
        exact ⟨_, rfl⟩
    · rw [if_pos (fun h => hm (hmagic.1 h)), HeaderRead, if_neg (by omega), if_pos hm]
      exact ⟨_, _, rfl, rfl⟩

/-- As `HeaderFits`, of the memory that is left from a place on. -/
def HeaderInside (mem : List UInt8) : Prop :=
  8 ≤ mem.length ∧ (wordAt mem 0 = jbodyMagic.toNat →
    24 ≤ mem.length ∧ (wordAt mem 16 ≤ kMaxJournalBodySize → 48 ≤ mem.length))

theorem parse_ok_iff : (∃ r, new.parseJournalEntryHeader mem = .ok r) ↔ HeaderInside mem := by
  have hread := headerRead_parse mem
  unfold HeaderRead at hread
  unfold HeaderInside
  split at hread
  · rw [hread]
    exact iff_of_false nofun (by omega)
  split at hread
  · obtain ⟨je, rest, hok, -⟩ := hread
    exact iff_of_true ⟨_, hok⟩ ⟨by omega, fun h => absurd h ‹_›⟩
  rename_i hm
  push Not at hm
  split at hread
  · rw [hread]
    refine iff_of_false nofun fun h => ?_
    have := (h.2 hm).1
    omega
  split at hread
  · obtain ⟨je, rest, hok, -⟩ := hread
    exact iff_of_true ⟨_, hok⟩ ⟨by omega, fun _ => ⟨by omega, fun h => absurd h (Nat.not_le_of_lt ‹_›)⟩⟩
  split at hread
  · rw [hread]
    refine iff_of_false nofun fun h => ?_
    have := (h.2 hm).2 (by omega)
    omega
  · obtain ⟨rest, hok⟩ := hread
    exact iff_of_true ⟨_, hok⟩ ⟨by omega, fun _ => ⟨by omega, fun _ => by omega⟩⟩

theorem parse_partial_iff {je : JournalEntry} {rest : List UInt8}
    (h : new.parseJournalEntryHeader mem = .ok (je, rest)) :
    je.state = .deserializedPartial ↔ wordAt mem 0 = jbodyMagic.toNat ∧ wordAt mem 16 ≤ kMaxJournalBodySize := by
  have hread := headerRead_parse mem
  rw [h] at hread
  unfold HeaderRead at hread
  split at hread
  · cases hread
  split at hread
  · obtain ⟨_, _, hok, hstate⟩ := hread
    cases hok
    rw [hstate]
    exact iff_of_false nofun fun h => absurd h.1 ‹_›
  split at hread
  · cases hread
  split at hread
  · obtain ⟨_, _, hok, hstate⟩ := hread
    cases hok
    rw [hstate]
    exact iff_of_false nofun fun h => absurd h.2 (Nat.not_le_of_lt ‹_›)
  split at hread
  · cases hread
  · obtain ⟨_, hok⟩ := hread
    cases hok
    rename_i hm _ hsize _
    exact iff_of_true rfl ⟨not_not.1 hm, Nat.le_of_not_lt hsize⟩

theorem parse_of_words (h48 : 48 ≤ mem.length) (hm : wordAt mem 0 = jbodyMagic.toNat)
    (hsize : wordAt mem 16 ≤ kMaxJournalBodySize) :
    ∃ rest, new.parseJournalEntryHeader mem =
      .ok (⟨.deserializedPartial, [], UInt64.ofNat (wordAt mem 32), UInt64.ofNat (wordAt mem 40),
        UInt64.ofNat (wordAt mem 8)⟩, rest) := by
  have hread := headerRead_parse mem
  rw [HeaderRead, if_neg (by omega), if_neg (not_not.2 hm), if_neg (by omega), if_neg (Nat.not_lt.2 hsize),
    if_neg (by omega)] at hread
  exact hread

theorem headerInside_declared {buf : List UInt8} (h : HeaderInside buf) (hm : wordAt buf 0 = jbodyMagic.toNat)
    (hsize : jeSize buf ≤ kMaxJournalBodySize) : HeaderInside (declared buf) ↔ 48 ≤ jeSize buf := by
  have hlen : (declared buf).length = min (jeSize buf) buf.length := length_take
  have h48 := (h.2 hm).2 hsize
  have hword : ∀ off, off + 8 ≤ jeSize buf → wordAt (declared buf) off = wordAt buf off := fun off hoff =>
    wordAt_take hoff
  constructor
  · rintro ⟨h8, h24⟩
    by_contra hlt
    have h24' := h24 ((hword 0 (by omega)).trans hm)
    have := h24'.2 ((hword 16 (by omega)).trans_le hsize)
    omega
  · intro hle
    exact ⟨by omega, fun _ => ⟨by omega, fun _ => by omega⟩⟩

theorem header_in_bounds_iff {buf : List UInt8} : HeaderInBounds buf ↔ HeaderFits buf := by
  constructor
  · rintro ⟨je, rest, hok, hin⟩
    obtain ⟨h8, hinside⟩ := parse_ok_iff.1 ⟨_, hok⟩
    refine ⟨h8, fun hm => ⟨(hinside hm).1, fun hsize => ⟨?_, (hinside hm).2 hsize⟩⟩⟩
    have hpartial : je.state = .deserializedPartial := (parse_partial_iff hok).2 ⟨hm, hsize⟩
    exact (headerInside_declared ⟨h8, hinside⟩ hm hsize).1 (parse_ok_iff.1 (hin.resolve_left (not_not.2 hpartial)))
  · rintro ⟨h8, hfits⟩
    have hinside : HeaderInside buf := ⟨h8, fun hm => ⟨(hfits hm).1, fun hsize => ((hfits hm).2 hsize).2⟩⟩
    obtain ⟨⟨je, rest⟩, hok⟩ := parse_ok_iff.2 hinside
    refine ⟨je, rest, hok, ?_⟩
    by_cases hpartial : je.state = .deserializedPartial
    · obtain ⟨hm, hsize⟩ := (parse_partial_iff hok).1 hpartial
      exact .inr (parse_ok_iff.2 ((headerInside_declared hinside hm hsize).2 ((hfits hm).2 hsize).1))
    · exact .inl hpartial

/-- For every content of a buffer, of any size: the bytes on which each of the three stays in bounds. -/
theorem decode_in_bounds_iff (je : JournalEntry) (buf : List UInt8) : (HeaderInBounds buf ↔ HeaderFits buf) ∧
    (BodyInBounds (fresh je) buf ↔ BodyFits (fresh je) buf) ∧ (IleInBounds buf ↔ Refused buf ∨ ItemsFit buf) :=
  ⟨header_in_bounds_iff, body_in_bounds_iff, ile_in_bounds_iff⟩

/-- A body of 179 bytes with one inode log entry, which declares 1000 extents and has room for none. -/
def tornBody : List UInt8 :=
  put jbodyMagic ++ put (7 : UInt64) ++ put (179 : UInt64) ++ put (1 : UInt64) ++ put (0 : UInt64) ++ put
    (1 : UInt64) ++
    put (131 : UInt64) ++ List.replicate 99 0 ++ put (1000 : UInt64) ++ List.replicate 16 0

/-- The header of an entry of one block, which has no room for a body. -/
def tornHeader : JournalEntry := ⟨.deserializedPartial, [], 0, 1, 7⟩

/-- The loop over the extents runs past the body, though its header and sizes are accepted. -/
theorem reads_past_the_body : (∃ rest, JournalEntry.new.parseJournalEntryHeader tornBody = .ok (tornHeader, rest)) ∧
    tornHeader.deserializeBody (declared tornBody) tornBody.length = .error .outOfBounds ∧
      ¬ BodyInBounds tornHeader tornBody := by
  have hlen : tornBody.length = 179 := by decide +kernel
  have hmagic : wordAt tornBody 0 = jbodyMagic.toNat := by decide +kernel
  have hustime : wordAt tornBody 8 = 7 := by decide +kernel
  have hsize : jeSize tornBody = 179 := by decide +kernel
  have hnum : wordAt tornBody 24 = 1 := by decide +kernel
  have hstart : wordAt tornBody 32 = 0 := by decide +kernel
  have hnblocks : wordAt tornBody 40 = 1 := by decide +kernel
  have haccepted : Accepted (fresh tornHeader) tornBody := ⟨by omega, rfl, hmagic, hustime, by omega⟩
  have hrefused : ¬ Refused ((declared tornBody).drop 48) := by
    unfold Refused
    decide +kernel
  have hitems : ¬ ItemsFit ((declared tornBody).drop 48) := by
    have hadd : nExtAdd ((declared tornBody).drop 48) = 1000 := by decide +kernel
    have hleft : ((declared tornBody).drop 48).length = 131 := by
      rw [List.length_drop, declared, List.length_take]
      omega
    unfold ItemsFit
    omega
  refine ⟨?_, ?_, ?_⟩
  · have hparse := parse_of_words (by omega) hmagic (hsize.trans_le (by decide))
    rw [hustime, hstart, hnblocks] at hparse
    exact hparse
  · show (fresh tornHeader).deserializeBody _ _ = _
    rw [deserializeBody_of_accepted haccepted (by omega), hnum, JournalEntry.deserializeIles,
      if_neg (by rw [List.length_drop, declared, List.length_take]; omega), (fieldsRead_ofBuf hrefused).2 hitems]
    rfl
  · show ¬ BodyInBounds (fresh tornHeader) tornBody
    rw [body_in_bounds_iff]
    intro h
    have := (h haccepted).2
    rw [hnum] at this
    exact hitems (this.resolve_left hrefused).1

end Ufs.Proof.Entry
