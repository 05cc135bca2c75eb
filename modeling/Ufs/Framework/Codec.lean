import Mathlib.Data.List.AList
import Mathlib.Data.List.Dedup
import Mathlib.Tactic.Ring

/-!
# Bytes in and out of memory

`Reads p bs a`: a reader takes exactly `bs` from the front of a byte string and returns `a`,
whatever comes after; `Reads.bind` puts readers together as `++` puts bytes together. `Takes p short
n v` says what a reader of a fixed width does on any bytes: it takes `n` of them and returns what
`v` makes of them, or stops with `short`. `Takes.run_bind` runs such a reader at an offset, and
`readMap_takes` a loop of them. Words are little-endian (`Word`). `entries_foldl_perm`: the map that
`readMap` builds from the entries of another one is equal to it as a map.
-/

namespace Ufs.Codec

open List

abbrev Reader (ε α : Type) := StateT (List UInt8) (Except ε) α

variable {ε α β : Type}

/-- The next `n` bytes, or the error `short` if there are fewer. -/
def take (short : ε) (n : ℕ) : Reader ε (List UInt8) := fun bs =>
  if n ≤ bs.length then .ok (bs.take n, bs.drop n) else .error short

/-- `p` takes the bytes `bs` and returns `a`. -/
def Reads (p : Reader ε α) (bs : List UInt8) (a : α) : Prop := ∀ rest, p (bs ++ rest) = .ok (a, rest)

theorem Reads.pure (a : α) : Reads (pure a : Reader ε α) [] a := fun _ => rfl

variable {f : α → Reader ε β}

theorem Reads.bind {p : Reader ε α} {bs cs : List UInt8} {a : α} {b : β}
    (hp : Reads p bs a) (hf : Reads (f a) cs b) : Reads (p >>= f) (bs ++ cs) b := by
  intro rest
  show (p (bs ++ cs ++ rest)).bind (fun x => f x.1 x.2) = _
  rw [append_assoc, hp]
  exact hf rest

theorem Reads.map {p : Reader ε α} {bs : List UInt8} {a : α} (hp : Reads p bs a) (f : α → β) :
    Reads (f <$> p) bs (f a) := by
  intro rest
  show (p (bs ++ rest)).bind (fun x => Except.ok (f x.1, x.2)) = _
  rw [hp]
  rfl

theorem reads_take (short : ε) (bs : List UInt8) : Reads (take short bs.length) bs bs := by
  intro rest
  rw [take, if_pos (by rw [length_append]; omega), take_left, drop_left]

/-! ## Readers of a fixed width -/

/-- `p` takes `n` bytes, of which it makes `v`. -/
def Takes (p : Reader ε α) (short : ε) (n : ℕ) (v : List UInt8 → α) : Prop :=
  ∀ bs, p bs = if n ≤ bs.length then .ok (v bs, bs.drop n) else .error short

variable {R : Except ε (β × List UInt8) → Prop}

section Takes

variable {p : Reader ε α} {short : ε} {n : ℕ} {v : List UInt8 → α}

theorem takes_pure (short : ε) (a : α) : Takes (pure a : Reader ε α) short 0 fun _ => a := fun _ => rfl

theorem Takes.bind {m : ℕ} {w : α → List UInt8 → β} (hp : Takes p short n v)
    (hf : ∀ a, Takes (f a) short m (w a)) : Takes (p >>= f) short (n + m) fun bs => w (v bs) (bs.drop n) := by
  intro bs
  show (p bs).bind (fun x => f x.1 x.2) = _
  rw [hp bs]
  by_cases hn : n ≤ bs.length
  · rw [if_pos hn]
    show f (v bs) (bs.drop n) = _
    rw [hf, length_drop, drop_drop]
    by_cases hm : n + m ≤ bs.length
    · rw [if_pos hm, if_pos (by omega)]
    · rw [if_neg hm, if_neg (by omega)]
  · rw [if_neg hn, if_neg (by omega)]
    rfl

theorem Takes.map {f : α → β} (hp : Takes p short n v) : Takes (f <$> p) short n fun bs => f (v bs) := by
  intro bs
  show (p bs).bind (fun x => Except.ok (f x.1, x.2)) = _
  rw [hp bs]
  split <;> rfl

theorem takes_take (short : ε) (n : ℕ) : Takes (take short n) short n (List.take n) := fun _ => rfl

/-- A reader of a fixed width at offset `off` of `mem`: what holds of the error when it does not fit, and of
what comes after it when it does, holds of both. -/
theorem Takes.run_bind (hp : Takes p short n v) {mem : List UInt8} {off : ℕ}
    (hoff : off ≤ mem.length)
    (hshort : mem.length < off + n → R (.error short))
    (hok : off + n ≤ mem.length → R (f (v (mem.drop off)) (mem.drop (off + n)))) :
    R ((p >>= f) (mem.drop off)) := by
  show R ((p (mem.drop off)).bind fun x => f x.1 x.2)
  rw [hp, length_drop]
  split
  · rw [drop_drop]
    exact hok (by omega)
  · exact hshort (by omega)

end Takes

/-! ## Words -/

/-- The `n` low bytes of a number, the least significant one first. -/
def leBytes : ℕ → ℕ → List UInt8
  | 0, _ => []
  | n + 1, v => UInt8.ofNat v :: leBytes n (v / 256)

def leNat : List UInt8 → ℕ
  | [] => 0
  | b :: bs => b.toNat + 256 * leNat bs

@[simp] theorem length_leBytes (n v : ℕ) : (leBytes n v).length = n := by
  induction n generalizing v with
  | zero => rfl
  | succ n ih => rw [leBytes, List.length_cons, ih]

theorem leNat_lt (bs : List UInt8) : leNat bs < 256 ^ bs.length := by
  induction bs with
  | nil => simp [leNat]
  | cons b bs ih =>
    have hb : b.toNat < 256 := b.toNat_lt
    rw [leNat, length_cons, pow_succ]
    omega

theorem leNat_leBytes (n v : ℕ) : leNat (leBytes n v) = v % 256 ^ n := by
  induction n generalizing v with
  | zero => simp [leBytes, leNat, Nat.mod_one]
  | succ n ih =>
    have hmod : v % 256 ^ (n + 1) = v % 256 + 256 * (v / 256 % 256 ^ n) := by
      rw [pow_succ', Nat.mod_mul]
    rw [leBytes, leNat, ih, UInt8.toNat_ofNat', hmod]

/-- A type of words of `width` bytes. -/
class Word (α : Type) where
  width : ℕ
  toNat : α → ℕ
  ofNat : ℕ → α
  ofNat_toNat : ∀ a, ofNat (toNat a % 256 ^ width) = a

instance : Word UInt8 := ⟨1, UInt8.toNat, UInt8.ofNat, fun a => by
  rw [Nat.mod_eq_of_lt (show a.toNat < 256 ^ 1 from a.toNat_lt), UInt8.ofNat_toNat]⟩

instance : Word UInt16 := ⟨2, UInt16.toNat, UInt16.ofNat, fun a => by
  rw [Nat.mod_eq_of_lt (show a.toNat < 256 ^ 2 from a.toNat_lt), UInt16.ofNat_toNat]⟩

instance : Word UInt32 := ⟨4, UInt32.toNat, UInt32.ofNat, fun a => by
  rw [Nat.mod_eq_of_lt (show a.toNat < 256 ^ 4 from a.toNat_lt), UInt32.ofNat_toNat]⟩

instance : Word UInt64 := ⟨8, UInt64.toNat, UInt64.ofNat, fun a => by
  rw [Nat.mod_eq_of_lt (show a.toNat < 256 ^ 8 from a.toNat_lt), UInt64.ofNat_toNat]⟩

@[simp] theorem width_uint8 : Word.width UInt8 = 1 := rfl
@[simp] theorem width_uint16 : Word.width UInt16 = 2 := rfl
@[simp] theorem width_uint32 : Word.width UInt32 = 4 := rfl
@[simp] theorem width_uint64 : Word.width UInt64 = 8 := rfl

variable [Word α]

/-- The bytes of a word. -/
def put (a : α) : List UInt8 := leBytes (Word.width α) (Word.toNat a)

/-- The next word. -/
def get (short : ε) : Reader ε α := (fun bs => Word.ofNat (leNat bs)) <$> take short (Word.width α)

@[simp] theorem length_put (a : α) : (put a).length = Word.width α := length_leBytes _ _

theorem reads_put (short : ε) (a : α) : Reads (get short) (put a) a := by
  have h := (reads_take short (put a)).map fun bs => (Word.ofNat (leNat bs) : α)
  rw [length_put] at h
  rw [put, leNat_leBytes, Word.ofNat_toNat] at h
  exact h

theorem takes_get (short : ε) : Takes (get short : Reader ε α) short (Word.width α)
    fun bs => Word.ofNat (leNat (bs.take (Word.width α))) := (takes_take short _).map

/-! ## Maps -/

section

variable {κ : Type} [DecidableEq κ] {ν : κ → Type}

/-- Reads `n` pairs into the map. -/
def readMap (pair : Reader ε (Sigma ν)) : ℕ → AList ν → Reader ε (AList ν)
  | 0, m => pure m
  | n + 1, m => do
    let e ← pair
    readMap pair n (m.insert e.1 e.2)

variable {pair : Reader ε (Sigma ν)}

theorem reads_readMap {bytes : Sigma ν → List UInt8}
    (h : ∀ e, Reads pair (bytes e) e) (es : List (Sigma ν)) (m : AList ν) :
    Reads (readMap pair es.length m) (es.flatMap bytes) (es.foldl (fun m e => m.insert e.1 e.2) m) := by
  induction es generalizing m with
  | nil => exact Reads.pure m
  | cons e es ih =>
    rw [flatMap_cons]
    exact (h e).bind (ih _)

/-- A loop of readers of a fixed width. The keys of the map are those of the bytes it takes. -/
theorem readMap_takes {short : ε} {n : ℕ} {v : List UInt8 → Sigma ν}
    (hp : Takes pair short n v) (k : ℕ) (m : AList ν) (bs : List UInt8) :
    if n * k ≤ bs.length then
      ∃ m', readMap pair k m bs = .ok (m', bs.drop (n * k)) ∧
        ∀ x, x ∈ m' ↔ x ∈ m ∨ x ∈ (List.range k).map fun i => (v (bs.drop (n * i))).1
    else readMap pair k m bs = .error short := by
  induction k generalizing m bs with
  | zero =>
    rw [Nat.mul_zero, if_pos (Nat.zero_le _)]
    exact ⟨m, rfl, fun x => by simp⟩
  | succ k ih =>
    have hrun : readMap pair (k + 1) m bs =
        (pair bs).bind fun x => readMap pair k (m.insert x.1.1 x.1.2) x.2 := rfl
    have hmul : n * (k + 1) = n + n * k := by ring
    have hih := ih (m.insert (v bs).1 (v bs).2) (bs.drop n)
    rw [length_drop, drop_drop] at hih
    rw [hrun, hp bs]
    by_cases hk : n * (k + 1) ≤ bs.length
    · rw [if_pos (by omega)] at hih
      rw [if_pos hk, if_pos (by omega), hmul]
      obtain ⟨m', hm', hmem⟩ := hih
      refine ⟨m', hm', fun x => ?_⟩
      rw [hmem, AList.mem_insert, range_succ_eq_map, map_cons, map_map, mem_cons]
      simp only [drop_drop, Function.comp_def, Nat.mul_succ, Nat.mul_zero, drop_zero, Nat.add_comm n]
      tauto
    · rw [if_neg hk]
      by_cases hn : n ≤ bs.length
      · rw [if_neg (by omega)] at hih
        rw [if_pos hn]
        exact hih
      · rw [if_neg hn]
        rfl

/-- A map has as many entries as it has different keys. -/
theorem length_entries_of_mem {m : AList ν} {l : List κ} (h : ∀ x, x ∈ m ↔ x ∈ l) :
    m.entries.length = l.dedup.length := by
  have hperm : m.keys.Perm l.dedup :=
    (perm_ext_iff_of_nodup m.keys_nodup l.nodup_dedup).2 fun x => by rw [mem_dedup, ← h, AList.mem_keys]
  rw [← hperm.length_eq, AList.keys, List.keys, length_map]

/-- `Takes.run_bind` for a loop that fills a new map: it has an entry for each of the different keys. -/
theorem readMap_run_bind {short : ε} {n : ℕ} {v : List UInt8 → Sigma ν}
    (hp : Takes pair short n v) {k : ℕ} {f : AList ν → Reader ε β} {mem : List UInt8} {off : ℕ}
    (hoff : off ≤ mem.length)
    (hshort : mem.length < off + n * k → R (.error short))
    (hok : off + n * k ≤ mem.length → ∀ m : AList ν,
      m.entries.length = ((List.range k).map fun i => (v (mem.drop (off + n * i))).1).dedup.length →
        R (f m (mem.drop (off + n * k)))) :
    R ((readMap pair k ∅ >>= f) (mem.drop off)) := by
  have hmap := readMap_takes hp k ∅ (mem.drop off)
  show R ((readMap pair k ∅ (mem.drop off)).bind fun x => f x.1 x.2)
  rw [length_drop] at hmap
  split at hmap
  · obtain ⟨m, hm, hmem⟩ := hmap
    rw [hm, drop_drop]
    refine hok (by omega) m (length_entries_of_mem fun x => ?_)
    rw [hmem]
    simp [AList.notMem_empty, drop_drop]
  · rw [hmap]
    exact hshort (by omega)

theorem entries_foldl_insert {es : List (Sigma ν)} (hn : es.NodupKeys) {m : AList ν} (hm : ∀ e ∈ es, e.1 ∉ m) :
    (es.foldl (fun m e => m.insert e.1 e.2) m).entries = es.reverse ++ m.entries := by
  induction es generalizing m with
  | nil => rfl
  | cons e es ih =>
    obtain ⟨hne, hn⟩ := nodupKeys_cons.1 hn
    have he : e.1 ∉ m := hm e (mem_cons_self ..)
    rw [foldl_cons, ih hn, AList.entries_insert_of_notMem he, reverse_cons, append_assoc]
    · rfl
    · intro f hf
      rw [AList.mem_insert, not_or]
      exact ⟨fun h => hne (h ▸ mem_map_of_mem hf), hm f (mem_cons_of_mem _ hf)⟩

/-- The map that is built from the entries of `m` has the same entries. -/
theorem entries_foldl_perm (m : AList ν) :
    (m.entries.foldl (fun m e => m.insert e.1 e.2) (∅ : AList ν)).entries.Perm m.entries := by
  rw [entries_foldl_insert m.nodupKeys fun e _ => AList.notMem_empty e.1]
  simp [reverse_perm]

end

end Ufs.Codec
