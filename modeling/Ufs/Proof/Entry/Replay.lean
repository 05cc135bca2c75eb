import Ufs.Impl.InodeLog

/-!
# Applying a log entry and replaying its calls

`applyChangesTo` applies the additions of an entry before its deletions, each in the order of a hash
map: the last addition of each block (`Adds`) and its last deletion, when that has a higher sequence
number (`Dels`). `applyChangesTo_replays_iff` says for which sequences of calls this is what the
calls one by one give, whatever the order of the maps: for an extent the applied deletions, or the
applied additions when there is none, must write what the last call for the extent writes, and for
the bit of a block the last call that modifies the bitmap must be a deletion just when a deletion
that modifies it is applied.
-/

namespace Ufs.Proof.Entry

open Impl InodeLogEntry
open List Option
open Bool (and_eq_true_iff)

/-! ## The calls one by one -/

/-- The slot of the extent array that a call is about. -/
def extentIdx (c : ExtentCall) : Option (Fin nextentArr) := getCurrentExtentArrIdx c.extent.iBlockOffset

/-- What a call leaves in its slot: the extent, or no blocks. -/
def written (c : ExtentCall) : CfsExtent := if c.addOrDel then c.extent else ⟨0, 0, c.extent.blockNo⟩

/-- The inode after the calls, applied to it in the order they were made. -/
def replay (d : CfsDinode) (cs : List ExtentCall) : CfsDinode :=
  cs.foldl (fun d c => d.setExtent (extentIdx c) (written c)) d

/-- The data bitmap changes after the calls, in the order they were made. -/
def replayBlocks (cs : List ExtentCall) : BlocksAddOrDel :=
  cs.foldl (fun m c => if c.bmapModified then m.insert c.blockNo c.addOrDel else m) ∅

/-! ## The last call of a kind -/

/-- The last call with property `p`, and its position. -/
def lastOf (p : ExtentCall → Bool) (cs : List ExtentCall) : Option (ExtentCall × ℕ) :=
  (cs.zipIdx.filter fun x => p x.1).getLast?

section LastOf

variable {p : ExtentCall → Bool} {cs : List ExtentCall} {c : ExtentCall} {n : ℕ}

theorem lastOf_concat : lastOf p (cs ++ [c]) = if p c then some (c, cs.length) else lastOf p cs := by
  unfold lastOf
  rw [zipIdx_append, filter_append]
  by_cases hp : p c = true
  · rw [if_pos hp]
    have hone : ([c].zipIdx (0 + cs.length)).filter (fun x => p x.1) = [(c, cs.length)] := by
      simp [zipIdx_cons, hp]
    rw [hone, List.getLast?_concat]
  · rw [if_neg hp]
    have hnone : ([c].zipIdx (0 + cs.length)).filter (fun x => p x.1) = [] := by
      simp [zipIdx_cons, hp]
    rw [hnone, append_nil]

theorem lastOf_eq_none_iff : lastOf p cs = none ↔ ∀ c ∈ cs, p c = false := by
  induction cs using List.reverseRecOn with
  | nil => exact ⟨fun _ c hc => absurd hc not_mem_nil, fun _ => rfl⟩
  | append_singleton cs c ih =>
    rw [lastOf_concat]
    by_cases hp : p c = true
    · rw [if_pos hp]
      refine ⟨fun h => (some_ne_none _ h).elim, fun h => ?_⟩
      rw [h c (mem_append_right _ (mem_singleton_self c))] at hp
      cases hp
    · rw [if_neg hp, ih]
      simp only [mem_append, mem_singleton, or_imp, forall_and, forall_eq]
      exact ⟨fun h => ⟨h, (Bool.not_eq_true _).mp hp⟩, fun h => h.1⟩

theorem lastOf_some (h : lastOf p cs = some (c, n)) : c ∈ cs ∧ p c = true := by
  have hmem := mem_filter.1 (mem_of_getLast? h)
  exact ⟨fst_mem_of_mem_zipIdx hmem.1, hmem.2⟩

end LastOf

/-- The call adds (or deletes) the extent at block `b`. -/
def touches (add : Bool) (b : UInt64) (c : ExtentCall) : Bool := c.addOrDel == add && c.blockNo == b

variable {b : UInt64}

theorem touches_iff {add : Bool} {c : ExtentCall} : touches add b c = true ↔ c.addOrDel = add ∧ c.blockNo = b := by
  simp only [touches, Bool.and_eq_true, beq_iff_eq]

/-- Whether an addition or a deletion of the block modifies the bitmap. -/
def modified (cs : List ExtentCall) (add : Bool) (b : UInt64) : Bool :=
  cs.any fun c => touches add b c && c.bmapModified

/-! ## The two maps -/

/-- The map of added, or of deleted, extents. -/
def extMap (add : Bool) (e : InodeLogEntry) : ExtMap := if add then e.extAdd else e.extDel

/-- What the map holds for block `b` after the calls, `x` the last of them that is about it. -/
def entryOf (cs : List ExtentCall) (add : Bool) (b : UInt64) (x : ExtentCall × ℕ) : ExtMapVal :=
  ⟨UInt32.ofNat x.2, x.1.extent.iBlockOffset, x.1.extent.numBlocks, modified cs add b⟩

theorem lookup_updateExtMap (m : ExtMap) (ts : UInt32) (c : ExtentCall) (b : UInt64) :
    (updateExtMap m ts c).lookup b = if c.blockNo = b then
        some ⟨ts, c.extent.iBlockOffset, c.extent.numBlocks,
          (m.lookup b).any (·.bmapModified) || c.bmapModified⟩ else m.lookup b := by
  unfold updateExtMap
  by_cases hb : c.blockNo = b
  · subst hb
    rw [if_pos rfl]
    split
    · next h => rw [AList.lookup_insert, h, any_none, Bool.false_or]
    · next val h => rw [AList.lookup_insert, h, any_some]
  · rw [if_neg hb]
    split
    · exact AList.lookup_insert_ne (Ne.symm hb)
    · exact AList.lookup_insert_ne (Ne.symm hb)

/-- The log entry after the calls. -/
def logged (e : InodeLogEntry) (cs : List ExtentCall) : InodeLogEntry := cs.foldl updateExtent e.reset

theorem logged_concat (e : InodeLogEntry) (cs : List ExtentCall) (c : ExtentCall) :
    logged e (cs ++ [c]) = (logged e cs).updateExtent c := by
  unfold logged
  rw [foldl_append]
  rfl

theorem extMap_updateExtent (e : InodeLogEntry) (c : ExtentCall) (add : Bool) : extMap add (e.updateExtent c) =
      if c.addOrDel = add then updateExtMap (extMap add e) (e.extentSeqNo.getD 0) c else extMap add e := by
  unfold updateExtent extMap
  cases c.addOrDel <;> cases add <;> rfl

theorem logged_seqNo (e : InodeLogEntry) (cs : List ExtentCall) :
    (logged e cs).extentSeqNo = some (UInt32.ofNat cs.length) := by
  induction cs using List.reverseRecOn with
  | nil => rfl
  | append_singleton cs c ih =>
    have hnext : ((logged e cs).updateExtent c).extentSeqNo = some ((logged e cs).extentSeqNo.getD 0 + 1) := by
      unfold updateExtent
      split <;> rfl
    rw [logged_concat, hnext, ih, length_append, length_singleton, getD_some, UInt32.ofNat_add]
    rfl

theorem modified_concat (cs : List ExtentCall) (c : ExtentCall) (add : Bool) (b : UInt64) :
    modified (cs ++ [c]) add b = (modified cs add b || (touches add b c && c.bmapModified)) := by
  unfold modified
  rw [any_append, any_cons, any_nil, Bool.or_false]

theorem lookup_logged (e : InodeLogEntry) (cs : List ExtentCall) (add : Bool) (b : UInt64) :
    (extMap add (logged e cs)).lookup b = (lastOf (touches add b) cs).map (entryOf cs add b) := by
  induction cs using List.reverseRecOn with
  | nil =>
    cases add <;> rfl
  | append_singleton cs c ih =>
    have hany : ((lastOf (touches add b) cs).map (entryOf cs add b)).any (·.bmapModified) = modified cs add b := by
      cases h : lastOf (touches add b) cs with
      | none =>
        refine (List.any_eq_false.2 fun x hx => ?_).symm
        rw [lastOf_eq_none_iff.1 h x hx]
        exact Bool.false_ne_true
      | some x => rfl
    rw [logged_concat, extMap_updateExtent, lastOf_concat, logged_seqNo, getD_some]
    by_cases ht : touches add b c = true
    · obtain ⟨hadd, hb⟩ := touches_iff.1 ht
      rw [if_pos hadd, if_pos ht, lookup_updateExtMap, if_pos hb, ih, hany, map_some]
      unfold entryOf
      rw [modified_concat, ht, Bool.true_and]
    · have hsame : modified (cs ++ [c]) add b = modified cs add b := by
        rw [modified_concat, (Bool.not_eq_true _).mp ht, Bool.false_and, Bool.or_false]
      have hentry : entryOf (cs ++ [c]) add b = entryOf cs add b := by
        funext x
        unfold entryOf
        rw [hsame]
      rw [if_neg ht, hentry, ← ih]
      by_cases hadd : c.addOrDel = add
      · have hb : c.blockNo ≠ b := fun hb => ht (touches_iff.2 ⟨hadd, hb⟩)
        rw [if_pos hadd, lookup_updateExtMap, if_neg hb]
      · rw [if_neg hadd]

/-! ## The calls that are applied -/

/-- The call is the last that adds the extent at its block. -/
def Adds (cs : List ExtentCall) (c : ExtentCall) : Prop := ∃ n, lastOf (touches true c.blockNo) cs = some (c, n)

/-- The last deletion of its block, with a sequence number above that of the last addition. -/
def Dels (cs : List ExtentCall) (c : ExtentCall) : Prop :=
  ∃ n, lastOf (touches false c.blockNo) cs = some (c, n) ∧
    ∀ a m, lastOf (touches true c.blockNo) cs = some (a, m) → UInt32.ofNat m < UInt32.ofNat n

/-- The same extents, in another order: the order in which `unordered_map` gives them is not known.
-/
structure Reordered (e e' : InodeLogEntry) : Prop where
  adds : e'.extAdd.entries.Perm e.extAdd.entries
  dels : e'.extDel.entries.Perm e.extDel.entries

section Applied

variable {e e' : InodeLogEntry} {cs : List ExtentCall} {x : (_ : UInt64) × ExtMapVal}

theorem mem_extMap_logged {k : Bool} : x ∈ (extMap k (logged e cs)).entries ↔
      ∃ c n, lastOf (touches k c.blockNo) cs = some (c, n) ∧ c.addOrDel = k ∧
        x = ⟨c.blockNo, entryOf cs k c.blockNo (c, n)⟩ := by
  constructor
  · intro hmem
    obtain ⟨b, val⟩ := x
    rw [← AList.mem_lookup_iff, lookup_logged, mem_def, map_eq_some_iff] at hmem
    obtain ⟨⟨c, n⟩, hlast, rfl⟩ := hmem
    obtain ⟨hadd, rfl⟩ := touches_iff.1 (lastOf_some hlast).2
    exact ⟨c, n, hlast, hadd, rfl⟩
  · rintro ⟨c, n, hlast, -, rfl⟩
    rw [← AList.mem_lookup_iff, lookup_logged, hlast]
    rfl

section

variable (h : Reordered (logged e cs) e')

include h

theorem Reordered.mem_adds : x ∈ e'.extAdd.entries ↔ ∃ c n, lastOf (touches true c.blockNo) cs = some (c, n) ∧
    c.addOrDel = true ∧
      x = ⟨c.blockNo, entryOf cs true c.blockNo (c, n)⟩ :=
  h.adds.mem_iff.trans (mem_extMap_logged (k := true))

theorem Reordered.deletes_iff {c : ExtentCall} {n : ℕ} : e'.deletes
    ⟨c.blockNo, entryOf cs false c.blockNo (c, n)⟩ = true ↔
      ∀ a m, lastOf (touches true c.blockNo) cs = some (a, m) → UInt32.ofNat m < UInt32.ofNat n := by
  unfold InodeLogEntry.deletes
  have hlookup : e'.extAdd.lookup c.blockNo = (lastOf (touches true c.blockNo) cs).map (entryOf cs true c.blockNo) :=
    (AList.perm_lookup h.adds).trans (lookup_logged e cs true c.blockNo)
  dsimp only
  rw [hlookup]
  cases lastOf (touches true c.blockNo) cs with
  | none => exact ⟨fun _ a m ha => (some_ne_none _ ha.symm).elim, fun _ => rfl⟩
  | some y =>
    change decide (UInt32.ofNat y.2 < UInt32.ofNat n) = true ↔ _
    rw [decide_eq_true_iff]
    refine ⟨fun hlt a m ha => ?_, fun hall => hall y.1 y.2 rfl⟩
    cases ha
    exact hlt

theorem Reordered.mem_dels : x ∈ e'.extDel.entries.filter e'.deletes ↔ ∃ c n,
    lastOf (touches false c.blockNo) cs = some (c, n) ∧
      c.addOrDel = false ∧ (∀ a m, lastOf (touches true c.blockNo) cs = some (a, m) → UInt32.ofNat m < UInt32.ofNat n) ∧
        x = ⟨c.blockNo, entryOf cs false c.blockNo (c, n)⟩ := by
  rw [mem_filter, h.dels.mem_iff]
  constructor
  · rintro ⟨hmem, hdel⟩
    obtain ⟨c, n, hlast, hadd, rfl⟩ := (mem_extMap_logged (k := false)).1 hmem
    exact ⟨c, n, hlast, hadd, h.deletes_iff.1 hdel, rfl⟩
  · rintro ⟨c, n, hlast, hadd, hseq, rfl⟩
    exact ⟨(mem_extMap_logged (k := false)).2 ⟨c, n, hlast, hadd, rfl⟩, h.deletes_iff.2 hseq⟩

end

end Applied

/-! ## The extents -/

section Last

variable {α E : Type*} {l : List α} {p : α → Bool} {f : α → E} {w : E} {x : α}

theorem filter_concat_of_pos (hx : p x = true) : (l ++ [x]).filter p = l.filter p ++ [x] := by
  rw [filter_append, filter_cons_of_pos hx, filter_nil]

theorem filter_concat_of_neg (hx : ¬ p x = true) : (l ++ [x]).filter p = l.filter p := by
  rw [filter_append, filter_cons_of_neg hx, filter_nil, append_nil]

theorem last_filter_eq (hex : ∃ x ∈ l, p x = true) (hall : ∀ x ∈ l, p x = true → f x = w) :
    (l.filter p).getLast?.map f = some w := by
  obtain ⟨x, hx, hp⟩ := hex
  cases hlast : (l.filter p).getLast? with
  | none =>
    rw [List.getLast?_eq_none_iff] at hlast
    exact absurd (mem_filter.2 ⟨hx, hp⟩) (hlast ▸ not_mem_nil)
  | some y =>
    obtain ⟨hy, hpy⟩ := mem_filter.1 (mem_of_getLast? hlast)
    rw [map_some, hall y hy hpy]

theorem last_filter_none (h : ∀ x ∈ l, ¬ p x = true) : (l.filter p).getLast? = none := by
  rw [List.getLast?_eq_none_iff, filter_eq_nil_iff]
  exact h

theorem exists_perm_concat (hx : x ∈ l) : ∃ l', (l' ++ [x]).Perm l := by
  obtain ⟨s, t, rfl⟩ := append_of_mem hx
  exact ⟨s ++ t, (perm_append_singleton x _).trans perm_middle.symm⟩

end Last

theorem foldl_setExtent {α : Type*} (idx : α → Option (Fin nextentArr)) (val : α → CfsExtent) (l : List α)
    (d : CfsDinode) (i : Fin nextentArr) :
    (l.foldl (fun d x => d.setExtent (idx x) (val x)) d).extArray i =
      ((l.filter fun x => idx x == some i).getLast?.map val).getD (d.extArray i) := by
  induction l using List.reverseRecOn with
  | nil => rfl
  | append_singleton l x ih =>
    rw [foldl_append]
    change (CfsDinode.setExtent _ (idx x) (val x)).extArray i = _
    by_cases hx : idx x = some i
    · rw [filter_concat_of_pos (p := fun x => idx x == some i) (beq_iff_eq.2 hx), List.getLast?_concat, hx]
      exact Function.update_self ..
    · rw [filter_concat_of_neg (p := fun x => idx x == some i) fun h => hx (beq_iff_eq.1 h), ← ih]
      cases hidx : idx x with
      | none => rfl
      | some j => exact Function.update_of_ne (fun h : i = j => hx (hidx.trans (congrArg some h.symm))) ..

/-- The extent that an entry of the map of added extents writes. -/
def addVal (x : (_ : UInt64) × ExtMapVal) : CfsExtent :=
  ⟨x.2.iBlockOffset, x.2.numBlocks, x.1 - UInt64.ofNat getDataStartBlock⟩

/-- What an entry of the map of deleted extents writes. -/
def delVal (x : (_ : UInt64) × ExtMapVal) : CfsExtent := ⟨0, 0, x.1 - UInt64.ofNat getDataStartBlock⟩

/-- The entry is about slot `i`. -/
def hits (i : Fin nextentArr) (x : (_ : UInt64) × ExtMapVal) : Bool :=
  getCurrentExtentArrIdx x.2.iBlockOffset == some i

theorem applyFields_extArray (e : InodeLogEntry) (d : CfsDinode) : (e.applyFields d).extArray = d.extArray := by
  unfold applyFields
  simp only [apply_ite CfsDinode.extArray, ite_self]

theorem applyChangesTo_extArray (e : InodeLogEntry) (d : CfsDinode) (blocks : BlocksAddOrDel) (i : Fin nextentArr) :
    (e.applyChangesTo d blocks).1.extArray i = (((e.extDel.entries.filter e.deletes).filter
      (hits i)).getLast?.map delVal).getD
        (((e.extAdd.entries.filter (hits i)).getLast?.map addVal).getD (d.extArray i)) := by
  have hdel := foldl_setExtent (fun x : (_ : UInt64) × ExtMapVal => getCurrentExtentArrIdx x.2.iBlockOffset) delVal
    (e.extDel.entries.filter e.deletes) (e.extAdd.entries.foldl addExtent (e.applyFields d)) i
  have hadd := foldl_setExtent (fun x : (_ : UInt64) × ExtMapVal => getCurrentExtentArrIdx x.2.iBlockOffset) addVal
    e.extAdd.entries (e.applyFields d) i
  rw [applyFields_extArray] at hadd
  exact hdel.trans (congrArg _ hadd)

/-- The calls that are applied last to an extent all write `w`: deletions, or additions when no
deletion is applied to it. -/
def SlotSettled (cs : List ExtentCall) (i : Fin nextentArr) (w : CfsExtent) : Prop :=
  ((∃ c, Dels cs c ∧ extentIdx c = some i) ∧ ∀ c, Dels cs c → extentIdx c = some i → written c = w) ∨
    ((∀ c, Dels cs c → extentIdx c ≠ some i) ∧ (∃ c, Adds cs c ∧ extentIdx c = some i) ∧
      ∀ c, Adds cs c → extentIdx c = some i → written c = w)

section Slots

variable {e e' : InodeLogEntry} {cs : List ExtentCall} {i : Fin nextentArr} {w : CfsExtent}

theorem convLbaToPba_sub (lba : UInt64) : convLbaToPba lba - UInt64.ofNat getDataStartBlock = lba := by
  rw [convLbaToPba, Layout.convLbaToPba, UInt64.ofNat_add, UInt64.ofNat_toNat]
  exact UInt64.add_sub_cancel ..

section

variable (h : Reordered (logged e cs) e')

include h

theorem Reordered.adds_hit {v : CfsExtent} : (∃ x ∈ e'.extAdd.entries, hits i x = true ∧ addVal x = v) ↔
      ∃ c, Adds cs c ∧ extentIdx c = some i ∧ written c = v := by
  constructor
  · rintro ⟨x, hx, hhit, rfl⟩
    obtain ⟨c, n, hlast, hadd, rfl⟩ := h.mem_adds.1 hx
    refine ⟨c, ⟨n, hlast⟩, beq_iff_eq.1 hhit, ?_⟩
    unfold written addVal
    rw [if_pos hadd]
    exact congrArg (CfsExtent.mk _ _) (convLbaToPba_sub _).symm
  · rintro ⟨c, ⟨n, hlast⟩, hidx, rfl⟩
    have hadd := (touches_iff.1 (lastOf_some hlast).2).1
    refine ⟨_, h.mem_adds.2 ⟨c, n, hlast, hadd, rfl⟩, beq_iff_eq.2 hidx, ?_⟩
    unfold written addVal
    rw [if_pos hadd]
    exact congrArg (CfsExtent.mk _ _) (convLbaToPba_sub _)

theorem Reordered.dels_hit {v : CfsExtent} :
    (∃ x ∈ e'.extDel.entries.filter e'.deletes, hits i x = true ∧ delVal x = v) ↔ ∃ c, Dels cs c ∧
      extentIdx c = some i ∧ written c = v := by
  constructor
  · rintro ⟨x, hx, hhit, rfl⟩
    obtain ⟨c, n, hlast, hadd, hseq, rfl⟩ := h.mem_dels.1 hx
    refine ⟨c, ⟨n, hlast, hseq⟩, beq_iff_eq.1 hhit, ?_⟩
    unfold written delVal
    rw [hadd]
    exact congrArg (CfsExtent.mk _ _) (convLbaToPba_sub _).symm
  · rintro ⟨c, ⟨n, hlast, hseq⟩, hidx, rfl⟩
    have hadd := (touches_iff.1 (lastOf_some hlast).2).1
    refine ⟨_, h.mem_dels.2 ⟨c, n, hlast, hadd, hseq, rfl⟩, beq_iff_eq.2 hidx, ?_⟩
    unfold written delVal
    rw [hadd]
    exact congrArg (CfsExtent.mk _ _) (convLbaToPba_sub _)

theorem Reordered.no_dels (hno : ∀ c, Dels cs c → extentIdx c ≠ some i) :
    ((e'.extDel.entries.filter e'.deletes).filter (hits i)).getLast? = none := by
  refine last_filter_none fun x hx hhit => ?_
  obtain ⟨c, hdel, hidx, -⟩ := h.dels_hit.1 ⟨x, hx, hhit, rfl⟩
  exact hno c hdel hidx

end

theorem SlotSettled.extArray (hs : SlotSettled cs i w) (h : Reordered (logged e cs) e') (d : CfsDinode)
    (blocks : BlocksAddOrDel) : (e'.applyChangesTo d blocks).1.extArray i = w := by
  rw [applyChangesTo_extArray]
  rcases hs with ⟨⟨c, hdel, hidx⟩, hall⟩ | ⟨hno, ⟨c, hadd, hidx⟩, hall⟩
  · obtain ⟨x, hx, hhit, -⟩ := h.dels_hit.2 ⟨c, hdel, hidx, rfl⟩
    rw [last_filter_eq ⟨x, hx, hhit⟩ fun y hy hhit => ?_, getD_some]
    obtain ⟨c, hdel, hidx, hw⟩ := h.dels_hit.1 ⟨y, hy, hhit, rfl⟩
    exact hw ▸ hall c hdel hidx
  · obtain ⟨x, hx, hhit, -⟩ := h.adds_hit.2 ⟨c, hadd, hidx, rfl⟩
    rw [h.no_dels hno, map_none, getD_none, last_filter_eq ⟨x, hx, hhit⟩ fun y hy hhit => ?_, getD_some]
    obtain ⟨c, hadd, hidx, hw⟩ := h.adds_hit.1 ⟨y, hy, hhit, rfl⟩
    exact hw ▸ hall c hadd hidx

theorem Reordered.refl (e : InodeLogEntry) : Reordered e e := ⟨.refl _, .refl _⟩

theorem exists_reordered_adds {x : (_ : UInt64) × ExtMapVal} (hx : x ∈ e.extAdd.entries) :
    ∃ e' l, Reordered e e' ∧ e'.extAdd.entries = l ++ [x] := by
  obtain ⟨l, hl⟩ := exists_perm_concat hx
  exact ⟨{ e with extAdd := ⟨l ++ [x], (perm_nodupKeys hl).2 e.extAdd.nodupKeys⟩ }, l, ⟨hl, .refl _⟩, rfl⟩

theorem exists_reordered_dels {x : (_ : UInt64) × ExtMapVal} (hx : x ∈ e.extDel.entries.filter e.deletes) :
    ∃ e' l, Reordered e e' ∧ e'.extDel.entries.filter e'.deletes = l ++ [x] := by
  obtain ⟨hmem, hdel⟩ := mem_filter.1 hx
  obtain ⟨l, hl⟩ := exists_perm_concat hmem
  exact ⟨{ e with extDel := ⟨l ++ [x], (perm_nodupKeys hl).2 e.extDel.nodupKeys⟩ }, l.filter e.deletes,
    ⟨.refl _, hl⟩, filter_concat_of_pos hdel⟩

theorem slotSettled_of_extArray (h : ∀ d e', Reordered (logged e cs) e' →
    (e'.applyChangesTo d ∅).1.extArray i = w) : SlotSettled cs i w := by
  have hbase := Reordered.refl (logged e cs)
  by_cases hdels : ∃ c, Dels cs c ∧ extentIdx c = some i
  · refine Or.inl ⟨hdels, fun c hdel hidx => ?_⟩
    obtain ⟨x, hx, hhit, hval⟩ := hbase.dels_hit.2 ⟨c, hdel, hidx, rfl⟩
    obtain ⟨e', l, hre, hl⟩ := exists_reordered_dels hx
    have hw := h .zero e' hre
    rw [applyChangesTo_extArray, hl, filter_concat_of_pos hhit, List.getLast?_concat, map_some, getD_some] at hw
    exact hval.symm.trans hw
  · have hno : ∀ c, Dels cs c → extentIdx c ≠ some i := fun c hdel hidx => hdels ⟨c, hdel, hidx⟩
    refine Or.inr ⟨hno, ?_, fun c hadd hidx => ?_⟩
    · by_contra hadds
      -- Without any call for it the extent keeps its value, which is not always `w`.
      have hkept (d : CfsDinode) : d.extArray i = w := by
        have hw := h d _ hbase
        rw [applyChangesTo_extArray, hbase.no_dels hno, last_filter_none] at hw
        · exact hw
        · intro x hx hhit
          obtain ⟨c, hadd, hidx, -⟩ := hbase.adds_hit.1 ⟨x, hx, hhit, rfl⟩
          exact hadds ⟨c, hadd, hidx⟩
      have hzero := hkept .zero
      have hone := hkept { CfsDinode.zero with extArray := fun _ => ⟨1, 0, 0⟩ }
      cases hzero.trans hone.symm
    · obtain ⟨x, hx, hhit, hval⟩ := hbase.adds_hit.2 ⟨c, hadd, hidx, rfl⟩
      obtain ⟨e', l, hre, hl⟩ := exists_reordered_adds hx
      have hw := h .zero e' hre
      rw [applyChangesTo_extArray, hre.no_dels hno, hl, filter_concat_of_pos hhit, List.getLast?_concat] at hw
      exact hval.symm.trans hw

end Slots

/-! ## The bits of the blocks -/

theorem lookup_foldl_insert {α : Type*} (p : α → Bool) (key : α → UInt64) (val : α → Bool) (l : List α)
    (m : BlocksAddOrDel) (b : UInt64) :
    (l.foldl (fun m x => if p x then m.insert (key x) (val x) else m) m).lookup b =
      ((l.filter fun x => p x && key x == b).getLast?.map val).or (m.lookup b) := by
  induction l using List.reverseRecOn with
  | nil => rfl
  | append_singleton l x ih =>
    rw [foldl_append]
    by_cases hx : (p x && key x == b) = true
    · obtain ⟨hp, hb⟩ := and_eq_true_iff.1 hx
      rw [filter_concat_of_pos (p := fun x => p x && key x == b) hx, List.getLast?_concat, foldl_cons, foldl_nil,
        if_pos hp, beq_iff_eq.1 hb, AList.lookup_insert]
      rfl
    · rw [filter_concat_of_neg (p := fun x => p x && key x == b) hx, ← ih, foldl_cons, foldl_nil]
      by_cases hp : p x = true
      · rw [if_pos hp, AList.lookup_insert_ne]
        rintro rfl
        exact hx (and_eq_true_iff.2 ⟨hp, beq_self_eq_true _⟩)
      · rw [if_neg hp]

variable {e e' : InodeLogEntry} {cs : List ExtentCall}

theorem Reordered.adds_bit (h : Reordered (logged e cs) e') :
    (∃ x ∈ e'.extAdd.entries, (x.2.bmapModified && x.1 == b) = true) ↔ modified cs true b = true := by
  constructor
  · rintro ⟨x, hx, hbit⟩
    obtain ⟨c, n, -, -, rfl⟩ := h.mem_adds.1 hx
    obtain ⟨hmod, hb⟩ := and_eq_true_iff.1 hbit
    exact beq_iff_eq.1 hb ▸ hmod
  · intro hmod
    cases hlast : lastOf (touches true b) cs with
    | none =>
      obtain ⟨c, hc, hbit⟩ := List.any_eq_true.1 hmod
      rw [lastOf_eq_none_iff.1 hlast c hc] at hbit
      cases hbit
    | some y =>
      obtain ⟨hadd, rfl⟩ := touches_iff.1 (lastOf_some hlast).2
      exact ⟨_, h.mem_adds.2 ⟨y.1, y.2, hlast, hadd, rfl⟩, and_eq_true_iff.2 ⟨hmod, beq_self_eq_true _⟩⟩

/-- A deletion of the block is applied, and one of them modifies the bitmap. -/
def BitCleared (cs : List ExtentCall) (b : UInt64) : Prop :=
  (∃ c, Dels cs c ∧ c.blockNo = b) ∧ modified cs false b = true

theorem Reordered.dels_bit (h : Reordered (logged e cs) e') :
    (∃ x ∈ e'.extDel.entries.filter e'.deletes, (x.2.bmapModified && x.1 == b) = true) ↔ BitCleared cs b := by
  constructor
  · rintro ⟨x, hx, hbit⟩
    obtain ⟨c, n, hlast, -, hseq, rfl⟩ := h.mem_dels.1 hx
    obtain ⟨hmod, hb⟩ := and_eq_true_iff.1 hbit
    obtain rfl := beq_iff_eq.1 hb
    exact ⟨⟨c, ⟨n, hlast, hseq⟩, rfl⟩, hmod⟩
  · rintro ⟨⟨c, ⟨n, hlast, hseq⟩, rfl⟩, hmod⟩
    have hadd := (touches_iff.1 (lastOf_some hlast).2).1
    exact ⟨_, h.mem_dels.2 ⟨c, n, hlast, hadd, hseq, rfl⟩, and_eq_true_iff.2 ⟨hmod, beq_self_eq_true _⟩⟩

theorem applyChangesTo_lookup (e : InodeLogEntry) (d : CfsDinode) (b : UInt64) : (e.applyChangesTo d ∅).2.lookup b =
      (((e.extDel.entries.filter e.deletes).filter fun x => x.2.bmapModified && x.1 == b).getLast?.map fun _ =>
        false).or
        ((e.extAdd.entries.filter fun x => x.2.bmapModified && x.1 == b).getLast?.map fun _ => true) := by
  have hdel := lookup_foldl_insert (fun x : (_ : UInt64) × ExtMapVal => x.2.bmapModified) (·.1) (fun _ => false)
    (e.extDel.entries.filter e.deletes) (e.extAdd.entries.foldl (record true) ∅) b
  have hadd := lookup_foldl_insert (fun x : (_ : UInt64) × ExtMapVal => x.2.bmapModified) (·.1)
    (fun _ => true) e.extAdd.entries ∅ b
  rw [AList.lookup_empty, or_none] at hadd
  exact hdel.trans (congrArg _ hadd)

theorem lookup_of_cleared (h : Reordered (logged e cs) e') (d : CfsDinode) (hb : BitCleared cs b) :
    (e'.applyChangesTo d ∅).2.lookup b = some false := by
  rw [applyChangesTo_lookup, last_filter_eq (h.dels_bit.2 hb) fun _ _ _ => rfl, some_or]

theorem lookup_of_not_cleared (h : Reordered (logged e cs) e') (d : CfsDinode) (hb : ¬ BitCleared cs b) :
    (e'.applyChangesTo d ∅).2.lookup b = if modified cs true b then some true else none := by
  rw [applyChangesTo_lookup, last_filter_none fun x hx hbit => hb (h.dels_bit.1 ⟨x, hx, hbit⟩), map_none, none_or]
  by_cases hmod : modified cs true b = true
  · rw [if_pos hmod, last_filter_eq (h.adds_bit.2 hmod) fun _ _ _ => rfl]
  · rw [if_neg hmod, last_filter_none fun x hx hbit => hmod (h.adds_bit.1 ⟨x, hx, hbit⟩), map_none]

/-! ## The two compared -/

/-- The last call about slot `i`. -/
def lastAt (cs : List ExtentCall) (i : Fin nextentArr) : Option ExtentCall :=
  (cs.filter fun c => extentIdx c == some i).getLast?

/-- The last call that changes the bit of block `b`. -/
def lastBit (cs : List ExtentCall) (b : UInt64) : Option ExtentCall :=
  (cs.filter fun c => c.bmapModified && c.blockNo == b).getLast?

/-- In every slot and at every bit the last call is the one that the replay of the maps applies
last. -/
structure InOrder (cs : List ExtentCall) : Prop where
  slots : ∀ i c, lastAt cs i = some c → SlotSettled cs i (written c)
  bits : ∀ b c, lastBit cs b = some c → (c.addOrDel = false ↔ BitCleared cs b)

theorem replay_extArray (d : CfsDinode) (cs : List ExtentCall) (i : Fin nextentArr) :
    (replay d cs).extArray i = ((lastAt cs i).map written).getD (d.extArray i) :=
  foldl_setExtent extentIdx written cs d i

theorem replayBlocks_lookup (cs : List ExtentCall) (b : UInt64) :
    (replayBlocks cs).lookup b = (lastBit cs b).map (·.addOrDel) := by
  have h := lookup_foldl_insert (fun c : ExtentCall => c.bmapModified) (·.blockNo) (·.addOrDel) cs ∅ b
  rw [AList.lookup_empty, or_none] at h
  exact h

theorem extArray_of_lastAt_none {i : Fin nextentArr} (hnone : lastAt cs i = none) (h : Reordered (logged e cs) e')
    (d : CfsDinode) : (e'.applyChangesTo d ∅).1.extArray i = d.extArray i := by
  have hfree : ∀ c ∈ cs, extentIdx c ≠ some i := fun c hc hidx => by
    have hnil := List.getLast?_eq_none_iff.1 hnone
    exact absurd (beq_iff_eq.2 hidx) (filter_eq_nil_iff.1 hnil c hc)
  rw [applyChangesTo_extArray, h.no_dels fun c ⟨n, hlast, _⟩ => hfree c (lastOf_some hlast).1, last_filter_none]
  · rfl
  · intro x hx hhit
    obtain ⟨c, ⟨n, hlast⟩, hidx, -⟩ := h.adds_hit.1 ⟨x, hx, hhit, rfl⟩
    exact hfree c (lastOf_some hlast).1 hidx

theorem modified_eq_false (hnone : lastBit cs b = none) (add : Bool) : modified cs add b = false := by
  refine List.any_eq_false.2 fun c hc hbit => ?_
  obtain ⟨ht, hmod⟩ := and_eq_true_iff.1 hbit
  have hnil := List.getLast?_eq_none_iff.1 hnone
  refine filter_eq_nil_iff.1 hnil c hc (and_eq_true_iff.2 ⟨hmod, ?_⟩)
  exact beq_iff_eq.2 (touches_iff.1 ht).2

theorem modified_of_lastBit {c : ExtentCall} (hlast : lastBit cs b = some c) : modified cs c.addOrDel b = true := by
  obtain ⟨hc, hbit⟩ := mem_filter.1 (mem_of_getLast? hlast)
  obtain ⟨hmod, hb⟩ := and_eq_true_iff.1 hbit
  exact List.any_eq_true.2 ⟨c, hc, and_eq_true_iff.2 ⟨touches_iff.2 ⟨rfl, beq_iff_eq.1 hb⟩, hmod⟩⟩

theorem lookup_eq_iff (h : Reordered (logged e cs) e') (d : CfsDinode) (b : UInt64) :
    (e'.applyChangesTo d ∅).2.lookup b = (replayBlocks cs).lookup b ↔ ∀ c, lastBit cs b = some c →
      (c.addOrDel = false ↔ BitCleared cs b) := by
  rw [replayBlocks_lookup]
  cases hlast : lastBit cs b with
  | none =>
    have hclear : ¬ BitCleared cs b := fun hb => by
      rw [BitCleared, modified_eq_false hlast false] at hb
      cases hb.2
    rw [lookup_of_not_cleared h d hclear, modified_eq_false hlast true]
    exact ⟨fun _ c hc => (some_ne_none _ hc.symm).elim, fun _ => rfl⟩
  | some c =>
    have hmod := modified_of_lastBit hlast
    simp only [Option.some.injEq, forall_eq', map_some]
    by_cases hb : BitCleared cs b
    · rw [lookup_of_cleared h d hb, Option.some.injEq, eq_comm]
      exact ⟨fun hc => ⟨fun _ => hb, fun _ => hc⟩, fun hiff => hiff.2 hb⟩
    · rw [lookup_of_not_cleared h d hb]
      cases hc : c.addOrDel with
      | true =>
        rw [hc] at hmod
        rw [if_pos hmod]
        exact ⟨fun _ => ⟨fun h => (Bool.noConfusion h), fun h => absurd h hb⟩, fun _ => rfl⟩
      | false =>
        refine ⟨fun heq => ?_, fun hiff => absurd (hiff.1 rfl) hb⟩
        split at heq <;> cases heq

/-- **Log application equals in-order replay** for the sequences of calls of `InOrder`, and for no other. -/
theorem applyChangesTo_replays_iff (e : InodeLogEntry) (cs : List ExtentCall) : (∀ d e', Reordered (logged e cs) e' →
      (∀ i, (e'.applyChangesTo d ∅).1.extArray i = (replay d cs).extArray i) ∧
        ∀ b, (e'.applyChangesTo d ∅).2.lookup b = (replayBlocks cs).lookup b) ↔ InOrder cs := by
  constructor
  · intro h
    refine ⟨fun i c hlast => slotSettled_of_extArray (e := e) fun d e' hre => ?_, fun b => ?_⟩
    · rw [(h d e' hre).1 i, replay_extArray, hlast]
      rfl
    · have hbase := Reordered.refl (logged e cs)
      exact (lookup_eq_iff hbase .zero b).mp ((h .zero _ hbase).2 b)
  · intro h d e' hre
    refine ⟨fun i => ?_, fun b => (lookup_eq_iff hre d b).mpr (h.bits b)⟩
    rw [replay_extArray]
    cases hlast : lastAt cs i with
    | none => exact extArray_of_lastAt_none hlast hre d
    | some c => exact (h.slots i c hlast).extArray hre d ∅

/-- A deletion of block 1 of an extent, and then the addition of block 2 in its place. -/
def deleteThenAdd : List ExtentCall := [⟨⟨0, 1, 1⟩, false, true⟩, ⟨⟨0, 1, 2⟩, true, true⟩]

/-- **The extent that was added last is lost**: the deletion is applied after it. -/
theorem added_extent_lost : ∃ e d i, ((logged e deleteThenAdd).applyChangesTo d ∅).1.extArray i = ⟨0, 0, 1⟩ ∧
      (replay d deleteThenAdd).extArray i = ⟨0, 1, 2⟩ := by
  refine ⟨⟨0, 0, 0, 0, 0, 0, 0, 0, 0, 0, 0, ⟨0, 0⟩, ⟨0, 0⟩, ⟨0, 0⟩, some 0, ∅, ∅, ∅, none⟩, .zero, 0, ?_, ?_⟩
  · decide +kernel
  · decide +kernel

end Ufs.Proof.Entry
