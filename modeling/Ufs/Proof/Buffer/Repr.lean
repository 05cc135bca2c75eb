import Ufs.Framework.Run
import Ufs.Impl.BlockBuffer

/-!
# The representation of the block buffer

The five structures of the buffer say the same of every item (`Repr`) as long as a dirty block keeps
its index, an item that becomes free is not taken again for the index that it had, and items are
installed for an index that has no dirty items on record (`Proper`). This module has the operations
on one item.
-/

namespace Ufs.Proof.Buffer

open Impl Impl.BlockBuffer
open Function (update update_of_ne update_self update_apply update_eq_self)
open List Option

variable {k k' i j b : ℕ} {l : List (ℕ × ℕ)} {e : ℕ × ℕ}

/-! ## What is to hold -/

/-- The slots on the LRU list, in its order. -/
def listed (s : BlockBuffer) : List ℕ := s.cacheItemsList.map Prod.snd

/-- The slots on the LRU list whose item is dirty. -/
def dirtyItems (s : BlockBuffer) : Finset ℕ := (listed s).toFinset.filter fun i => (s.item i).isDirty = true

/-- The items `held` are in the list or free, and all that is recorded of them agrees. -/
structure Repr (held : Finset ℕ) (s : BlockBuffer) : Prop where
  nodup : (listed s).Nodup
  blockNo : ∀ b i, (b, i) ∈ s.cacheItemsList → (s.item i).blockNo = b
  inverse : ∀ b e, s.cacheItemsMap b = some e ↔ e ∈ s.cacheItemsList ∧ e.1 = b
  freeNodup : s.freeItems.Nodup
  apart : ∀ i ∈ s.freeItems, i ∉ listed s
  all : ∀ i, i ∈ held ↔ i ∈ listed s ∨ i ∈ s.freeItems
  index : ∀ k i, i ∈ itemsAt s.blockIndexMap k ↔ i ∈ listed s ∧ k ≠ 0 ∧ (s.item i).itemIndex = k
  dirty : ∀ k i, i ∈ itemsAt s.dirtyIndexMap k ↔ i ∈ listed s ∧ (s.item i).isDirty = true ∧ (s.item i).itemIndex = k
  num : s.dirtyItemNum = (dirtyItems s).card
  clean : ∀ i ∈ s.freeItems, (s.item i).isDirty = false
  noZero : s.blockIndexMap 0 = none

/-- The items that a buffer holds after a step: some are handed over and some come in. -/
def heldAfter (held : Finset ℕ) : Label → BlockBuffer → Finset ℕ
  | .split index _, s => held \ itemsAt s.blockIndexMap index
  | .install _ items, _ => held ∪ (items.map Prod.fst).toFinset
  | _, _ => held

/-- A dirty block keeps its index; a free item is not taken for the index that it has; what is installed has the index,
is of blocks that are not there, and finds no dirty items of the index on record. -/
def Proper : Label → BlockBuffer → Prop
  | .getBlock b k, s =>
    (∀ e, s.cacheItemsMap b = some e → (s.item e.2).status ≠ .locked → (s.item e.2).isDirty = true →
      (s.item e.2).itemIndex = k) ∧
    (s.cacheItemsMap b = none → ∀ i rest, s.freeItems = i :: rest → k ≠ 0 → (s.item i).itemIndex ≠ k)
  | .setItemDirty i _ k, s => i ∈ listed s ∧ (s.item i).status = .locked ∧ (s.item i).itemIndex = k
  | .releaseUnlinked k _, _ => 1 < k
  | .install k items, s =>
    k ≠ 0 ∧ (items.map Prod.fst).Nodup ∧ (items.map fun x => x.2.blockNo).Nodup ∧
      (∀ x ∈ items, x.1 ∉ listed s ∧ x.1 ∉ s.freeItems ∧ x.2.itemIndex = k ∧ s.cacheItemsMap x.2.blockNo = none) ∧
      ((∃ x ∈ items, x.2.isDirty = true) → s.dirtyIndexMap k = none)
  | _, _ => True

/-! ## Sets and lists -/

theorem itemsAt_update (m : ℕ → Option (Finset ℕ)) (k k' : ℕ) (v : Option (Finset ℕ)) :
    itemsAt (update m k v) k' = if k' = k then v.getD ∅ else itemsAt m k' := by
  unfold itemsAt
  rw [update_apply]
  split_ifs <;> rfl

section

variable {m : ℕ → Option (Finset ℕ)}

theorem mem_eraseAt : j ∈ itemsAt (eraseAt m k i) k' ↔ j ∈ itemsAt m k' ∧ ¬ (k' = k ∧ j = i) := by
  rw [eraseAt, itemsAt_update]
  split_ifs with h
  · subst h
    simp [and_comm]
  · simp [h]

theorem mem_emplaceAt : j ∈ itemsAt (emplaceAt m k i) k' ↔ j ∈ itemsAt m k' ∨ k' = k ∧ j = i := by
  rw [emplaceAt, itemsAt_update]
  split_ifs with h
  · subst h
    simp [or_comm]
  · simp [h]

theorem mem_eraseKey : j ∈ itemsAt (eraseKey m k) k' ↔ j ∈ itemsAt m k' ∧ k' ≠ k := by
  rw [eraseKey, itemsAt_update]
  split_ifs with h <;> simp [h]

end

@[simp] theorem setItem_item_self (s : BlockBuffer) (i : ℕ) (x : BlockBufferItem) : (s.setItem i x).item i = x :=
  update_self ..

theorem setItem_item_of_ne (s : BlockBuffer) (hj : j ≠ i) (x : BlockBufferItem) :
    (s.setItem i x).item j = s.item j := update_of_ne hj ..

theorem mem_listed {s : BlockBuffer} : i ∈ listed s ↔ ∃ b, (b, i) ∈ s.cacheItemsList := by
  simp [listed]

theorem mem_dirtyItems {s : BlockBuffer} : i ∈ dirtyItems s ↔ i ∈ listed s ∧ (s.item i).isDirty = true := by
  simp [dirtyItems]

theorem mem_erase_entry (hnd : (l.map Prod.snd).Nodup) {x : ℕ × ℕ} (he : e ∈ l) :
    x ∈ l.erase e ↔ x ∈ l ∧ x.2 ≠ e.2 := by
  rw [hnd.of_map.mem_erase_iff]
  constructor
  · rintro ⟨hne, hx⟩
    refine ⟨hx, fun h => hne ?_⟩
    exact inj_on_of_nodup_map hnd hx he h
  · rintro ⟨hx, hne⟩
    exact ⟨fun h => hne (by rw [h]), hx⟩

theorem nodup_erase_entry (hnd : (l.map Prod.snd).Nodup) (e : ℕ × ℕ) : ((l.erase e).map Prod.snd).Nodup :=
  hnd.sublist (erase_sublist.map _)

section

variable {held : Finset ℕ} {s s' : BlockBuffer} (h : Repr held s)

include h

theorem Repr.entry (hi : i ∈ listed s) : ((s.item i).blockNo, i) ∈ s.cacheItemsList := by
  obtain ⟨b, hb⟩ := mem_listed.1 hi
  rw [h.blockNo b i hb]
  exact hb

theorem Repr.found (he : s.cacheItemsMap b = some e) : e = (b, e.2) ∧ e.2 ∈ listed s := by
  obtain ⟨hmem, rfl⟩ := (h.inverse b e).1 he
  exact ⟨rfl, mem_listed.2 ⟨e.1, hmem⟩⟩

theorem Repr.setItem {x : BlockBufferItem} (hb : x.blockNo = (s.item i).blockNo)
    (hk : x.itemIndex = (s.item i).itemIndex) (hd : x.isDirty = (s.item i).isDirty) : Repr held (s.setItem i x) := by
  have hitem (j : ℕ) : ((s.setItem i x).item j).blockNo = (s.item j).blockNo ∧
    ((s.setItem i x).item j).itemIndex = (s.item j).itemIndex ∧
      ((s.setItem i x).item j).isDirty = (s.item j).isDirty := by
    by_cases hj : j = i
    · subst hj
      rw [setItem_item_self]
      exact ⟨hb, hk, hd⟩
    · rw [setItem_item_of_ne _ hj]
      exact ⟨rfl, rfl, rfl⟩
  refine ⟨h.nodup, fun b j hj => ?_, h.inverse, h.freeNodup, h.apart, h.all, fun k j => ?_, fun k j => ?_, ?_,
    fun j hj => ?_, h.noZero⟩
  · rw [(hitem j).1]
    exact h.blockNo b j hj
  · rw [(hitem j).2.1]
    exact h.index k j
  · rw [(hitem j).2.1, (hitem j).2.2]
    exact h.dirty k j
  · have hset : dirtyItems (s.setItem i x) = dirtyItems s := by
      ext j
      rw [mem_dirtyItems, mem_dirtyItems, (hitem j).2.2]
      rfl
    rw [hset]
    exact h.num
  · rw [(hitem j).2.2]
    exact h.clean j hj

/-! ## `getBlock` -/

/-- Item `i` is now that of block `b` at index `k`, at the head of the list or elsewhere in it. -/
structure Relocked (s s' : BlockBuffer) (b k i : ℕ) : Prop where
  list : ∀ e, e ∈ s'.cacheItemsList ↔ e ∈ s.cacheItemsList ∧ e.2 ≠ i ∨ e = (b, i)
  nodup : (listed s').Nodup
  mapb : s'.cacheItemsMap b = some (b, i)
  map : ∀ b' e, b' ≠ b → (s'.cacheItemsMap b' = some e ↔ s.cacheItemsMap b' = some e ∧ e.2 ≠ i)
  frees : s'.freeItems.Nodup ∧ ∀ j, j ∈ s'.freeItems ↔ j ∈ s.freeItems ∧ j ≠ i
  item : ∀ j, j ≠ i → s'.item j = s.item j
  itemi : (s'.item i).blockNo = b ∧ (s'.item i).itemIndex = k ∧ (s'.item i).isDirty = (s.item i).isDirty
  index : ∀ k' j, j ∈ itemsAt s'.blockIndexMap k' ↔ if j = i then k' = k ∧ k ≠ 0 ∧
    ((s.item i).itemIndex ≠ k ∨ i ∈ itemsAt s.blockIndexMap k) else j ∈ itemsAt s.blockIndexMap k'
  zero : s'.blockIndexMap 0 = none
  dirtyMap : s'.dirtyIndexMap = s.dirtyIndexMap
  num : s'.dirtyItemNum = s.dirtyItemNum

section

variable (hr : Relocked s s' b k i) (hheld : i ∈ held)

include hr

omit h in
theorem Relocked.listed (j : ℕ) : j ∈ Buffer.listed s' ↔ j ∈ Buffer.listed s ∨ j = i := by
  rw [mem_listed, mem_listed]
  constructor
  · rintro ⟨b', hb'⟩
    rcases (hr.list _).1 hb' with ⟨hmem, -⟩ | heq
    · exact .inl ⟨b', hmem⟩
    · cases heq
      exact .inr rfl
  · rintro (⟨b', hb'⟩ | rfl)
    · by_cases hj : j = i
      · subst hj
        exact ⟨b, (hr.list _).2 (.inr rfl)⟩
      · exact ⟨b', (hr.list _).2 (.inl ⟨hb', hj⟩)⟩
    · exact ⟨b, (hr.list _).2 (.inr rfl)⟩

theorem Repr.inverse_relocked (hb : ∀ e, s.cacheItemsMap b = some e → e.2 = i) (b' : ℕ) (e : ℕ × ℕ) :
    s'.cacheItemsMap b' = some e ↔ e ∈ s'.cacheItemsList ∧ e.1 = b' := by
  by_cases hbb : b' = b
  · subst hbb
    rw [hr.mapb]
    constructor
    · intro he
      cases he
      exact ⟨(hr.list _).2 (.inr rfl), rfl⟩
    · rintro ⟨hmem, hfst⟩
      rcases (hr.list _).1 hmem with ⟨hmem, hne⟩ | rfl
      · exact absurd (hb e ((h.inverse b' e).2 ⟨hmem, hfst⟩)) hne
      · rfl
  · rw [hr.map b' e hbb, h.inverse b' e, hr.list e]
    constructor
    · rintro ⟨⟨hmem, hfst⟩, hne⟩
      exact ⟨.inl ⟨hmem, hne⟩, hfst⟩
    · rintro ⟨⟨hmem, hne⟩ | rfl, hfst⟩
      · exact ⟨⟨hmem, hfst⟩, hne⟩
      · exact absurd hfst.symm hbb

include hheld

theorem Repr.index_relocked (hfree : i ∈ s.freeItems → k ≠ 0 → (s.item i).itemIndex ≠ k) (k' j : ℕ) :
    j ∈ itemsAt s'.blockIndexMap k' ↔ j ∈ listed s' ∧ k' ≠ 0 ∧ (s'.item j).itemIndex = k' := by
  rw [hr.index, hr.listed]
  split_ifs with hj
  · subst hj
    rw [hr.itemi.2.1]
    constructor
    · rintro ⟨rfl, hk, -⟩
      exact ⟨.inr rfl, hk, rfl⟩
    · rintro ⟨-, hk, rfl⟩
      refine ⟨rfl, hk, ?_⟩
      by_cases hidx : (s.item j).itemIndex = k
      · refine .inr ((h.index k j).2 ⟨?_, hk, hidx⟩)
        rcases (h.all j).1 hheld with hl | hf
        · exact hl
        · exact absurd hidx (hfree hf hk)
      · exact .inl hidx
  · rw [h.index, hr.item j hj]
    simp [hj]

omit hr in
/-- A dirty item is in the list, for free items are clean. -/
theorem Repr.listed_of_dirty (hd : (s.item i).isDirty = true) : i ∈ listed s := by
  rcases (h.all i).1 hheld with hl | hf
  · exact hl
  · rw [h.clean i hf] at hd
    cases hd

theorem Repr.dirty_relocked (hdirty : (s.item i).isDirty = true → (s.item i).itemIndex = k) (k' j : ℕ) :
    j ∈ itemsAt s'.dirtyIndexMap k' ↔
      j ∈ listed s' ∧ (s'.item j).isDirty = true ∧ (s'.item j).itemIndex = k' := by
  rw [hr.dirtyMap, h.dirty, hr.listed]
  by_cases hj : j = i
  · subst hj
    rw [hr.itemi.2.1, hr.itemi.2.2]
    constructor
    · rintro ⟨hl, hd, hidx⟩
      exact ⟨.inr rfl, hd, (hdirty hd).symm.trans hidx⟩
    · rintro ⟨-, hd, hidx⟩
      exact ⟨h.listed_of_dirty hheld hd, hd, (hdirty hd).trans hidx⟩
  · rw [hr.item j hj]
    simp [hj]

theorem Repr.dirtyItems_relocked : dirtyItems s' = dirtyItems s := by
  ext j
  rw [mem_dirtyItems, mem_dirtyItems, hr.listed]
  by_cases hj : j = i
  · subst hj
    rw [hr.itemi.2.2]
    exact ⟨fun hd => ⟨h.listed_of_dirty hheld hd.2, hd.2⟩, fun hd => ⟨.inr rfl, hd.2⟩⟩
  · rw [hr.item j hj]
    simp [hj]

theorem Repr.relock (hb : ∀ e, s.cacheItemsMap b = some e → e.2 = i)
    (hdirty : (s.item i).isDirty = true → (s.item i).itemIndex = k)
    (hfree : i ∈ s.freeItems → k ≠ 0 → (s.item i).itemIndex ≠ k) : Repr held s' := by
  refine ⟨hr.nodup, fun b' j hj => ?_, h.inverse_relocked hr hb, hr.frees.1, fun j hj => ?_, fun j => ?_,
    h.index_relocked hr hheld hfree, h.dirty_relocked hr hheld hdirty, ?_, fun j hj => ?_, hr.zero⟩
  · rcases (hr.list _).1 hj with ⟨hmem, hne⟩ | heq
    · rw [hr.item j hne]
      exact h.blockNo b' j hmem
    · cases heq
      exact hr.itemi.1
  · obtain ⟨hf, hne⟩ := (hr.frees.2 j).1 hj
    rw [hr.listed]
    rintro (hl | hji)
    · exact h.apart j hf hl
    · exact hne hji
  · rw [hr.listed, hr.frees.2, h.all]
    by_cases hj : j = i
    · subst hj
      simpa using (h.all j).1 hheld
    · simp [hj]
  · rw [hr.num, h.dirtyItems_relocked hr hheld]
    exact h.num
  · obtain ⟨hf, hne⟩ := (hr.frees.2 j).1 hj
    rw [hr.item j hne]
    exact h.clean j hf

end

omit h in
theorem mem_grab_index (hold : ∀ k', i ∈ itemsAt s.blockIndexMap k' → k' ≠ 0 ∧ k' = (s.item i).itemIndex) :
    j ∈ itemsAt (s.grab b k i).blockIndexMap k' ↔ if j = i then k' = k ∧ k ≠ 0 ∧
      ((s.item i).itemIndex ≠ k ∨ i ∈ itemsAt s.blockIndexMap k)
      else j ∈ itemsAt s.blockIndexMap k' := by
  unfold BlockBuffer.grab
  dsimp only
  by_cases hsame : (s.item i).itemIndex = k
  · rw [if_neg fun hx => hx.1 hsame, if_neg fun hx => hx.1 hsame]
    split_ifs with hj
    · subst hj
      constructor
      · intro hin
        obtain ⟨hne, hk⟩ := hold k' hin
        obtain rfl : k' = k := hk.trans hsame
        exact ⟨rfl, hne, Or.inr hin⟩
      · rintro ⟨rfl, -, hne | hin⟩
        · exact absurd hsame hne
        · exact hin
    · exact Iff.rfl
  · have herased : j ∈ itemsAt (if (s.item i).itemIndex ≠ k ∧ (s.item i).itemIndex ≠ 0 then
        eraseAt s.blockIndexMap (s.item i).itemIndex i else s.blockIndexMap) k' ↔
        j ∈ itemsAt s.blockIndexMap k' ∧ j ≠ i := by
      split_ifs with hx
      · rw [mem_eraseAt]
        refine and_congr_right fun hin => ⟨fun hno hj => ?_, fun hne hx => hne hx.2⟩
        subst hj
        exact hno ⟨(hold k' hin).2, rfl⟩
      · refine ⟨fun hin => ⟨hin, ?_⟩, fun hin => hin.1⟩
        rintro rfl
        obtain ⟨hne, hk⟩ := hold k' hin
        exact hx ⟨hsame, hk ▸ hne⟩
    by_cases hk0 : k = 0
    · rw [if_neg fun hx => hx.2 hk0, herased]
      split_ifs with hj
      · simp [hj, hk0]
      · simp [hj]
    · rw [if_pos ⟨hsame, hk0⟩, mem_emplaceAt, herased]
      split_ifs with hj
      · simp [hj, hk0, hsame]
      · simp [hj]

omit h in
theorem grab_index_zero (b k i : ℕ) : (s.grab b k i).blockIndexMap 0 = s.blockIndexMap 0 := by
  have hother (m : ℕ → Option (Finset ℕ)) {k' : ℕ} (hk : k' ≠ 0) (v : Option (Finset ℕ)) : update m k' v 0 = m 0 :=
    update_of_ne (Ne.symm hk) ..
  unfold BlockBuffer.grab
  dsimp only
  split_ifs with h1 h2 h2
  · rw [emplaceAt, hother _ h1.2, eraseAt, hother _ h2.2]
  · rw [emplaceAt, hother _ h1.2]
  · rw [eraseAt, hother _ h2.2]
  · rfl

theorem Repr.grab {s₁ : BlockBuffer} (hheld : i ∈ held) (hb : ∀ e, s.cacheItemsMap b = some e → e.2 = i)
    (hdirty : (s.item i).isDirty = true → (s.item i).itemIndex = k)
      (hfree : i ∈ s.freeItems → k ≠ 0 → (s.item i).itemIndex ≠ k)
    (hs₁ : s₁.cacheItemsList = (b, i) :: l) (hl : ∀ e, e ∈ l ↔ e ∈ s.cacheItemsList ∧ e.2 ≠ i)
      (hnodup : (l.map Prod.snd).Nodup)
    (hmap : ∀ b' e, b' ≠ b → (s₁.cacheItemsMap b' = some e ↔ s.cacheItemsMap b' = some e ∧ e.2 ≠ i))
    (hfrees : s₁.freeItems.Nodup ∧ ∀ j, j ∈ s₁.freeItems ↔ j ∈ s.freeItems ∧ j ≠ i)
      (hitem : ∀ j, j ≠ i → s₁.item j = s.item j)
    (hitemi : (s₁.item i).itemIndex = (s.item i).itemIndex ∧ (s₁.item i).isDirty = (s.item i).isDirty)
    (hindex : s₁.blockIndexMap = s.blockIndexMap) (hdirtyMap : s₁.dirtyIndexMap = s.dirtyIndexMap)
    (hnum : s₁.dirtyItemNum = s.dirtyItemNum) : Repr held (s₁.grab b k i) := by
  have hold (k' : ℕ) (hin : i ∈ itemsAt s₁.blockIndexMap k') : k' ≠ 0 ∧ k' = (s₁.item i).itemIndex := by
    rw [hindex] at hin
    obtain ⟨-, hne, hk⟩ := (h.index k' i).1 hin
    exact ⟨hne, by rw [hitemi.1, hk]⟩
  refine h.relock ⟨fun e => ?_, ?_, ?_, fun b' e hbb => ?_, hfrees, fun j hj => ?_, ?_, fun k' j => ?_, ?_, hdirtyMap,
    hnum⟩ hheld hb hdirty hfree
  · change e ∈ s₁.cacheItemsList ↔ _
    rw [hs₁, mem_cons, hl]
    exact or_comm
  · change (s₁.cacheItemsList.map Prod.snd).Nodup
    rw [hs₁, map_cons, nodup_cons]
    refine ⟨fun hin => ?_, hnodup⟩
    obtain ⟨e, he, hei⟩ := List.mem_map.1 hin
    exact ((hl e).1 he).2 hei
  · change update s₁.cacheItemsMap b s₁.cacheItemsList.head? b = _
    rw [update_self, hs₁]
    rfl
  · change update s₁.cacheItemsMap b s₁.cacheItemsList.head? b' = _ ↔ _
    rw [update_of_ne hbb]
    exact hmap b' e hbb
  · change update s₁.item i _ j = _
    rw [update_of_ne hj]
    exact hitem j hj
  · have hself : (s₁.grab b k i).item i = { s₁.item i with blockNo := b, status := .locked, itemIndex := k } :=
      update_self ..
    rw [hself]
    exact ⟨rfl, rfl, hitemi.2⟩
  · rw [mem_grab_index hold, hindex, hitemi.1]
  · rw [grab_index_zero, hindex]
    exact h.noZero

omit h in
theorem findReplacement_spec {item : ℕ → BlockBufferItem} {hasDirty hasDirty' : Bool}
    (hs : findReplacement item l hasDirty = (some e, hasDirty')) :
      e ∈ l ∧ (item e.2).status ≠ .locked ∧ (item e.2).isDirty = false := by
  induction l generalizing hasDirty with
  | nil => cases hs
  | cons x rest ih =>
    rw [findReplacement] at hs
    split_ifs at hs with hl hd
    · obtain ⟨hmem, hx⟩ := ih hs
      exact ⟨mem_cons_of_mem _ hmem, hx⟩
    · obtain ⟨hmem, hx⟩ := ih hs
      exact ⟨mem_cons_of_mem _ hmem, hx⟩
    · cases hs
      exact ⟨mem_cons_self, hl, by simpa using hd⟩

/-- The block is in the buffer. -/
theorem Repr.getBlock_hit {r : GotBlock} {e : ℕ × ℕ} (hm : s.cacheItemsMap b = some e)
    (hhit : (s.item e.2).status ≠ .locked → (s.item e.2).isDirty = true → (s.item e.2).itemIndex = k)
    (hs : s.getBlock b k = some (s', r)) : Repr held s' := by
  unfold BlockBuffer.getBlock at hs
  rw [hm] at hs
  dsimp only at hs
  obtain ⟨he, hlist⟩ := h.found hm
  have hmem := ((h.inverse b e).1 hm).1
  split_ifs at hs with hlock
  · cases hs
    exact h
  · cases hs
    refine h.grab ((h.all _).2 (.inl hlist)) (fun e' he' => ?_) (hhit hlock) (fun hf => ?_) (congrArg₂ _ he rfl)
      (fun x => mem_erase_entry h.nodup hmem) (nodup_erase_entry h.nodup e) (fun b' e' hbb => ?_)
      ⟨h.freeNodup, fun j => ?_⟩ (fun j _ => rfl) ⟨rfl, rfl⟩ rfl rfl rfl
    · rw [hm] at he'
      cases he'
      rfl
    · exact absurd hlist (h.apart _ hf)
    · refine ⟨fun hx => ⟨hx, fun hi => hbb ?_⟩, fun hx => hx.1⟩
      -- the item is in one entry only
      obtain ⟨hmem', hfst⟩ := (h.inverse b' e').1 hx
      rw [← hfst, inj_on_of_nodup_map h.nodup hmem' hmem hi, he]
    · refine ⟨fun hf => ⟨hf, ?_⟩, fun hf => hf.1⟩
      rintro rfl
      exact h.apart _ hf hlist

/-- The block gets a free item. -/
theorem Repr.getBlock_free {r : GotBlock} {rest : List ℕ} (hm : s.cacheItemsMap b = none)
    (hf : s.freeItems = i :: rest) (hmiss : k ≠ 0 → (s.item i).itemIndex ≠ k)
    (hs : s.getBlock b k = some (s', r)) : Repr held s' := by
  unfold BlockBuffer.getBlock at hs
  rw [hm] at hs
  dsimp only at hs
  rw [hf] at hs
  cases hs
  have hfi : i ∈ s.freeItems := by rw [hf]; exact mem_cons_self
  have hnl := h.apart i hfi
  have hnd := h.freeNodup
  rw [hf, nodup_cons] at hnd
  refine h.grab ((h.all i).2 (.inr hfi)) (fun e he => ?_) (fun hd => ?_) (fun _ => hmiss) rfl
    (fun e => ?_) h.nodup (fun b' e hbb => ?_) ⟨hnd.2, fun j => ?_⟩ (fun j hj => ?_) ?_ rfl rfl rfl
  · rw [hm] at he
    cases he
  · rw [h.clean i hfi] at hd
    cases hd
  · refine ⟨fun he => ⟨he, ?_⟩, fun he => he.1⟩
    rintro rfl
    exact hnl (mem_listed.2 ⟨e.1, he⟩)
  · refine ⟨fun he => ⟨he, ?_⟩, fun he => he.1⟩
    rintro rfl
    exact hnl (h.found he).2
  · rw [hf, mem_cons]
    constructor
    · intro hj
      refine ⟨.inr hj, ?_⟩
      rintro rfl
      exact hnd.1 hj
    · rintro ⟨rfl | hj, hne⟩
      · exact absurd rfl hne
      · exact hj
  · exact setItem_item_of_ne _ hj _
  · rw [setItem_item_self]
    exact ⟨rfl, rfl⟩

/-- The block gets the item of a clean one. -/
theorem Repr.getBlock_replace {r : GotBlock} (hm : s.cacheItemsMap b = none) (hf : s.freeItems = [])
    (hs : s.getBlock b k = some (s', r)) : Repr held s' := by
  unfold BlockBuffer.getBlock at hs
  rw [hm] at hs
  dsimp only at hs
  rw [hf] at hs
  dsimp only at hs
  split_ifs at hs with hempty
  · cases hs
    exact h
  · cases hr : findReplacement s.item s.cacheItemsList.reverse false with
    | mk x hasDirty =>
      rw [hr] at hs
      cases x with
      | none => cases hs
      | some e =>
        cases hs
        obtain ⟨hmem, -, hclean⟩ := findReplacement_spec hr
        rw [mem_reverse] at hmem
        have hlist : e.2 ∈ listed s := mem_listed.2 ⟨e.1, hmem⟩
        have hno := h.blockNo e.1 e.2 hmem
        refine h.grab ((h.all _).2 (.inl hlist)) (fun e' he' => ?_) (fun hd => ?_) (fun hfi => ?_) rfl
          (fun x => mem_erase_entry h.nodup hmem) (nodup_erase_entry h.nodup e) (fun b' e' hbb => ?_)
          ⟨nodup_nil, fun j => ?_⟩ (fun j hj => ?_) ?_ rfl rfl rfl
        · rw [hm] at he'
          cases he'
        · rw [hclean] at hd
          cases hd
        · rw [hf] at hfi
          cases hfi
        · change update s.cacheItemsMap (s.item e.2).blockNo none b' = some e' ↔ _
          rw [hno, update_apply]
          split_ifs with hb'
          · refine ⟨fun hx => ?_, fun hx => ?_⟩
            · cases hx
            · obtain ⟨hmem', hfst⟩ := (h.inverse b' e').1 hx.1
              have hee : s.cacheItemsMap b' = some e := (h.inverse b' e).2 ⟨hmem, hb'.symm⟩
              rw [hee] at hx
              cases hx.1
              exact absurd rfl hx.2
          · refine ⟨fun hx => ⟨hx, fun hi => hb' ?_⟩, fun hx => hx.1⟩
            obtain ⟨hmem', hfst⟩ := (h.inverse b' e').1 hx
            rw [← hfst, inj_on_of_nodup_map h.nodup hmem' hmem hi]
        · change j ∈ [] ↔ _
          rw [hf]
          simp
        · exact setItem_item_of_ne _ hj _
        · rw [setItem_item_self]
          exact ⟨rfl, rfl⟩

theorem Repr.getBlock {r : GotBlock} (hp : Proper (.getBlock b k) s) (hs : s.getBlock b k = some (s', r)) :
    Repr held s' := by
  obtain ⟨hhit, hmiss⟩ := hp
  cases hm : s.cacheItemsMap b with
  | some e => exact h.getBlock_hit hm (hhit e hm) hs
  | none =>
    cases hf : s.freeItems with
    | cons i rest => exact h.getBlock_free hm hf (hmiss hm i rest hf) hs
    | nil => exact h.getBlock_replace hm hf hs

/-! ## Dirty items -/

theorem Repr.mark {d : Bool} (hi : i ∈ listed s) (hlist : ∀ e, e ∈ s'.cacheItemsList ↔ e ∈ s.cacheItemsList)
    (hnodup : (listed s').Nodup) (hmap : s'.cacheItemsMap = s.cacheItemsMap) (hfree : s'.freeItems = s.freeItems)
    (hitem : s'.item = (s.setDirty i d).item) (hindex : s'.blockIndexMap = s.blockIndexMap)
    (hdirty : ∀ k j, j ∈ itemsAt s'.dirtyIndexMap k ↔ if j = i then d = true ∧
      (s.item i).itemIndex = k else j ∈ itemsAt s.dirtyIndexMap k)
    (hnum : s'.dirtyItemNum = s.dirtyItemNum + (if d then 1 else 0) - (if (s.item i).isDirty then 1 else 0)) :
      Repr held s' := by
  have hself : s'.item i = { s.item i with isDirty := d } := by rw [hitem]; exact setItem_item_self ..
  have hother {j : ℕ} (hj : j ≠ i) : s'.item j = s.item j := by rw [hitem]; exact setItem_item_of_ne _ hj _
  have hsame (j : ℕ) : (s'.item j).blockNo = (s.item j).blockNo ∧ (s'.item j).itemIndex = (s.item j).itemIndex := by
    by_cases hj : j = i
    · rw [hj, hself]
      exact ⟨rfl, rfl⟩
    · rw [hother hj]
      exact ⟨rfl, rfl⟩
  have hlisted (j : ℕ) : j ∈ listed s' ↔ j ∈ listed s := by
    rw [mem_listed, mem_listed]
    exact exists_congr fun b => hlist (b, j)
  refine ⟨hnodup, fun b j hj => ?_, fun b e => ?_, hfree ▸ h.freeNodup, fun j hj => ?_, fun j => ?_, fun k j => ?_,
    fun k j => ?_, ?_, fun j hj => ?_, hindex ▸ h.noZero⟩
  · rw [(hsame j).1]
    exact h.blockNo b j ((hlist _).1 hj)
  · rw [hmap, hlist]
    exact h.inverse b e
  · rw [hlisted]
    exact h.apart j (hfree ▸ hj)
  · rw [hlisted, hfree]
    exact h.all j
  · rw [hindex, hlisted, (hsame j).2]
    exact h.index k j
  · rw [hdirty, hlisted, (hsame j).2]
    split_ifs with hj
    · rw [hj, hself]
      simp [hi]
    · rw [hother hj]
      exact h.dirty k j
  · have hset (j : ℕ) : j ∈ dirtyItems s' ↔ if j = i then d = true else j ∈ dirtyItems s := by
      rw [mem_dirtyItems, mem_dirtyItems, hlisted]
      split_ifs with hj
      · rw [hj, hself]
        simp [hi]
      · rw [hother hj]
    have hmem : i ∈ dirtyItems s ↔ (s.item i).isDirty = true := by simp [mem_dirtyItems, hi]
    rw [hnum, h.num]
    cases d with
    | true =>
      have hins : dirtyItems s' = insert i (dirtyItems s) := by
        ext j
        rw [hset, Finset.mem_insert]
        split_ifs with hj <;> simp [hj]
      by_cases hdi : (s.item i).isDirty = true
      · rw [hins, Finset.insert_eq_of_mem (hmem.2 hdi)]
        simp [hdi]
      · rw [hins, Finset.card_insert_of_notMem fun hx => hdi (hmem.1 hx)]
        simp [hdi]
    | false =>
      have hers : dirtyItems s' = (dirtyItems s).erase i := by
        ext j
        rw [hset, Finset.mem_erase]
        split_ifs with hj <;> simp [hj]
      by_cases hdi : (s.item i).isDirty = true
      · have hcard := Finset.card_erase_add_one (hmem.2 hdi)
        rw [hers, ← hcard]
        simp [hdi]
      · rw [hers, Finset.erase_eq_of_notMem fun hx => hdi (hmem.1 hx)]
        simp [hdi]
  · rw [hfree] at hj
    have hne : j ≠ i := by
      rintro rfl
      exact h.apart j hj hi
    rw [hother hne]
    exact h.clean j hj

omit h in
theorem adjustDirtyItemNum_eq {delta : ℤ} (hs : s.adjustDirtyItemNum delta = some s') :
    s' = { s with dirtyItemNum := s.dirtyItemNum + delta } := by
  unfold BlockBuffer.adjustDirtyItemNum at hs
  split_ifs at hs
  exact (Option.some.inj hs).symm

theorem Repr.setItemDirty {d : Bool} (hi : i ∈ listed s) (hk : (s.item i).itemIndex = k)
    (hs : s.setItemDirty i d k = some s') : Repr held s' := by
  unfold BlockBuffer.setItemDirty at hs
  dsimp only at hs
  split_ifs at hs with hsame horig
  · cases hs
    exact h.setItem rfl rfl hsame.symm
  · obtain ⟨s1, hs1, rfl⟩ := map_eq_some_iff.1 hs
    cases adjustDirtyItemNum_eq hs1
    have hd : d = false := by
      cases d
      · rfl
      · exact absurd horig hsame
    refine h.mark hi (fun _ => Iff.rfl) h.nodup rfl rfl rfl rfl (fun k' j => ?_) ?_
    · change j ∈ itemsAt (eraseAt s.dirtyIndexMap k i) k' ↔ _
      rw [mem_eraseAt]
      split_ifs with hj
      · subst hj
        rw [hd, h.dirty]
        simp only [and_true, Bool.false_eq_true, false_and, iff_false, not_and]
        rintro ⟨-, -, hk'⟩ hne
        exact hne (hk'.symm.trans hk)
      · simp [hj]
    · change s.dirtyItemNum + -1 = _
      simp [horig, hd]
      omega
  · obtain ⟨s1, hs1, rfl⟩ := map_eq_some_iff.1 hs
    cases adjustDirtyItemNum_eq hs1
    have hd : d = true := by
      cases d
      · exact absurd (by simpa using horig) hsame
      · rfl
    refine h.mark hi (fun _ => Iff.rfl) h.nodup rfl rfl rfl rfl (fun k' j => ?_) ?_
    · change j ∈ itemsAt (emplaceAt s.dirtyIndexMap k i) k' ↔ _
      rw [mem_emplaceAt]
      split_ifs with hj
      · subst hj
        rw [hd, h.dirty, hk]
        simp [horig, eq_comm]
      · simp [hj]
    · change s.dirtyItemNum + 1 = _
      simp [horig, hd]

theorem Repr.flushDoneBlock (he : s.cacheItemsMap b = some e) (hd : (s.item e.2).isDirty = true)
    (hs : s.flushDoneBlock b e = some s') : Repr held s' := by
  obtain ⟨hentry, hi⟩ := h.found he
  have hmem := ((h.inverse b e).1 he).1
  obtain ⟨s1, hs1, rfl⟩ := map_eq_some_iff.1 hs
  cases adjustDirtyItemNum_eq hs1
  have hperm : (s.cacheItemsList.erase e ++ [(b, e.2)]).Perm s.cacheItemsList := by
    rw [← hentry]
    exact (perm_append_singleton _ _).trans (perm_cons_erase hmem).symm
  refine h.mark hi (fun x => hperm.mem_iff) ?_ ?_ rfl rfl rfl (fun k j => ?_) ?_
  · exact (hperm.map Prod.snd).nodup_iff.2 h.nodup
  · change update s.cacheItemsMap b (some (b, e.2)) = s.cacheItemsMap
    rw [← hentry, ← he, update_eq_self]
  · change j ∈ itemsAt (eraseAt s.dirtyIndexMap ((s.setDirty e.2 false).item e.2).itemIndex e.2) k ↔ _
    rw [mem_eraseAt, BlockBuffer.setDirty, setItem_item_self]
    split_ifs with hj
    · subst hj
      rw [h.dirty]
      simp only [false_and, iff_false, not_and, and_true, not_not]
      rintro ⟨-, -, hk⟩
      exact hk.symm
    · simp [hj]
  · change s.dirtyItemNum + -1 = _
    simp [hd]
    omega

omit h in
theorem Repr.flushDoneLoop {blocks : List ℕ} {rc : ℤ} (h : Repr held s)
    (hs : flushDoneLoop blocks s = some (s', rc)) : Repr held s' := by
  induction blocks generalizing s with
  | nil =>
    cases hs
    exact h
  | cons b rest ih =>
    obtain ⟨e, he, hs⟩ := bind_eq_some_iff.1 hs
    split_ifs at hs with hd
    · obtain ⟨s₁, hs₁, hs⟩ := bind_eq_some_iff.1 hs
      exact ih (h.flushDoneBlock he hd hs₁) hs
    · cases hs
      exact h

end

end Ufs.Proof.Buffer
