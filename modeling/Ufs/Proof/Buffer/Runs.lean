import Ufs.Proof.Buffer.Repr

/-!
# Runs of the block buffer

The operations on all items of an index are loops, of which it is said what they have done so far
(`Dropped`, `Freed`). `buffer_repr`: in every run whose steps are proper the representation is kept.
`buffer_repr_broken` is what happens otherwise.
-/

namespace Ufs.Proof.Buffer

open Impl Impl.BlockBuffer
open Function (update update_of_ne update_apply)
open List (map_cons mem_append mem_cons mem_cons_of_mem mem_cons_self mem_filter mem_map mem_toFinset)
open Prod (fst)

/-! ## Items that leave the list -/

/-- `t` has of the list and the map of `s` all but the slots in `gone`. -/
structure Dropped (s : BlockBuffer) (gone : List ℕ) (t : BlockBuffer) : Prop where
  list : ∀ e, e ∈ t.cacheItemsList ↔ e ∈ s.cacheItemsList ∧ e.2 ∉ gone
  nodup : (listed t).Nodup
  map : ∀ b e, t.cacheItemsMap b = some e ↔ s.cacheItemsMap b = some e ∧ e.2 ∉ gone

variable {gone : List ℕ} {i : ℕ}

theorem Dropped.listed {s t : BlockBuffer} (h : Dropped s gone t) : i ∈ listed t ↔ i ∈ listed s ∧ i ∉ gone := by
  rw [mem_listed, mem_listed]
  constructor
  · rintro ⟨b, hb⟩
    obtain ⟨hmem, hno⟩ := (h.list _).1 hb
    exact ⟨⟨b, hmem⟩, hno⟩
  · rintro ⟨⟨b, hb⟩, hno⟩
    exact ⟨b, (h.list _).2 ⟨hb, hno⟩⟩

section

variable {held : Finset ℕ} {s : BlockBuffer} (h : Repr held s)

include h

theorem Repr.dropped_nil : Dropped s [] s :=
  ⟨fun _ => by simp, h.nodup, fun _ _ => by simp⟩

theorem Repr.dropEntry {t : BlockBuffer} (hd : Dropped s gone t) (hi : i ∈ listed s)
    (hno : i ∉ gone) (hb : (t.item i).blockNo = (s.item i).blockNo) {e : ℕ × ℕ}
      (he : t.cacheItemsMap (t.item i).blockNo = some e) :
    e = ((s.item i).blockNo, i) ∧ Dropped s (gone ++ [i]) (t.dropEntry e (t.item i).blockNo) := by
  have hentry := h.entry hi
  rw [hb] at he
  have hs : s.cacheItemsMap (s.item i).blockNo = some e := ((hd.map _ _).1 he).1
  have heq : e = ((s.item i).blockNo, i) := by
    have hs' := (h.inverse _ _).2 ⟨hentry, rfl⟩
    rw [hs] at hs'
    exact Option.some.inj hs'
  have hmem : e ∈ t.cacheItemsList := by
    rw [hd.list, heq]
    exact ⟨hentry, hno⟩
  refine ⟨heq, fun x => ?_, nodup_erase_entry hd.nodup e, fun b x => ?_⟩
  · change x ∈ t.cacheItemsList.erase e ↔ _
    rw [mem_erase_entry hd.nodup hmem, hd.list, heq]
    simp only [mem_append, List.mem_singleton, not_or, and_assoc]
  · change update t.cacheItemsMap (t.item i).blockNo none b = some x ↔ _
    rw [hb, update_apply]
    split_ifs with hbb
    · refine ⟨fun hx => ?_, fun hx => ?_⟩
      · cases hx
      · rw [hbb, hs] at hx
        cases hx.1
        rw [heq] at hx
        exact absurd (List.mem_append_right _ mem_cons_self) hx.2
    · rw [hd.map]
      simp only [mem_append, List.mem_singleton, not_or, ← and_assoc]
      refine ⟨fun hx => ⟨hx, fun hxi => hbb ?_⟩, fun hx => hx.1⟩
      obtain ⟨hx1, hfst⟩ := (h.inverse b x).1 hx.1
      have := h.blockNo x.1 x.2 hx1
      rw [← hfst, ← this, hxi]

/-- What the loop of `releaseUnlinkedInodeDirtyBlocks` has done to some of the items. -/
structure Freed (s : BlockBuffer) (gone : List ℕ) (t : BlockBuffer) : Prop where
  dropped : Dropped s gone t
  item : ∀ j, t.item j = if j ∈ gone then { s.item j with isDirty := false } else s.item j
  free : t.freeItems = s.freeItems ++ gone
  blockIndexMap : t.blockIndexMap = s.blockIndexMap
  dirtyIndexMap : t.dirtyIndexMap = s.dirtyIndexMap
  num : t.dirtyItemNum = s.dirtyItemNum - (gone.filter fun i => (s.item i).isDirty).length

variable {t t' : BlockBuffer}

theorem Repr.freeItem (hd : Freed s gone t) (hi : i ∈ listed s) (hno : i ∉ gone) (hs : t.freeItem i = some t') :
    Freed s (gone ++ [i]) t' := by
  have hti : t.item i = s.item i := by rw [hd.item, if_neg hno]
  obtain ⟨t1, ht1, hs⟩ := Option.bind_eq_some_iff.1 hs
  obtain ⟨e, he, rfl⟩ := Option.map_eq_some_iff.1 hs
  cases adjustDirtyItemNum_eq ht1
  have hself : (t.setDirty i false).item i = { s.item i with isDirty := false } := by
    rw [BlockBuffer.setDirty, setItem_item_self, hti]
  have hdrop : Dropped s gone { t.setDirty i false with
      dirtyItemNum := (t.setDirty i false).dirtyItemNum + if (t.item i).isDirty then -1 else 0 } :=
    ⟨hd.dropped.list, hd.dropped.nodup, hd.dropped.map⟩
  have hbno : ((t.setDirty i false).item i).blockNo = (s.item i).blockNo := by rw [hself]
  obtain ⟨-, hdrop⟩ := h.dropEntry hdrop hi hno hbno he
  refine ⟨⟨hdrop.list, hdrop.nodup, hdrop.map⟩, fun j => ?_, ?_, hd.blockIndexMap, hd.dirtyIndexMap, ?_⟩
  · change (t.setDirty i false).item j = _
    by_cases hj : j = i
    · rw [hj, hself, if_pos (List.mem_append_right _ mem_cons_self)]
    · rw [BlockBuffer.setDirty, setItem_item_of_ne _ hj, hd.item]
      simp [hj]
  · change t.freeItems ++ [i] = _
    rw [hd.free, List.append_assoc]
  · change t.dirtyItemNum + (if (t.item i).isDirty then -1 else 0) = _
    rw [hd.num, hti, List.filter_append, List.length_append]
    cases hdi : (s.item i).isDirty with
    | true =>
      simp [hdi]
      omega
    | false => simp [hdi]

theorem Repr.freeAll {gone order : List ℕ} (hd : Freed s gone t)
    (horder : ∀ i ∈ order, i ∈ listed s) (hnd : (gone ++ order).Nodup) (hs : freeAll order t = some t') :
      Freed s (gone ++ order) t' := by
  induction order generalizing gone t with
  | nil =>
    cases hs
    rw [List.append_nil]
    exact hd
  | cons i rest ih =>
    obtain ⟨t1, ht1, hs⟩ := Option.bind_eq_some_iff.1 hs
    have hno : i ∉ gone := by
      intro hx
      exact (List.nodup_append.1 hnd).2.2 i hx i mem_cons_self rfl
    rw [List.append_cons] at hnd ⊢
    exact ih (h.freeItem hd (horder i mem_cons_self) hno ht1) (fun j hj => horder j (mem_cons_of_mem _ hj)) hnd hs

theorem Repr.num_sdiff {t : BlockBuffer} (hnd : gone.Nodup) (hgone : ∀ i ∈ gone, i ∈ listed s)
    (hset : ∀ i, i ∈ dirtyItems t ↔ i ∈ dirtyItems s ∧ i ∉ gone) :
    ((dirtyItems t).card : ℤ) = s.dirtyItemNum - (gone.filter fun i => (s.item i).isDirty).length := by
  have hsub : (gone.filter fun i => (s.item i).isDirty).toFinset ⊆ dirtyItems s := by
    intro i hi
    rw [mem_toFinset, mem_filter] at hi
    exact mem_dirtyItems.2 ⟨hgone i hi.1, by simpa using hi.2⟩
  have heq : dirtyItems t = dirtyItems s \ (gone.filter fun i => (s.item i).isDirty).toFinset := by
    ext i
    rw [hset, Finset.mem_sdiff, mem_toFinset, mem_filter]
    refine and_congr_right fun hi => not_congr ⟨fun hg => ⟨hg, ?_⟩, fun hg => hg.1⟩
    simpa using (mem_dirtyItems.1 hi).2
  have hcard := Finset.card_le_card hsub
  rw [heq, Finset.card_sdiff_of_subset hsub, List.toFinset_card_of_nodup (hnd.filter _), h.num]
  rw [List.toFinset_card_of_nodup (hnd.filter _)] at hcard
  omega

section

variable {k : ℕ} {order : List ℕ}

theorem Repr.withoutIndex {t : BlockBuffer} {held' : Finset ℕ} (hk : k ≠ 0) (hnd : order.Nodup)
    (hin : ∀ i, i ∈ order ↔ i ∈ listed s ∧ (s.item i).itemIndex = k) (hd : Dropped s order t)
    (hitem : ∀ j, j ∉ order → t.item j = s.item j) (hindex : t.blockIndexMap = eraseKey s.blockIndexMap k)
    (hdirty : ∀ k' j, j ∈ itemsAt t.dirtyIndexMap k' ↔ j ∈ itemsAt s.dirtyIndexMap k' ∧ k' ≠ k)
    (hnum : t.dirtyItemNum = s.dirtyItemNum - (order.filter fun i => (s.item i).isDirty).length)
    (hfree : t.freeItems.Nodup) (hapart : ∀ j ∈ t.freeItems, j ∈ listed s → j ∈ order)
    (hall : ∀ j, j ∈ held' ↔ j ∈ listed s ∧ j ∉ order ∨ j ∈ t.freeItems)
    (hclean : ∀ j ∈ t.freeItems, (t.item j).isDirty = false) : Repr held' t := by
  have hlisted (j : ℕ) : j ∈ listed t ↔ j ∈ listed s ∧ j ∉ order := hd.listed
  have hother {j k' : ℕ} (hl : j ∈ listed s) : (s.item j).itemIndex = k' ∧ k' ≠ k ↔ j ∉ order ∧
    (s.item j).itemIndex = k' := by
    rw [hin]
    constructor
    · rintro ⟨rfl, hne⟩
      exact ⟨fun hx => hne hx.2, rfl⟩
    · rintro ⟨hno, rfl⟩
      exact ⟨rfl, fun hx => hno ⟨hl, hx⟩⟩
  refine ⟨hd.nodup, fun b j hj => ?_, fun b e => ?_, hfree, fun j hj hl => ?_, fun j => ?_, fun k' j => ?_,
    fun k' j => ?_, ?_, hclean, ?_⟩
  · obtain ⟨hmem, hno⟩ := (hd.list _).1 hj
    rw [hitem j hno]
    exact h.blockNo b j hmem
  · rw [hd.map, hd.list, h.inverse]
    exact and_right_comm
  · obtain ⟨hl, hno⟩ := (hlisted j).1 hl
    exact hno (hapart j hj hl)
  · rw [hall, hlisted]
  · rw [hindex, mem_eraseKey, h.index, hlisted]
    constructor
    · rintro ⟨⟨hl, hk', hidx⟩, hne⟩
      obtain ⟨hno, hidx⟩ := (hother hl).1 ⟨hidx, hne⟩
      rw [hitem j hno]
      exact ⟨⟨hl, hno⟩, hk', hidx⟩
    · rintro ⟨⟨hl, hno⟩, hk', hidx⟩
      rw [hitem j hno] at hidx
      obtain ⟨hidx, hne⟩ := (hother hl).2 ⟨hno, hidx⟩
      exact ⟨⟨hl, hk', hidx⟩, hne⟩
  · rw [hdirty, h.dirty, hlisted]
    constructor
    · rintro ⟨⟨hl, hdj, hidx⟩, hne⟩
      obtain ⟨hno, hidx⟩ := (hother hl).1 ⟨hidx, hne⟩
      rw [hitem j hno]
      exact ⟨⟨hl, hno⟩, hdj, hidx⟩
    · rintro ⟨⟨hl, hno⟩, hdj, hidx⟩
      rw [hitem j hno] at hdj hidx
      obtain ⟨hidx, hne⟩ := (hother hl).2 ⟨hno, hidx⟩
      exact ⟨⟨hl, hdj, hidx⟩, hne⟩
  · rw [hnum]
    refine (h.num_sdiff hnd (fun i hi => ((hin i).1 hi).1) fun i => ?_).symm
    rw [mem_dirtyItems, mem_dirtyItems, hlisted]
    by_cases hi : i ∈ order
    · simp [hi]
    · rw [hitem i hi]
      simp [hi]
  · rw [hindex, eraseKey, update_of_ne (Ne.symm hk)]
    exact h.noZero

theorem Repr.mem_order (horder : s.IsOrder k order) (hk : k ≠ 0) (i : ℕ) :
    i ∈ order ↔ i ∈ listed s ∧ (s.item i).itemIndex = k := by
  rw [← mem_toFinset, horder.2, h.index]
  simp [hk]

theorem Repr.releaseUnlinked {s' : BlockBuffer} (horder : s.IsOrder k order) (hk : k ≠ 0)
    (hs : s.releaseUnlinkedInodeDirtyBlocks k order = some s') : Repr held s' := by
  have hnd := horder.1
  have hin := h.mem_order horder hk
  obtain ⟨t, ht, rfl⟩ := Option.map_eq_some_iff.1 hs
  have hf : Freed s order t := by
    have hnil : Freed s [] s := ⟨h.dropped_nil, fun _ => by simp, by simp, rfl, rfl, by simp⟩
    exact h.freeAll hnil (fun i hi => ((hin i).1 hi).1) hnd ht
  have hfree (j : ℕ) : j ∈ t.freeItems ↔ j ∈ s.freeItems ∨ j ∈ order := by rw [hf.free, mem_append]
  refine h.withoutIndex hk hnd hin ⟨hf.dropped.list, hf.dropped.nodup, hf.dropped.map⟩ (fun j hj => ?_)
    (congrArg (eraseKey · k) hf.blockIndexMap) (fun k' j => ?_) hf.num ?_ (fun j hj hl => ?_) (fun j => ?_)
      fun j hj => ?_
  · exact (hf.item j).trans (if_neg hj)
  · rw [hf.dirtyIndexMap]
    split_ifs with hne
    · exact mem_eraseKey
    · refine ⟨fun hx => ⟨hx, ?_⟩, fun hx => hx.1⟩
      rintro rfl
      exact hne ⟨j, hx⟩
  · rw [hf.free, List.nodup_append]
    refine ⟨h.freeNodup, hnd, fun i hi j hj => ?_⟩
    rintro rfl
    exact h.apart i hi ((hin i).1 hj).1
  · exact ((hfree j).1 hj).resolve_left fun hj => h.apart j hj hl
  · rw [hfree, h.all]
    by_cases hj : j ∈ order
    · simp [hj, ((hin j).1 hj).1]
    · simp [hj]
  · rw [hf.item]
    split_ifs with hjo
    · rfl
    · exact h.clean j (((hfree j).1 hj).resolve_right hjo)

end

theorem Repr.splitAll {gone order : List ℕ} (hd : Dropped s gone t) (hitem : t.item = s.item)
    (horder : ∀ i ∈ order, i ∈ listed s) (hnd : (gone ++ order).Nodup) (hs : splitAll order t = some t') :
    Dropped s (gone ++ order) t' ∧ t' = { t with cacheItemsList := t'.cacheItemsList, cacheItemsMap := t'.cacheItemsMap } := by
  induction order generalizing gone t with
  | nil =>
    cases hs
    rw [List.append_nil]
    exact ⟨hd, rfl⟩
  | cons i rest ih =>
    obtain ⟨t1, ht1, hs⟩ := Option.bind_eq_some_iff.1 hs
    obtain ⟨e, he, ht1⟩ := Option.bind_eq_some_iff.1 ht1
    split_ifs at ht1
    cases ht1
    have hno : i ∉ gone := by
      intro hx
      exact (List.nodup_append.1 hnd).2.2 i hx i mem_cons_self rfl
    obtain ⟨-, hdrop⟩ := h.dropEntry hd (horder i mem_cons_self) hno (by rw [hitem]) he
    rw [List.append_cons] at hnd ⊢
    obtain ⟨hd', heq⟩ := ih hdrop hitem (fun j hj => horder j (mem_cons_of_mem _ hj)) hnd hs
    exact ⟨hd', heq⟩

theorem Repr.split {k : ℕ} {order : List ℕ} {s' : BlockBuffer} {r : Option (Finset ℕ)} (horder : s.IsOrder k order)
    (hs : s.splitBufferItemsByIndex k order = some (s', r)) : Repr (held \ itemsAt s.blockIndexMap k) s' := by
  have hnd := horder.1
  unfold BlockBuffer.splitBufferItemsByIndex at hs
  cases hm : s.blockIndexMap k with
  | none =>
    rw [hm] at hs
    cases hs
    have hempty : itemsAt s.blockIndexMap k = ∅ := by rw [itemsAt, hm]; rfl
    rw [hempty, Finset.sdiff_empty]
    exact h
  | some set =>
    rw [hm] at hs
    obtain ⟨s1, hs1, hs⟩ := Option.bind_eq_some_iff.1 hs
    obtain ⟨t, ht, hs⟩ := Option.map_eq_some_iff.1 hs
    cases hs
    cases adjustDirtyItemNum_eq hs1
    have hk : k ≠ 0 := by
      rintro rfl
      rw [h.noZero] at hm
      cases hm
    have hin := h.mem_order horder hk
    have hstart : Dropped s [] { s with
        dirtyItemNum := s.dirtyItemNum + -((itemsAt s.dirtyIndexMap k).card : ℤ)
        dirtyIndexMap := eraseKey s.dirtyIndexMap k } :=
      ⟨h.dropped_nil.list, h.nodup, h.dropped_nil.map⟩
    obtain ⟨hd, heq⟩ := h.splitAll hstart rfl (fun i hi => ((hin i).1 hi).1) hnd ht
    have hcard : (itemsAt s.dirtyIndexMap k).card = (order.filter fun i => (s.item i).isDirty).length := by
      rw [← List.toFinset_card_of_nodup (hnd.filter _)]
      congr 1
      ext i
      rw [h.dirty, mem_toFinset, mem_filter, hin]
      exact ⟨fun hx => ⟨⟨hx.1, hx.2.2⟩, hx.2.1⟩, fun hx => ⟨hx.1.1, hx.2, hx.1.2⟩⟩
    rw [heq]
    refine h.withoutIndex hk hnd hin ⟨hd.list, hd.nodup, hd.map⟩ (fun j _ => rfl) rfl (fun k' j => mem_eraseKey) ?_
      h.freeNodup (fun j hj hl => absurd hl (h.apart j hj)) (fun j => ?_) h.clean
    · rw [hcard, Int.sub_eq_add_neg]
    · rw [Finset.mem_sdiff, h.all, ← horder.2, mem_toFinset]
      constructor
      · rintro ⟨hl | hf, hno⟩
        · exact .inl ⟨hl, hno⟩
        · exact .inr hf
      · rintro (⟨hl, hno⟩ | hf)
        · exact ⟨.inl hl, hno⟩
        · exact ⟨.inr hf, fun hx => h.apart j hf ((hin j).1 hx).1⟩

end

/-! ## Items that come in -/

variable {items : List (ℕ × BlockBufferItem)}

theorem installAll_spec {s : BlockBuffer}
    (hnd : (items.map fst).Nodup) (hbnd : (items.map fun x => x.2.blockNo).Nodup) (hlist : (listed s).Nodup)
      (hnew : ∀ x ∈ items, x.1 ∉ listed s)
    (hinv : ∀ x ∈ items, s.cacheItemsMap x.2.blockNo = none) :
    (∀ e, e ∈ (items.foldl installItem s).cacheItemsList ↔ e ∈ s.cacheItemsList ∨ ∃ x ∈ items, e = (x.2.blockNo, x.1)) ∧
      (listed (items.foldl installItem s)).Nodup ∧ (∀ b e, (items.foldl installItem s).cacheItemsMap b = some e ↔
        s.cacheItemsMap b = some e ∨ ∃ x ∈ items, e = (x.2.blockNo, x.1) ∧ b = x.2.blockNo) ∧
      (∀ x ∈ items, (items.foldl installItem s).item x.1 = x.2) ∧
        (∀ j, j ∉ items.map fst → (items.foldl installItem s).item j = s.item j) ∧
      items.foldl installItem s = { s with
          item := (items.foldl installItem s).item
          cacheItemsList := (items.foldl installItem s).cacheItemsList
          cacheItemsMap := (items.foldl installItem s).cacheItemsMap } := by
  induction items generalizing s with
  | nil => simp [hlist]
  | cons x rest ih =>
    rw [map_cons, List.nodup_cons] at hnd hbnd
    have hx := hnew x mem_cons_self
    have hxb := hinv x mem_cons_self
    have hlist1 : (listed (installItem s x)).Nodup := List.nodup_cons.2 ⟨hx, hlist⟩
    have hnew1 (y : ℕ × BlockBufferItem) (hy : y ∈ rest) : y.1 ∉ listed (installItem s x) := by
      change y.1 ∉ x.1 :: listed s
      rw [mem_cons]
      rintro (heq | hin)
      · exact hnd.1 (heq ▸ List.mem_map_of_mem hy)
      · exact hnew y (mem_cons_of_mem _ hy) hin
    have hinv1 (y : ℕ × BlockBufferItem) (hy : y ∈ rest) : (installItem s x).cacheItemsMap y.2.blockNo = none := by
      change update s.cacheItemsMap x.2.blockNo _ y.2.blockNo = none
      rw [update_of_ne]
      · exact hinv y (mem_cons_of_mem _ hy)
      · intro heq
        exact hbnd.1 (heq ▸ List.mem_map_of_mem (f := fun x : ℕ × BlockBufferItem => x.2.blockNo) hy)
    obtain ⟨h1, h2, h3, h4, h5, h6⟩ := ih hnd.2 hbnd.2 hlist1 hnew1 hinv1
    rw [List.foldl_cons]
    refine ⟨fun e => ?_, h2, fun b e => ?_, fun y hy => ?_, fun j hj => ?_, ?_⟩
    · rw [h1]
      change e ∈ (x.2.blockNo, x.1) :: s.cacheItemsList ∨ _ ↔ _
      rw [mem_cons]
      simp only [List.exists_mem_cons_iff]
      exact ⟨fun hx => by tauto, fun hx => by tauto⟩
    · rw [h3]
      change update s.cacheItemsMap x.2.blockNo (some (x.2.blockNo, x.1)) b = some e ∨ _ ↔ _
      rw [update_apply]
      simp only [List.exists_mem_cons_iff]
      split_ifs with hb
      · subst hb
        rw [hxb]
        simp [eq_comm]
      · simp [hb]
    · rcases List.mem_cons.1 hy with rfl | hy
      · rw [h5 _ hnd.1]
        exact setItem_item_self ..
      · exact h4 y hy
    · rw [map_cons, mem_cons, not_or] at hj
      rw [h5 j hj.2]
      exact setItem_item_of_ne _ hj.1 _
    · rw [h6]
      rfl

theorem install_dirty {s t s' : BlockBuffer} {k : ℕ} {dirtySet : Finset ℕ} (hd : t.dirtyIndexMap = s.dirtyIndexMap)
    (hn : t.dirtyItemNum = s.dirtyItemNum) (hrecord : dirtySet.Nonempty → s.dirtyIndexMap k = none)
      (hs : (if dirtySet.Nonempty then
        { t with dirtyIndexMap :=
            if (t.dirtyIndexMap k).isSome then t.dirtyIndexMap
            else update t.dirtyIndexMap k (some dirtySet) }.adjustDirtyItemNum dirtySet.card
      else some t) = some s') :
    (∀ k' j, j ∈ itemsAt s'.dirtyIndexMap k' ↔ j ∈ itemsAt s.dirtyIndexMap k' ∨ k' = k ∧ j ∈ dirtySet) ∧
      s'.dirtyItemNum = s.dirtyItemNum + dirtySet.card ∧
      s' = { t with dirtyIndexMap := s'.dirtyIndexMap, dirtyItemNum := s'.dirtyItemNum } := by
  by_cases hne : dirtySet.Nonempty
  · have hnone := hrecord hne
    rw [if_pos hne, hd, hnone] at hs
    cases adjustDirtyItemNum_eq hs
    refine ⟨fun k' j => ?_, by rw [← hn], rfl⟩
    change j ∈ itemsAt (update s.dirtyIndexMap k (some dirtySet)) k' ↔ _
    rw [itemsAt_update]
    split_ifs with hk
    · have hempty : itemsAt s.dirtyIndexMap k' = ∅ := by rw [hk, itemsAt, hnone]; rfl
      rw [hempty]
      simp [hk]
    · simp [hk]
  · rw [if_neg hne] at hs
    cases hs
    rw [Finset.not_nonempty_iff_eq_empty] at hne
    refine ⟨fun k' j => ?_, ?_, rfl⟩
    · rw [hd, hne]
      simp
    · rw [hn, hne]
      simp

/-- The new items are in the list, the maps and the sets of their index, and all else is as it was. -/
structure Installed (items : List (ℕ × BlockBufferItem)) (k : ℕ) (s s' : BlockBuffer) : Prop where
  list : ∀ e, e ∈ s'.cacheItemsList ↔ e ∈ s.cacheItemsList ∨ ∃ x ∈ items, e = (x.2.blockNo, x.1)
  nodup : (listed s').Nodup
  map : ∀ b e, s'.cacheItemsMap b = some e ↔
    s.cacheItemsMap b = some e ∨ ∃ x ∈ items, e = (x.2.blockNo, x.1) ∧ b = x.2.blockNo
  itemNew : ∀ x ∈ items, s'.item x.1 = x.2
  itemOld : ∀ j, j ∉ items.map fst → s'.item j = s.item j
  free : s'.freeItems = s.freeItems
  index : s'.blockIndexMap =
    update s.blockIndexMap k (some (itemsAt s.blockIndexMap k ∪ (items.map fst).toFinset))
  dirty : ∃ dirtySet : Finset ℕ, (∀ j, j ∈ dirtySet ↔ j ∈ items.map fst ∧ (s'.item j).isDirty = true) ∧
    (∀ k' j, j ∈ itemsAt s'.dirtyIndexMap k' ↔ j ∈ itemsAt s.dirtyIndexMap k' ∨ k' = k ∧ j ∈ dirtySet) ∧
    s'.dirtyItemNum = s.dirtyItemNum + dirtySet.card

theorem Repr.installed {held : Finset ℕ} {s s' : BlockBuffer} {k : ℕ} (h : Repr held s)
    (hp : Proper (.install k items) s) (hs : s.installBufferItemsOfIndex k items = some s') : Installed items k s s' := by
  obtain ⟨-, hnd, hbnd, hnew, hrecord⟩ := hp
  have hspec := installAll_spec (s := { s with
      blockIndexMap := update s.blockIndexMap k (some (itemsAt s.blockIndexMap k ∪ (items.map fst).toFinset)) })
    hnd hbnd h.nodup (fun x hx => (hnew x hx).1) fun x hx => (hnew x hx).2.2.2
  unfold BlockBuffer.installBufferItemsOfIndex at hs
  generalize items.foldl installItem _ = t at hs hspec
  obtain ⟨hlist, hnodup, hmap, hitemNew, hitemOld, heq⟩ := hspec
  have hdirtySet (j : ℕ) : j ∈ ((items.filter fun x => x.2.isDirty).map fst).toFinset ↔
      j ∈ items.map fst ∧ (t.item j).isDirty = true := by
    rw [mem_toFinset, mem_map, mem_map]
    constructor
    · rintro ⟨x, hx, rfl⟩
      obtain ⟨hx, hd⟩ := List.mem_filter.1 hx
      rw [hitemNew x hx]
      exact ⟨⟨x, hx, rfl⟩, hd⟩
    · rintro ⟨⟨x, hx, rfl⟩, hd⟩
      rw [hitemNew x hx] at hd
      exact ⟨x, List.mem_filter.2 ⟨hx, hd⟩, rfl⟩
  have hne : ((items.filter fun x => x.2.isDirty).map fst).toFinset.Nonempty → s.dirtyIndexMap k = none := by
    rintro ⟨j, hj⟩
    obtain ⟨hj, hd⟩ := (hdirtySet j).1 hj
    obtain ⟨x, hx, rfl⟩ := List.mem_map.1 hj
    rw [hitemNew x hx] at hd
    exact hrecord ⟨x, hx, hd⟩
  obtain ⟨hdirty, hnum, hs'⟩ := install_dirty (s := s) (by rw [heq]) (by rw [heq]) hne hs
  have hitem : s'.item = t.item := by rw [hs']
  refine ⟨fun e => ?_, ?_, fun b e => ?_, ?_, ?_, ?_, ?_, _, fun j => ?_, hdirty, hnum⟩
  · rw [hs']
    exact hlist e
  · rw [hs']
    exact hnodup
  · rw [hs']
    exact hmap b e
  · rw [hitem]
    exact hitemNew
  · rw [hitem]
    exact hitemOld
  · rw [hs', heq]
  · rw [hs', heq]
  · rw [hitem]
    exact hdirtySet j

section

variable {held : Finset ℕ} {s s' : BlockBuffer} {k : ℕ} (h : Repr held s)
  (hp : Proper (.install k items) s) (hi : Installed items k s s')

omit h hp in
include hi in
theorem Installed.listed (j : ℕ) : j ∈ Buffer.listed s' ↔ j ∈ Buffer.listed s ∨ j ∈ items.map fst := by
  rw [mem_listed, mem_listed, mem_map]
  constructor
  · rintro ⟨b, hb⟩
    rcases (hi.list _).1 hb with hb | ⟨x, hx, he⟩
    · exact .inl ⟨b, hb⟩
    · cases he
      exact .inr ⟨x, hx, rfl⟩
  · rintro (⟨b, hb⟩ | ⟨x, hx, rfl⟩)
    · exact ⟨b, (hi.list _).2 (.inl hb)⟩
    · exact ⟨x.2.blockNo, (hi.list _).2 (.inr ⟨x, hx, rfl⟩)⟩

include hp

theorem not_installed {j : ℕ} (hj : j ∈ listed s ∨ j ∈ s.freeItems) : j ∉ items.map fst := by
  intro hin
  obtain ⟨x, hx, rfl⟩ := List.mem_map.1 hin
  rcases hj with hj | hj
  · exact (hp.2.2.2.1 x hx).1 hj
  · exact (hp.2.2.2.1 x hx).2.1 hj

include hi

theorem Installed.itemIndex {j : ℕ} (hj : j ∈ items.map fst) : (s'.item j).itemIndex = k := by
  obtain ⟨x, hx, rfl⟩ := List.mem_map.1 hj
  rw [hi.itemNew x hx]
  exact (hp.2.2.2.1 x hx).2.2.1

include h

theorem Repr.index_installed (k' j : ℕ) : j ∈ itemsAt s'.blockIndexMap k' ↔
    j ∈ listed s' ∧ k' ≠ 0 ∧ (s'.item j).itemIndex = k' := by
  rw [hi.index, itemsAt_update, hi.listed]
  by_cases hx : j ∈ items.map fst
  · have hno : j ∉ itemsAt s.blockIndexMap k' := fun hin => not_installed hp (.inl ((h.index k' j).1 hin).1) hx
    rw [hi.itemIndex hp hx]
    split_ifs with hkk
    · subst hkk
      simp [hx, hp.1]
    · simp [hno, Ne.symm hkk]
  · have hmem : (j ∈ if k' = k then (some (itemsAt s.blockIndexMap k ∪ (items.map fst).toFinset)).getD ∅
        else itemsAt s.blockIndexMap k') ↔ j ∈ itemsAt s.blockIndexMap k' := by
      split_ifs with hkk
      · rw [hkk, Option.getD_some, Finset.mem_union, mem_toFinset]
        simp [hx]
      · exact Iff.rfl
    rw [hmem, h.index, hi.itemOld j hx]
    simp [hx]

theorem Repr.dirty_installed : (∀ k' j, j ∈ itemsAt s'.dirtyIndexMap k' ↔
      j ∈ listed s' ∧ (s'.item j).isDirty = true ∧ (s'.item j).itemIndex = k') ∧
    s'.dirtyItemNum = (dirtyItems s').card := by
  obtain ⟨dirtySet, hdirtySet, hdirty, hnum⟩ := hi.dirty
  refine ⟨fun k' j => ?_, ?_⟩
  · rw [hdirty, h.dirty, hi.listed, hdirtySet]
    by_cases hx : j ∈ items.map fst
    · have hno : j ∉ listed s := fun hl => not_installed hp (.inl hl) hx
      rw [hi.itemIndex hp hx]
      simp only [hno, hx, false_and, false_or, true_and, or_true]
      exact ⟨fun hy => ⟨hy.2, hy.1.symm⟩, fun hy => ⟨hy.2.symm, hy.1⟩⟩
    · rw [hi.itemOld j hx]
      simp [hx]
  · have hd : dirtyItems s' = dirtyItems s ∪ dirtySet := by
      ext j
      rw [Finset.mem_union, mem_dirtyItems, mem_dirtyItems, hi.listed, hdirtySet]
      constructor
      · rintro ⟨hl | hx, hd⟩
        · rw [hi.itemOld j (not_installed hp (.inl hl))] at hd
          exact .inl ⟨hl, hd⟩
        · exact .inr ⟨hx, hd⟩
      · rintro (⟨hl, hd⟩ | ⟨hx, hd⟩)
        · rw [hi.itemOld j (not_installed hp (.inl hl))]
          exact ⟨.inl hl, hd⟩
        · exact ⟨.inr hx, hd⟩
    have hdisj : Disjoint (dirtyItems s) dirtySet := by
      rw [Finset.disjoint_left]
      intro j hj hx
      exact not_installed hp (.inl (mem_dirtyItems.1 hj).1) ((hdirtySet j).1 hx).1
    rw [hnum, hd, Finset.card_union_of_disjoint hdisj, h.num]
    simp

end

theorem Repr.install {held : Finset ℕ} {s s' : BlockBuffer} {k : ℕ}
    (h : Repr held s) (hp : Proper (.install k items) s) (hs : s.installBufferItemsOfIndex k items = some s') :
    Repr (held ∪ (items.map fst).toFinset) s' := by
  have hi := h.installed hp hs
  obtain ⟨hdirty, hnum⟩ := h.dirty_installed hp hi
  refine ⟨hi.nodup, fun b j hj => ?_, fun b e => ?_, ?_, fun j hj => ?_, fun j => ?_, h.index_installed hp hi,
    hdirty, hnum, fun j hj => ?_, ?_⟩
  · rcases (hi.list _).1 hj with hb | ⟨x, hx, he⟩
    · rw [hi.itemOld j (not_installed hp (.inl (mem_listed.2 ⟨b, hb⟩)))]
      exact h.blockNo b j hb
    · cases he
      rw [hi.itemNew x hx]
  · rw [hi.map, hi.list, h.inverse]
    constructor
    · rintro (⟨he, hb⟩ | ⟨x, hx, rfl, rfl⟩)
      · exact ⟨.inl he, hb⟩
      · exact ⟨.inr ⟨x, hx, rfl⟩, rfl⟩
    · rintro ⟨he | ⟨x, hx, rfl⟩, rfl⟩
      · exact .inl ⟨he, rfl⟩
      · exact .inr ⟨x, hx, rfl, rfl⟩
  · rw [hi.free]
    exact h.freeNodup
  · rw [hi.free] at hj
    rw [hi.listed]
    rintro (hl | hx)
    · exact h.apart j hj hl
    · exact not_installed hp (.inr hj) hx
  · rw [hi.free, hi.listed, Finset.mem_union, mem_toFinset, h.all]
    exact or_right_comm
  · rw [hi.free] at hj
    rw [hi.itemOld j (not_installed hp (.inr hj))]
    exact h.clean j hj
  · rw [hi.index, update_of_ne (Ne.symm hp.1)]
    exact h.noZero

/-! ## Runs -/

section

variable {held : Finset ℕ} {s : BlockBuffer} (h : Repr held s)

include h

theorem Repr.releaseBlock (i : ℕ) : Repr held (s.releaseBlock i) := by
  unfold BlockBuffer.releaseBlock
  split_ifs
  · exact h.setItem rfl rfl rfl
  · exact h

theorem Repr.blockFetchedCallback (i : ℕ) : Repr held (s.blockFetchedCallback i) := by
  unfold BlockBuffer.blockFetchedCallback
  split_ifs
  · exact h.setItem rfl rfl rfl
  · exact h

theorem Repr.setFlush (bg : Bool) (fg : ℤ) : Repr held { s with bgFlushSent := bg, numFgFlushInflight := fg } :=
  ⟨h.nodup, h.blockNo, h.inverse, h.freeNodup, h.apart, h.all, h.index, h.dirty, h.num, h.clean, h.noZero⟩

end

theorem Repr.step {held : Finset ℕ} {s s' : BlockBuffer} {l : Label} (h : Repr held s) (hp : Proper l s)
    (hs : BlockBuffer.step l s = some s') : Repr (heldAfter held l s) s' := by
  cases l with
  | getBlock b k =>
    obtain ⟨⟨s1, r⟩, hr, rfl⟩ := Option.map_eq_some_iff.1 hs
    exact h.getBlock hp hr
  | blockFetched i =>
    cases hs
    exact h.blockFetchedCallback i
  | releaseBlock i =>
    cases hs
    exact h.releaseBlock i
  | releaseBlockNo b =>
    cases hs
    unfold BlockBuffer.releaseBlockNo
    cases s.cacheItemsMap b with
    | none => exact h
    | some e => exact h.releaseBlock e.2
  | setItemDirty i d k => exact h.setItemDirty hp.1 hp.2.2 hs
  | releaseUnlinked k order =>
    simp only [BlockBuffer.step] at hs
    split_ifs at hs with horder
    have hk : 1 < k := hp
    exact h.releaseUnlinked horder (by omega) hs
  | setFlush bg fg =>
    cases hs
    exact h.setFlush bg fg
  | doFlushDone blocks =>
    obtain ⟨⟨s1, rc⟩, hr, rfl⟩ := Option.map_eq_some_iff.1 hs
    unfold BlockBuffer.doFlushDone at hr
    split_ifs at hr
    · exact h.flushDoneLoop hr
    · cases hr
      exact h
  | split k order =>
    simp only [BlockBuffer.step] at hs
    split_ifs at hs with horder
    obtain ⟨⟨s1, r⟩, hr, rfl⟩ := Option.map_eq_some_iff.1 hs
    exact h.split horder hr
  | install k items => exact h.install hp hs

theorem repr_init (blockNum : ℕ) : Repr (Finset.range blockNum) (BlockBuffer.init blockNum) := by
  refine ⟨List.nodup_nil, fun _ _ hx => ?_, fun b e => ?_, List.nodup_range, fun _ _ hx => ?_, fun i => ?_,
    fun k i => ?_,
    fun k i => ?_, rfl, fun _ _ => rfl, rfl⟩
  · cases hx
  · constructor
    · intro hx
      cases hx
    · rintro ⟨hx, -⟩
      cases hx
  · cases hx
  · simp [listed, BlockBuffer.init]
  · simp [itemsAt, listed, BlockBuffer.init]
  · simp [itemsAt, listed, BlockBuffer.init]

/-- A step of the buffer together with the slots that the callers hold. -/
def stepHeld (l : Label) (x : Finset ℕ × BlockBuffer) : Option (Finset ℕ × BlockBuffer) :=
  (BlockBuffer.step l x.2).map fun s' => (heldAfter x.1 l x.2, s')

/-- In every run whose steps are proper, of a buffer with any number of items, the structures agree. -/
theorem buffer_repr (blockNum : ℕ) (ls : List Label) (held : Finset ℕ) (s : BlockBuffer)
    (hp : Along stepHeld (fun l x => Proper l x.2) ls (Finset.range blockNum, BlockBuffer.init blockNum))
    (hrun : run stepHeld ls (Finset.range blockNum, BlockBuffer.init blockNum) = some (held, s)) : Repr held s := by
  have hstep (l : Label) (x x' : Finset ℕ × BlockBuffer) (h : Repr x.1 x.2) (hp : Proper l x.2)
      (hs : stepHeld l x = some x') : Repr x'.1 x'.2 := by
    obtain ⟨s', hs', rfl⟩ := Option.map_eq_some_iff.1 hs
    exact h.step hp hs'
  exact run_inv hstep hrun hp (repr_init blockNum)

/-- A block of inode 5 is written and flushed, the inode is unlinked, and its room goes to inode 6. -/
def writeThenUnlink : List Label :=
  [.getBlock 100 5, .setItemDirty 0 true 5, .releaseBlock 0, .setFlush false 1, .doFlushDone [100], .setFlush false 0,
    .getBlock 101 5, .setItemDirty 1 true 5, .releaseBlock 1, .releaseUnlinked 5 [0, 1], .getBlock 102 6]

theorem proper_writeThenUnlink : Along stepHeld (fun l x => Proper l x.2) writeThenUnlink
    (Finset.range 2, BlockBuffer.init 2) := by
  refine ⟨⟨fun e he => ?_, fun _ i rest hf _ => ?_⟩, ⟨by decide, rfl, rfl⟩, trivial, trivial, trivial, trivial,
    ⟨fun e he => ?_, fun _ i rest hf _ => ?_⟩, ⟨by decide, rfl, rfl⟩, trivial, (by decide : 1 < 5),
    ⟨fun e he => ?_, fun _ i rest hf _ => ?_⟩, trivial⟩
  · cases he
  · cases hf
    decide
  · cases he
  · cases hf
    decide
  · cases he
  · cases hf
    decide

theorem buffer_repr_unlinked : ∃ held s, run stepHeld writeThenUnlink (Finset.range 2, BlockBuffer.init 2) = some
    (held, s) ∧
      listed s = [0] ∧ s.freeItems = [1] ∧ s.dirtyItemNum = 0 ∧ Repr held s := by
  obtain ⟨held, s, hrun, h₁, h₂, h₃⟩ :
      ∃ held s, run stepHeld writeThenUnlink (Finset.range 2, BlockBuffer.init 2) = some (held, s) ∧
        listed s = [0] ∧ s.freeItems = [1] ∧ s.dirtyItemNum = 0 := ⟨_, _, rfl, rfl, rfl, rfl⟩
  exact ⟨held, s, hrun, h₁, h₂, h₃, buffer_repr 2 _ held s proper_writeThenUnlink hrun⟩

/-- A dirty block is asked for again under another index. -/
def reindexDirty : List Label := [.getBlock 100 5, .setItemDirty 0 true 5, .releaseBlock 0, .getBlock 100 7]

/-- The room of an unlinked inode goes to a new inode with the same number. -/
def reuseIndex : List Label := [.getBlock 100 5, .releaseBlock 0, .releaseUnlinked 5 [0], .getBlock 101 5]

/-- A block of inode 5 is written and flushed, and the inode is unlinked. Another inode with the number comes from
another worker, with a dirty block. -/
def installAgain : List Label :=
  [.getBlock 100 5, .setItemDirty 0 true 5, .releaseBlock 0, .setFlush false 1, .doFlushDone [100], .setFlush false 0,
    .releaseUnlinked 5 [0], .install 5 [(7, ⟨101, 5, true, true, .valid⟩)]]

/-- An item with index 7 is dirty and not on record as such; one with index 5 is not among the items
of its index; and one that was installed is dirty and not on record. -/
theorem buffer_repr_broken : (∃ held s, run stepHeld reindexDirty (Finset.range 1, BlockBuffer.init 1) = some
    (held, s) ∧
      0 ∈ listed s ∧ (s.item 0).isDirty = true ∧ (s.item 0).itemIndex = 7 ∧ itemsAt s.dirtyIndexMap 7 = ∅ ∧
      itemsAt s.dirtyIndexMap 5 = {0} ∧ ¬ Repr held s) ∧
    (∃ held s, run stepHeld reuseIndex (Finset.range 1, BlockBuffer.init 1) = some (held, s) ∧
      0 ∈ listed s ∧ (s.item 0).itemIndex = 5 ∧ itemsAt s.blockIndexMap 5 = ∅ ∧ ¬ Repr held s) ∧
    ∃ held s, run stepHeld installAgain (Finset.range 1, BlockBuffer.init 1) = some (held, s) ∧
      7 ∈ listed s ∧ (s.item 7).isDirty = true ∧ (s.item 7).itemIndex = 5 ∧ itemsAt s.dirtyIndexMap 5 = ∅ ∧
      s.dirtyItemNum = 1 ∧ ¬ Repr held s := by
  have hdirty {held : Finset ℕ} {s : BlockBuffer} {i k : ℕ} (hl : i ∈ listed s) (hd : (s.item i).isDirty = true)
      (hk : (s.item i).itemIndex = k) (hno : itemsAt s.dirtyIndexMap k = ∅) : ¬ Repr held s := by
    intro h
    have hin := (h.dirty k i).2 ⟨hl, hd, hk⟩
    rw [hno] at hin
    exact absurd hin (Finset.notMem_empty i)
  have hindex {held : Finset ℕ} {s : BlockBuffer} {i k : ℕ} (hl : i ∈ listed s) (hk : (s.item i).itemIndex = k)
      (hk0 : k ≠ 0) (hno : itemsAt s.blockIndexMap k = ∅) : ¬ Repr held s := by
    intro h
    have hin := (h.index k i).2 ⟨hl, hk0, hk⟩
    rw [hno] at hin
    exact absurd hin (Finset.notMem_empty i)
  refine ⟨⟨_, _, rfl, by decide, rfl, rfl, rfl, rfl, hdirty (i := 0) (k := 7) (by decide) rfl rfl rfl⟩,
    ⟨_, _, rfl, by decide, rfl, by decide, hindex (i := 0) (k := 5) (by decide) rfl (by decide) (by decide)⟩,
    ⟨_, _, rfl, by decide, rfl, rfl, by decide, rfl, hdirty (i := 7) (k := 5) (by decide) rfl rfl (by decide)⟩⟩

end Ufs.Proof.Buffer
