import Ufs.Proof.Buffer.Progress

/-!
# What is clean is on the device

In every run in which a block is not written from the submission of its flush to the end of the request (`Stalled`), a
block that is in memory and not dirty is on the device as it is in memory (`clean_on_device`). `flush_loses_update` is a
run without that: the device takes a block, it is written once more, and when the flush ends it is clean.
-/

namespace Ufs.Proof.Buffer

open Impl Impl.BlockBuffer Impl.Flush
open Function (update update_of_ne update_self)
open Option

variable {α : Type} {held : Finset ℕ} {s s' : Flush α} {f b : ℕ} {r : BufferFlushReq} {v : α} {l : Flush.Label α}

/-- A block that an unfinished request lists is written only before its flush is submitted. -/
def Stalled : Flush.Label α → Flush α → Prop
  | .writeItem i _ _, s =>
    ∀ f r, s.flushReq f = some r → (s.buf.item i).blockNo ∈ blocksOf r → (s.buf.item i).blockNo ∈ r.toSubmitFlushBlocks
  | _, _ => True

/-- What memory and device have in common: all of a clean block, of a block that an unfinished
request has written, and of what the device has taken of one that is in flight. -/
structure Kept (s : Flush α) : Prop where
  mem : ∀ b i, s.buf.cacheItemsMap b = some (b, i) → (s.buf.item i).isDirty = true → (s.buf.item i).inMem = true
  clean : ∀ b i, s.buf.cacheItemsMap b = some (b, i) → (s.buf.item i).inMem = true → (s.buf.item i).isDirty = false →
    s.dev b = s.data i
  done : ∀ f r x, s.flushReq f = some r → x ∈ r.flushBlockReqMap → x.1 ∉ r.toSubmitFlushBlocks →
    x.1 ∉ r.submittedFlushBlocks → s.dev x.1 = s.data x.2
  taken : ∀ b w v, s.inflight b = some w → w.content = some v → v = s.data w.item

theorem Sound.item_of_block (h : Sound held s) (hr : s.flushReq f = some r) {x : ℕ × ℕ} (hx : x ∈ r.flushBlockReqMap)
    {i : ℕ} (hm : s.buf.cacheItemsMap x.1 = some (x.1, i)) : i = x.2 := by
  rw [((h.underway f r hr).dirty x hx).1] at hm
  exact (congrArg Prod.snd (Option.some.inj hm)).symm

theorem Sound.write_of_inflight (h : Sound held s) {w : FlushWrite α} (hw : s.inflight b = some w) :
    ∃ f r, s.flushReq f = some r ∧ b ∈ r.submittedFlushBlocks ∧ (b, w.item) ∈ r.flushBlockReqMap := by
  cases hm : s.blockFlushReqMap b with
  | none =>
    rw [h.inflight b hm] at hw
    cases hw
  | some f =>
    obtain ⟨r, hr, hb⟩ := h.owner b f hm
    obtain ⟨-, w', hw', hx⟩ := (h.underway f r hr).writes b hb
    rw [hw] at hw'
    cases hw'
    exact ⟨f, r, hr, hb, hx⟩

theorem Kept.congr (hk : Kept s) (hflush : s'.flushReq = s.flushReq) (hinfl : s'.inflight = s.inflight)
    (hdata : s'.data = s.data) (hdev : s'.dev = s.dev)
    (hitem : ∀ b i, s'.buf.cacheItemsMap b = some (b, i) → (s'.buf.item i).isDirty = false ∧
      (s'.buf.item i).inMem = false ∨
        s.buf.cacheItemsMap b = some (b, i) ∧ (s'.buf.item i).isDirty = (s.buf.item i).isDirty ∧
          (s'.buf.item i).inMem = (s.buf.item i).inMem) : Kept s' := by
  refine ⟨fun b i hm hd => ?_, fun b i hm hmem hd => ?_, ?_, ?_⟩
  · rcases hitem b i hm with ⟨hd', -⟩ | ⟨hm', hd', hmem'⟩
    · rw [hd'] at hd
      cases hd
    · rw [hmem']
      exact hk.mem b i hm' (hd'.symm.trans hd)
  · rcases hitem b i hm with ⟨-, hmem'⟩ | ⟨hm', hd', hmem'⟩
    · rw [hmem'] at hmem
      cases hmem
    · rw [hdev, hdata]
      exact hk.clean b i hm' (hmem'.symm.trans hmem) (hd'.symm.trans hd)
  · rw [hflush, hdev, hdata]
    exact hk.done
  · rw [hinfl, hdata]
    exact hk.taken

section

variable (hk : Kept s) (h : Sound held s)

include hk h

theorem Kept.getBlock {b k : ℕ} {buf : BlockBuffer} {g : GotBlock} (hs : s.buf.getBlock b k = some (buf, g)) :
    Kept (s.setBuf buf) := by
  refine hk.congr rfl rfl rfl rfl fun b' i hm => ?_
  change buf.cacheItemsMap b' = some (b', i) at hm
  change (buf.item i).isDirty = false ∧ (buf.item i).inMem = false ∨ s.buf.cacheItemsMap b' = some (b', i) ∧
    (buf.item i).isDirty = (s.buf.item i).isDirty ∧ (buf.item i).inMem = (s.buf.item i).inMem
  rcases getBlock_cases h.repr hs with rfl | ⟨j, hitem, hmb, hmap, -, hj⟩
  · exact .inr ⟨hm, rfl, rfl⟩
  · by_cases hbb : b' = b
    · subst hbb
      rw [hmb] at hm
      cases hm
      rcases hj with ⟨hhit, -, hj⟩ | ⟨-, hclean, hj⟩
      · rw [hj]
        exact .inr ⟨hhit, rfl, rfl⟩
      · rw [hj]
        exact .inl ⟨hclean, rfl⟩
    · obtain ⟨hm', hij⟩ := (hmap b' _ hbb).1 hm
      rw [hitem i hij]
      exact .inr ⟨hm', rfl, rfl⟩

theorem Kept.fetched {i : ℕ} (hlock : (s.buf.item i).status = .locked) (hmem : (s.buf.item i).inMem = false) :
    Kept { s with
      data := update s.data i (s.dev (s.buf.item i).blockNo)
      buf := s.buf.blockFetchedCallback i } := by
  have hbuf : s.buf.blockFetchedCallback i = s.buf.setItem i { s.buf.item i with inMem := true, status := .valid } := by
    unfold BlockBuffer.blockFetchedCallback
    rw [if_pos hlock]
  have hne {b j : ℕ} (hm : s.buf.cacheItemsMap b = some (b, j)) (hd : (s.buf.item j).isDirty = true) : j ≠ i := by
    rintro rfl
    have hin := hk.mem b j hm hd
    rw [hmem] at hin
    cases hin
  rw [hbuf]
  refine ⟨fun b j hm hd => ?_, fun b j hm hin hd => ?_, fun f r x hr hx hrest hsub => ?_, fun b w v hw hv => ?_⟩
  · by_cases hj : j = i
    · subst hj
      rw [setItem_item_self]
    · rw [setItem_item_of_ne _ hj] at hd ⊢
      exact hk.mem b j hm hd
  · by_cases hj : j = i
    · subst hj
      have hno := h.repr.blockNo b j ((h.repr.inverse b _).1 hm).1
      dsimp only
      rw [update_self, hno]
    · rw [setItem_item_of_ne _ hj] at hin hd
      dsimp only
      rw [update_of_ne hj]
      exact hk.clean b j hm hin hd
  · obtain ⟨hm, hd⟩ := (h.underway f r hr).dirty x hx
    dsimp only
    rw [update_of_ne (hne hm hd)]
    exact hk.done f r x hr hx hrest hsub
  · obtain ⟨f, r, hr, -, hx⟩ := h.write_of_inflight (s := s) hw
    obtain ⟨hm, hd⟩ := (h.underway f r hr).dirty _ hx
    dsimp only
    rw [update_of_ne (hne hm hd)]
    exact hk.taken b w v hw hv

theorem Kept.writeItem {i k : ℕ} (hp : Proper (.setItemDirty i true k) s.buf)
    (hst : Stalled (.writeItem i v k) s) (hs : s.writeItem i v k = some s') : Kept s' := by
  obtain ⟨buf, rfl, -, hitem, hmap, -, -⟩ := writeItem_spec h.repr hp hs
  -- an item that a request has submitted is not the one
  have hne {f r x} (hr : s.flushReq f = some r) (hx : x ∈ r.flushBlockReqMap)
    (hrest : x.1 ∉ r.toSubmitFlushBlocks) : x.2 ≠ i := by
    rintro rfl
    have hm := ((h.underway f r hr).dirty x hx).1
    have hno := h.repr.blockNo x.1 x.2 ((h.repr.inverse x.1 _).1 hm).1
    refine hrest ?_
    have hin := hst f r hr
    rw [hno] at hin
    exact hin (mem_blocksOf.2 ⟨x.2, hx⟩)
  refine ⟨fun b j hm hd => ?_, fun b j hm hin hd => ?_, fun f r x hr hx hrest hsub => ?_, fun b w v hw hv => ?_⟩
  · dsimp only at hm hd ⊢
    rw [hmap] at hm
    rw [hitem] at hd ⊢
    by_cases hj : j = i
    · rw [hj, update_self]
    · rw [update_of_ne hj] at hd ⊢
      exact hk.mem b j hm hd
  · dsimp only at hm hin hd ⊢
    rw [hmap] at hm
    rw [hitem] at hin hd
    have hj : j ≠ i := by
      rintro rfl
      rw [update_self] at hd
      cases hd
    rw [update_of_ne hj] at hin hd ⊢
    exact hk.clean b j hm hin hd
  · dsimp only
    rw [update_of_ne (hne hr hx hrest)]
    exact hk.done f r x hr hx hrest hsub
  · obtain ⟨f, r, hr, hb, hx⟩ := h.write_of_inflight (s := s) hw
    have hrest : b ∉ r.toSubmitFlushBlocks := fun hin => ((h.underway f r hr).rest.2 b hin).2 hb
    dsimp only
    rw [update_of_ne (hne hr hx hrest)]
    exact hk.taken b w v hw hv

end

theorem Kept.starts (hk : Kept s) {taken : List ℕ} (hst : Starts held s r taken s') : Kept s' := by
  refine ⟨?_, ?_, fun f r' x hr' hx hrest hsub => ?_, fun b w v hw hv => ?_⟩
  · rw [hst.map, hst.item]
    exact hk.mem
  · rw [hst.map, hst.item, hst.data.1, hst.data.2]
    exact hk.clean
  · by_cases hf : f = s.nextFlushReq
    · -- all its blocks are to be submitted or are
      rw [hf, hst.flushReq, update_self] at hr'
      cases hr'
      have hin : x.1 ∈ blocksOf r := mem_blocksOf.2 ⟨x.2, hx⟩
      rw [hst.parts, List.mem_append] at hin
      rw [hst.submitted, List.mem_toFinset] at hsub
      exact absurd hin (by tauto)
    · rw [hst.flushReq, update_of_ne hf] at hr'
      rw [hst.data.1, hst.data.2]
      exact hk.done f r' x hr' hx hrest hsub
  · rw [hst.data.1]
    by_cases hin : b ∈ taken
    · obtain ⟨-, item, -, hinfl⟩ := hst.writes b hin
      rw [hinfl] at hw
      cases hw
      cases hv
    · rw [(hst.same b hin).2] at hw
      exact hk.taken b w v hw hv

section

variable (hk : Kept s) (h : Sound held s) (hr : s.flushReq f = some r) (hb : b ∈ r.submittedFlushBlocks)
  (hv : ∀ i, (b, i) ∈ r.flushBlockReqMap → v = s.data i)

include hk h hr hb hv

omit h hb in
theorem Kept.written {x : ℕ × ℕ} (hx : x ∈ r.flushBlockReqMap) (hrest : x.1 ∉ r.toSubmitFlushBlocks)
    (hsub : x.1 ∉ r.submittedFlushBlocks.erase b) : update s.dev b v x.1 = s.data x.2 := by
  by_cases hxb : x.1 = b
  · rw [hxb, update_self]
    exact hv x.2 (hxb ▸ hx)
  · rw [update_of_ne hxb]
    exact hk.done f r x hr hx hrest fun hin => hsub (Finset.mem_erase.2 ⟨hxb, hin⟩)

omit hv in
theorem Kept.written_other {f' : ℕ} {r' : BufferFlushReq} (hf : f' ≠ f) (hr' : s.flushReq f' = some r') {x : ℕ × ℕ}
    (hx : x ∈ r'.flushBlockReqMap) (hrest : x.1 ∉ r'.toSubmitFlushBlocks) (hsub : x.1 ∉ r'.submittedFlushBlocks) :
    update s.dev b v x.1 = s.data x.2 := by
  have hxb : x.1 ≠ b := by
    intro hxb
    refine hf (h.apart f' r' f r b hr' hr ?_ ((h.underway f r hr).submitted.2 b hb))
    exact mem_blocksOf.2 ⟨x.2, hxb ▸ hx⟩
  rw [update_of_ne hxb]
  exact hk.done f' r' x hr' hx hrest hsub

theorem Kept.goesOn {started rest : List ℕ} (hg : GoesOn s f b r v started rest s') : Kept s' := by
  have hbuf : s'.buf = s.buf := by rw [hg.eq]
  have hdata : s'.data = s.data := by rw [hg.eq]
  have hdev : s'.dev = update s.dev b v := by rw [hg.eq]
  refine ⟨?_, fun b' i hm hin hd => ?_, fun f' r' x hr' hx hrest hsub => ?_, fun b' w v' hw hv' => ?_⟩
  · rw [hbuf]
    exact hk.mem
  · rw [hbuf] at hm hin hd
    have hbb : b' ≠ b := by
      rintro rfl
      obtain ⟨j, -, hm', hd'⟩ := (h.underway f r hr).entry ((h.underway f r hr).submitted.2 b' hb)
      rw [hm] at hm'
      cases hm'
      rw [hd] at hd'
      cases hd'
    rw [hdev, hdata, update_of_ne hbb]
    exact hk.clean b' i hm hin hd
  · rw [hdev, hdata]
    by_cases hf : f' = f
    · subst hf
      have hnew : s'.flushReq f' = some { r with
          toSubmitFlushBlocks := rest
          submittedFlushBlocks := r.submittedFlushBlocks.erase b ∪ started.toFinset } := by
        rw [hg.eq]
        exact update_self ..
      rw [hnew] at hr'
      cases hr'
      rw [Finset.mem_union, not_or, List.mem_toFinset] at hsub
      refine hk.written hr hv hx ?_ hsub.1
      rw [hg.parts, List.mem_append, not_or]
      exact ⟨hsub.2, hrest⟩
    · have hold : s'.flushReq f' = s.flushReq f' := by
        rw [hg.eq]
        exact update_of_ne hf ..
      rw [hold] at hr'
      exact hk.written_other h hr hb hf hr' hx hrest hsub
  · rw [hdata]
    have hbb : b' ≠ b := by
      rintro rfl
      rw [hg.gone.2] at hw
      cases hw
    by_cases hin : b' ∈ started
    · obtain ⟨-, item, -, hinfl⟩ := hg.submits b' hin
      rw [hinfl] at hw
      cases hw
      cases hv'
    · rw [(hg.same b' hbb hin).2] at hw
      exact hk.taken b' w v' hw hv'

theorem Kept.ends (he : Ends held s f b r v s') : Kept s' := by
  have hdata : s'.data = s.data := by rw [he.eq]
  have hdev : s'.dev = update s.dev b v := by rw [he.eq]
  refine ⟨fun b' i hm hd => ?_, fun b' i hm hin hd => ?_, fun f' r' x hr' hx hrest hsub => ?_, fun b' w v' hw hv' => ?_⟩
  · rw [he.map] at hm
    rw [he.item b' i hm] at hd ⊢
    split_ifs at hd ⊢ with hb'
    exact hk.mem b' i hm hd
  · rw [he.map] at hm
    rw [he.item b' i hm] at hin hd
    rw [hdev, hdata]
    split_ifs at hin hd with hb'
    · obtain ⟨j, hj⟩ := mem_blocksOf.1 hb'
      obtain rfl := h.item_of_block hr hj hm
      refine hk.written hr hv hj ?_ ?_
      · rw [he.last.1]
        exact List.not_mem_nil
      · rw [he.last.2]
        simp
    · have hbb : b' ≠ b := by
        rintro rfl
        exact hb' ((h.underway f r hr).submitted.2 b' hb)
      rw [update_of_ne hbb]
      exact hk.clean b' i hm hin hd
  · have hf : f' ≠ f := by
      rintro rfl
      rw [he.eq] at hr'
      have hgone : update s.flushReq f' none f' = some r' := hr'
      rw [update_self] at hgone
      cases hgone
    have hold : s'.flushReq f' = s.flushReq f' := by
      rw [he.eq]
      exact update_of_ne hf ..
    rw [hold] at hr'
    rw [hdev, hdata]
    exact hk.written_other h hr hb hf hr' hx hrest hsub
  · have hinfl : s'.inflight = update s.inflight b none := by rw [he.eq]
    rw [hinfl] at hw
    rw [hdata]
    have hbb : b' ≠ b := by
      rintro rfl
      rw [update_self] at hw
      cases hw
    rw [update_of_ne hbb] at hw
    exact hk.taken b' w v' hw hv'

end

/-! ## Runs -/

theorem Kept.step {n : ℕ} {threshold : ℤ} (hk : Kept s) (h : Sound held s) (ho : Orderly l s) (hst : Stalled l s)
    (hs : Flush.step n threshold l s = some s') : Kept s' := by
  cases l with
  | getBlock b k =>
    obtain ⟨⟨buf, g⟩, hb, rfl⟩ := map_eq_some_iff.1 hs
    exact hk.getBlock h hb
  | fetched i =>
    simp only [Flush.step] at hs
    split_ifs at hs with hlock
    cases hs
    exact hk.fetched h hlock.1 hlock.2
  | releaseBlock i =>
    cases hs
    refine hk.congr rfl rfl rfl rfl fun b j hm => .inr ?_
    change (s.buf.releaseBlock i).cacheItemsMap b = _ at hm
    change _ ∧ ((s.buf.releaseBlock i).item j).isDirty = _ ∧ ((s.buf.releaseBlock i).item j).inMem = _
    unfold BlockBuffer.releaseBlock at hm ⊢
    split_ifs at hm ⊢ with hlock
    · refine ⟨hm, ?_⟩
      by_cases hj : j = i
      · rw [hj, BlockBuffer.setStatus, setItem_item_self]
        exact ⟨rfl, rfl⟩
      · rw [BlockBuffer.setStatus, setItem_item_of_ne _ hj]
        exact ⟨rfl, rfl⟩
    · exact ⟨hm, rfl, rfl⟩
  | writeItem i v k => exact hk.writeItem h ho hst hs
  | fsync ino =>
    simp only [Flush.step] at hs
    split_ifs at hs with hino
    cases hs
    exact hk.congr rfl rfl rfl rfl fun b i hm => .inr ⟨hm, rfl, rfl⟩
  | processFdataSync k items =>
    obtain ⟨req, hreq, hs⟩ := bind_eq_some_iff.1 hs
    split_ifs at hs with hg
    obtain ⟨hbio, hitems⟩ := hg
    obtain ⟨ino, state⟩ := req
    obtain rfl : state = .dataBio := hbio
    rcases h.processFdataSync_cases hreq hitems (ho _ hreq) hs with ⟨-, rfl⟩ | rfl | rfl | ⟨r, taken, hstarts⟩
    · exact hk.congr rfl rfl rfl rfl fun b i hm => .inr ⟨hm, rfl, rfl⟩
    · exact hk
    · exact hk.congr rfl rfl rfl rfl fun b i hm => .inr ⟨hm, rfl, rfl⟩
    · exact hk.starts hstarts
  | checkAndFlushDirty items =>
    simp only [Flush.step] at hs
    split_ifs at hs with hg
    rcases h.checkAndFlushDirty_cases hg.1 hg.2 hs with rfl | ⟨r, taken, hstarts⟩
    · exact hk.congr rfl rfl rfl rfl fun b i hm => .inr ⟨hm, rfl, rfl⟩
    · exact hk.starts hstarts
  | take b =>
    obtain ⟨w, hw, rfl⟩ := map_eq_some_iff.1 hs
    refine ⟨hk.mem, hk.clean, hk.done, fun b' w' v hw' hv => ?_⟩
    by_cases hbb : b' = b
    · subst hbb
      have heq : update s.inflight b' (some { w with content := some (s.data w.item) }) b' = some w' := hw'
      rw [update_self] at heq
      cases heq
      cases hv
      rfl
    · exact hk.taken b' w' v ((update_of_ne hbb ..).symm.trans hw') hv
  | complete b order =>
    simp only [Flush.step] at hs
    obtain ⟨w, hw, hs'⟩ := bind_eq_some_iff.1 hs
    obtain ⟨v, hv, -⟩ := bind_eq_some_iff.1 hs'
    obtain ⟨f, r, -, hr, hb, hcases⟩ := h.complete_cases hw hv
    have hu := h.underway f r hr
    -- what the device has taken is what is in memory
    have hval (i : ℕ) (hi : (b, i) ∈ r.flushBlockReqMap) : v = s.data i := by
      obtain ⟨-, w', hw', hx⟩ := hu.writes b hb
      rw [hw] at hw'
      cases hw'
      obtain rfl : w.item = i := h.item_of_block hr hi (hu.dirty _ hx).1
      exact hk.taken b w v hw hv
    rcases hcases with ⟨started, rest, s1, hg, heq⟩ | hend
    · rw [heq order] at hs
      cases hs
      exact hk.goesOn h hr hb hval hg
    · by_cases hperm : order.Perm (blocksOf r)
      · obtain ⟨s1, he, heq⟩ := (hend order).1 hperm
        rw [heq] at hs
        cases hs
        exact hk.ends h hr hb hval he
      · rw [(hend order).2 hperm] at hs
        cases hs

/-- A block in memory that is not dirty is on the device as it is; one that is dirty is among those that an fsync of its
inode lists. -/
structure Durable (s : Flush α) : Prop where
  clean : ∀ b i, s.buf.cacheItemsMap b = some (b, i) → (s.buf.item i).inMem = true → (s.buf.item i).isDirty = false →
    s.dev b = s.data i
  dirty : ∀ b i, s.buf.cacheItemsMap b = some (b, i) → (s.buf.item i).isDirty = true →
    i ∈ itemsAt s.buf.dirtyIndexMap (s.buf.item i).itemIndex

/-- In every orderly run in which no block changes while the device has it, a block that is clean in
the buffer is on the device as it is there. -/
theorem clean_on_device (blockNum n : ℕ) (threshold : ℤ) (data dev : ℕ → α) (ls : List (Flush.Label α)) (s : Flush α)
    (hrun : run (Flush.step n threshold) ls (Flush.init blockNum data dev) = some s)
    (hmeets : Along (Flush.step n threshold) (fun l s => Orderly l s ∧ Stalled l s) ls
      (Flush.init blockNum data dev)) : Durable s := by
  have hstep (l : Flush.Label α) (s s' : Flush α) (h : Sound (Finset.range blockNum) s ∧ Kept s)
      (hm : Orderly l s ∧ Stalled l s) (hs : Flush.step n threshold l s = some s') :
      Sound (Finset.range blockNum) s' ∧ Kept s' := ⟨h.1.step hm.1 hs, h.2.step h.1 hm.1 hm.2 hs⟩
  have hinit : Sound (Finset.range blockNum) (Flush.init blockNum data dev) ∧ Kept (Flush.init blockNum data dev) := by
    refine ⟨sound_init blockNum data dev, fun b i hm => ?_, fun b i hm => ?_, fun f r x hr => ?_, fun b w v hw => ?_⟩
    · cases hm
    · cases hm
    · cases hr
    · cases hw
  obtain ⟨h, hk⟩ := run_inv hstep hrun hmeets hinit
  refine ⟨hk.clean, fun b i hm hd => ?_⟩
  exact (h.repr.dirty _ i).2 ⟨(h.repr.found hm).2, hd, rfl⟩

/-- A write to one block, and an fsync that waits for the device. -/
def writeThenFsync : List (Flush.Label ℕ) :=
  [.getBlock 100 5, .writeItem 0 1 5, .fsync 5, .processFdataSync 0 [0], .take 100, .complete 100 [100]]

theorem stalled_writeThenFsync : Along (Flush.step 6 0) (fun l s => Orderly l s ∧ Stalled l s) writeThenFsync
      (Flush.init 1 (fun _ => 0) fun _ => 0) := by
  refine ⟨⟨⟨fun e he => ?_, fun _ i rest hf _ => ?_⟩, trivial⟩, ⟨⟨by decide, rfl, rfl⟩, fun f r hr => ?_⟩,
    ⟨trivial, trivial⟩, ⟨fun req _ _ f r hr => ?_, trivial⟩, ⟨trivial, trivial⟩, ⟨trivial, trivial⟩, trivial⟩
  · cases he
  · cases hf
    decide
  · cases hr
  · cases hr

theorem clean_on_device_fsync : ∃ s, run (Flush.step 6 0) writeThenFsync (Flush.init 1 (fun _ => 0) fun _ => 0) =
    some s ∧
      (s.buf.item 0).isDirty = false ∧ s.dev 100 = 1 ∧ Durable s := by
  obtain ⟨s, hrun, hd, hdev⟩ : ∃ s, run (Flush.step 6 0) writeThenFsync (Flush.init 1 (fun _ => 0) fun _ => 0) =
    some s ∧
      (s.buf.item 0).isDirty = false ∧ s.dev 100 = 1 := ⟨_, rfl, rfl, rfl⟩
  exact ⟨s, hrun, hd, hdev, clean_on_device 1 6 0 _ _ _ s hrun stalled_writeThenFsync⟩

/-- The block is written once more when the device has taken it. -/
def writeInFlight : List (Flush.Label ℕ) :=
  [.getBlock 100 5, .writeItem 0 1 5, .checkAndFlushDirty [(5, 0)], .take 100, .getBlock 100 5, .writeItem 0 2 5,
    .complete 100 [100]]

/-- The block is clean, the device has 1 and memory has 2, and an fsync lists nothing. -/
theorem flush_loses_update : ∃ s, run (Flush.step 6 0) writeInFlight (Flush.init 1 (fun _ => 0) fun _ => 0) = some s ∧
      s.buf.cacheItemsMap 100 = some (100, 0) ∧ (s.buf.item 0).inMem = true ∧ (s.buf.item 0).isDirty = false ∧
      s.dev 100 = 1 ∧ s.data 0 = 2 ∧ itemsAt s.buf.dirtyIndexMap 5 = ∅ ∧ ¬ Durable s := by
  obtain ⟨s, hrun, hm, hmem, hd, hdev, hdata, hset⟩ : ∃ s, run (Flush.step 6 0) writeInFlight
      (Flush.init 1 (fun _ => 0) fun _ => 0) = some s ∧ s.buf.cacheItemsMap 100 = some (100, 0) ∧
      (s.buf.item 0).inMem = true ∧ (s.buf.item 0).isDirty = false ∧ s.dev 100 = 1 ∧ s.data 0 = 2 ∧
      itemsAt s.buf.dirtyIndexMap 5 = ∅ := ⟨_, rfl, rfl, rfl, rfl, rfl, rfl, by decide⟩
  refine ⟨s, hrun, hm, hmem, hd, hdev, hdata, hset, fun h => ?_⟩
  have hsame := h.clean 100 0 hm hmem hd
  rw [hdev, hdata] at hsame
  cases hsame

end Ufs.Proof.Buffer
