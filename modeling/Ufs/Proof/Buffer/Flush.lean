import Ufs.Impl.Flush
import Ufs.Proof.Buffer.Runs

/-!
# Flush requests and what they have in flight

Between the start of a flush request and its end the blocks that it lists are dirty, a write of the
request is in flight for those that it has submitted, and it has submitted one at least (`Sound`).
This holds as long as no fsync lists a block that a flush in the background has listed (`Orderly`).
Two fsyncs of one inode are kept apart by `waitForFlushIndexes`, those of two inodes have no block
in common, and no flush is started in the background while there is another.
-/

namespace Ufs.Proof.Buffer

open Impl Impl.BlockBuffer Impl.Flush
open Function (update update_apply update_eq_self update_idem update_of_ne update_self)
open Prod (fst snd)
open BufferFlushReq (fsReq)
open List Option

variable {α : Type} {held : Finset ℕ}

/-! ## What is to hold -/

/-- The blocks of a flush request, written or not. -/
def blocksOf (r : BufferFlushReq) : List ℕ := r.flushBlockReqMap.map Prod.fst

/-- What holds of one unfinished request: of the blocks that it lists, and of the writes it has in flight. -/
structure Underway (s : Flush α) (f : ℕ) (r : BufferFlushReq) : Prop where
  bound : f < s.nextFlushReq
  nodup : (blocksOf r).Nodup
  dirty : ∀ x ∈ r.flushBlockReqMap, s.buf.cacheItemsMap x.1 = some x ∧ (s.buf.item x.2).isDirty = true
  rest : r.toSubmitFlushBlocks.Nodup ∧ ∀ b ∈ r.toSubmitFlushBlocks, b ∈ blocksOf r ∧ b ∉ r.submittedFlushBlocks
  submitted : r.submittedFlushBlocks.Nonempty ∧ ∀ b ∈ r.submittedFlushBlocks, b ∈ blocksOf r
  writes : ∀ b ∈ r.submittedFlushBlocks, s.blockFlushReqMap b = some f ∧
    ∃ w, s.inflight b = some w ∧ (b, w.item) ∈ r.flushBlockReqMap
  fsync : ∀ k, r.fsReq = some k → ∃ ino, s.fsync k = some ⟨ino, .dataSyncWait⟩ ∧ ino ∈ s.waitForFlushIndexes ∧
    ∀ x ∈ r.flushBlockReqMap, (s.buf.item x.2).itemIndex = ino

/-- The flush requests in progress that an fsync waits for. -/
def fgFlushes (s : Flush α) : Finset ℕ :=
  (Finset.range s.nextFlushReq).filter fun f => ((s.flushReq f).bind BufferFlushReq.fsReq).isSome

/-- The requests, the writes in flight and the counts of the buffer agree. -/
structure Sound (held : Finset ℕ) (s : Flush α) : Prop where
  repr : Repr held s.buf
  underway : ∀ f r, s.flushReq f = some r → Underway s f r
  owner : ∀ b f, s.blockFlushReqMap b = some f → ∃ r, s.flushReq f = some r ∧ b ∈ r.submittedFlushBlocks
  inflight : ∀ b, s.blockFlushReqMap b = none → s.inflight b = none
  apart : ∀ f r f' r' b, s.flushReq f = some r → s.flushReq f' = some r' → b ∈ blocksOf r → b ∈ blocksOf r' → f = f'
  oneFsync : ∀ f r f' r' k k' ino, s.flushReq f = some r → s.flushReq f' = some r' → r.fsReq = some k →
    r'.fsReq = some k' → s.fsync k = some ⟨ino, .dataSyncWait⟩ → s.fsync k' = some ⟨ino, .dataSyncWait⟩ → f = f'
  oneBg : ∀ f r f' r', s.flushReq f = some r → s.flushReq f' = some r' → r.fsReq = none → r'.fsReq = none → f = f'
  fsyncBound : ∀ k, s.nextFsync ≤ k → s.fsync k = none
  fg : s.buf.numFgFlushInflight = (fgFlushes s).card
  bg : s.buf.bgFlushSent = true ↔ ∃ f r, s.flushReq f = some r ∧ r.fsReq = none

/-- The condition on a step: blocks keep what `Proper` asks of the buffer, and an fsync that is to
list blocks finds none of them listed by a flush in the background. -/
def Orderly : Flush.Label α → Flush α → Prop
  | .getBlock b k, s => Proper (.getBlock b k) s.buf
  | .writeItem i _ k, s => Proper (.setItemDirty i true k) s.buf
  | .processFdataSync k items, s =>
    ∀ req, s.fsync k = some req → req.fileInum ∉ s.waitForFlushIndexes →
      ∀ f r, s.flushReq f = some r → r.fsReq = none → ∀ i ∈ items, (s.buf.item i).blockNo ∉ blocksOf r
  | _, _ => True

section

variable {s s' : Flush α} {f : ℕ} {r : BufferFlushReq}

theorem mem_fgFlushes (h : ∀ f r, s.flushReq f = some r → f < s.nextFlushReq) :
    f ∈ fgFlushes s ↔ ∃ r k, s.flushReq f = some r ∧ r.fsReq = some k := by
  rw [fgFlushes, Finset.mem_filter, Finset.mem_range, isSome_iff_exists]
  simp only [bind_eq_some_iff]
  constructor
  · rintro ⟨-, k, r, hr, hk⟩
    exact ⟨r, k, hr, hk⟩
  · rintro ⟨r, k, hr, hk⟩
    exact ⟨h f r hr, k, r, hr, hk⟩

theorem mem_blocksOf {b : ℕ} : b ∈ blocksOf r ↔ ∃ i, (b, i) ∈ r.flushBlockReqMap := by
  simp [blocksOf]

theorem Underway.change (h : Underway s f r) (hnext : s.nextFlushReq ≤ s'.nextFlushReq)
    (hdirty : ∀ x ∈ r.flushBlockReqMap, s'.buf.cacheItemsMap x.1 = s.buf.cacheItemsMap x.1 ∧
      (s'.buf.item x.2).isDirty = true ∧ (s'.buf.item x.2).itemIndex = (s.buf.item x.2).itemIndex)
    (hmap : ∀ b ∈ r.submittedFlushBlocks, s'.blockFlushReqMap b = s.blockFlushReqMap b)
    (hwrite : ∀ b ∈ r.submittedFlushBlocks, ∀ w, s.inflight b = some w → ∃ w', s'.inflight b = some w' ∧
      w'.item = w.item)
    (hfsync : ∀ k ino, r.fsReq = some k → s.fsync k = some ⟨ino, .dataSyncWait⟩ → ino ∈ s.waitForFlushIndexes →
      s'.fsync k = some ⟨ino, .dataSyncWait⟩ ∧ ino ∈ s'.waitForFlushIndexes) : Underway s' f r := by
  refine ⟨h.bound.trans_le hnext, h.nodup, fun x hx => ?_, h.rest, h.submitted, fun b hb => ?_, fun k hk => ?_⟩
  · obtain ⟨hm, hd, -⟩ := hdirty x hx
    rw [hm]
    exact ⟨(h.dirty x hx).1, hd⟩
  · obtain ⟨hf, w, hw, hmem⟩ := h.writes b hb
    obtain ⟨w', hw', hitem⟩ := hwrite b hb w hw
    rw [hmap b hb]
    exact ⟨hf, w', hw', hitem ▸ hmem⟩
  · obtain ⟨ino, hreq, hwait, hidx⟩ := h.fsync k hk
    obtain ⟨hreq', hwait'⟩ := hfsync k ino hk hreq hwait
    refine ⟨ino, hreq', hwait', fun x hx => ?_⟩
    rw [(hdirty x hx).2.2]
    exact hidx x hx

theorem Underway.entry (h : Underway s f r) {b : ℕ} (hb : b ∈ blocksOf r) :
    ∃ i, (b, i) ∈ r.flushBlockReqMap ∧ s.buf.cacheItemsMap b = some (b, i) ∧ (s.buf.item i).isDirty = true := by
  obtain ⟨i, hi⟩ := mem_blocksOf.1 hb
  exact ⟨i, hi, h.dirty _ hi⟩

end

/-! ## Steps that leave the requests as they are -/

section

variable {s s' : Flush α} (h : Sound held s)

include h

theorem Sound.change (hrepr : Repr held s'.buf) (hdirty : ∀ b i, s.buf.cacheItemsMap b = some (b, i) →
    (s.buf.item i).isDirty = true →
      s'.buf.cacheItemsMap b = some (b, i) ∧ (s'.buf.item i).isDirty = true ∧
        (s'.buf.item i).itemIndex = (s.buf.item i).itemIndex)
    (hflush : s'.flushReq = s.flushReq) (hnext : s.nextFlushReq ≤ s'.nextFlushReq)
      (hmap : s'.blockFlushReqMap = s.blockFlushReqMap)
    (hwrite : ∀ b w, s.inflight b = some w → ∃ w', s'.inflight b = some w' ∧ w'.item = w.item)
    (hnone : ∀ b, s.inflight b = none → s'.inflight b = none)
      (hwait : ∀ ino ∈ s.waitForFlushIndexes, ino ∈ s'.waitForFlushIndexes)
    (hfsync : ∀ k ino, s.fsync k = some ⟨ino, .dataSyncWait⟩ → s'.fsync k = some ⟨ino, .dataSyncWait⟩)
    (hfsyncBound : ∀ k, s'.nextFsync ≤ k → s'.fsync k = none)
    (hfg : s'.buf.numFgFlushInflight = s.buf.numFgFlushInflight) (hbg : s'.buf.bgFlushSent = s.buf.bgFlushSent) :
      Sound held s' := by
  have hfsync' {f r k ino} (hr : s.flushReq f = some r) (hk : r.fsReq = some k)
      (hreq : s'.fsync k = some ⟨ino, .dataSyncWait⟩) : s.fsync k = some ⟨ino, .dataSyncWait⟩ := by
    obtain ⟨ino', hreq', -, -⟩ := (h.underway f r hr).fsync k hk
    rw [hfsync k ino' hreq'] at hreq
    rw [hreq', hreq]
  have hunder (f : ℕ) (r : BufferFlushReq) (hr : s'.flushReq f = some r) : Underway s' f r := by
    rw [hflush] at hr
    have hu := h.underway f r hr
    refine hu.change hnext (fun x hx => ?_) (fun b _ => by rw [hmap]) (fun b _ => hwrite b) ?_
    · obtain ⟨hm, hd⟩ := hu.dirty x hx
      obtain ⟨hm', hd', hi'⟩ := hdirty x.1 x.2 hm hd
      exact ⟨hm'.trans hm.symm, hd', hi'⟩
    · intro k ino _ hreq hin
      exact ⟨hfsync k ino hreq, hwait ino hin⟩
  refine ⟨hrepr, hunder, fun b f hb => ?_, fun b hb => ?_, ?_, ?_, ?_, hfsyncBound, ?_, ?_⟩
  · rw [hmap] at hb
    rw [hflush]
    exact h.owner b f hb
  · rw [hmap] at hb
    exact hnone b (h.inflight b hb)
  · rw [hflush]
    exact h.apart
  · rw [hflush]
    intro f r f' r' k k' ino hr hr' hk hk' hreq hreq'
    exact h.oneFsync f r f' r' k k' ino hr hr' hk hk' (hfsync' hr hk hreq) (hfsync' hr' hk' hreq')
  · rw [hflush]
    exact h.oneBg
  · have hset : fgFlushes s' = fgFlushes s := by
      ext f
      rw [mem_fgFlushes fun f r hr => (hunder f r hr).bound, mem_fgFlushes fun f r hr => (h.underway f r hr).bound,
        hflush]
    rw [hfg, hset]
    exact h.fg
  · rw [hbg, hflush]
    exact h.bg

end

/-! ## The buffer -/

section

variable {buf buf' : BlockBuffer} (hr : Repr held buf)

include hr

/-- `getBlock` changes nothing, or gives an item to the block: the one that has it, or one that is
clean and not in memory then. -/
theorem getBlock_cases {b k : ℕ} {g : GotBlock} (hs : buf.getBlock b k = some (buf', g)) :
    buf' = buf ∨ ∃ i, (∀ j, j ≠ i → buf'.item j = buf.item j) ∧ buf'.cacheItemsMap b = some (b, i) ∧
      (∀ b' e, b' ≠ b → (buf'.cacheItemsMap b' = some e ↔ buf.cacheItemsMap b' = some e ∧ e.2 ≠ i)) ∧
      (buf'.bgFlushSent = buf.bgFlushSent ∧ buf'.numFgFlushInflight = buf.numFgFlushInflight) ∧
      (buf.cacheItemsMap b = some (b, i) ∧ (buf.item i).status ≠ .locked ∧
          buf'.item i = { buf.item i with blockNo := b, status := .locked, itemIndex := k } ∨
        buf.cacheItemsMap b = none ∧ (buf.item i).isDirty = false ∧
          buf'.item i = { buf.item i with blockNo := b, status := .locked, itemIndex := k, inMem := false }) := by
  unfold BlockBuffer.getBlock at hs
  cases hmb : buf.cacheItemsMap b with
  | some e =>
    rw [hmb] at hs
    dsimp only at hs
    split_ifs at hs with hlock
    · cases hs
      exact .inl rfl
    · cases hs
      obtain ⟨he, -⟩ := hr.found hmb
      have hmem := ((hr.inverse b e).1 hmb).1
      refine .inr ⟨e.2, fun j hj => update_of_ne hj .., ?_, fun b' e' hbb => ?_, ⟨rfl, rfl⟩,
        .inl ⟨by rw [← he], hlock, update_self ..⟩⟩
      · exact (update_self ..).trans (congrArg some he)
      · change update buf.cacheItemsMap b (some e) b' = _ ↔ _
        rw [update_of_ne hbb]
        refine ⟨fun hx => ⟨hx, fun hi => hbb ?_⟩, fun hx => hx.1⟩
        obtain ⟨hmem', hfst⟩ := (hr.inverse b' e').1 hx
        rw [← hfst, inj_on_of_nodup_map hr.nodup hmem' hmem hi, he]
  | none =>
    rw [hmb] at hs
    cases hf : buf.freeItems with
    | cons i rest =>
      rw [hf] at hs
      cases hs
      have hfi : i ∈ buf.freeItems := by rw [hf]; exact mem_cons_self
      refine .inr ⟨i, fun j hj => ?_, update_self .., fun b' e hbb => ?_, ⟨rfl, rfl⟩, .inr ⟨rfl, hr.clean i hfi, ?_⟩⟩
      · exact (update_of_ne hj ..).trans (setItem_item_of_ne _ hj _)
      · change update buf.cacheItemsMap b _ b' = _ ↔ _
        rw [update_of_ne hbb]
        refine ⟨fun hx => ⟨hx, ?_⟩, fun hx => hx.1⟩
        rintro rfl
        exact hr.apart _ hfi (hr.found hx).2
      · exact (update_self ..).trans (by rw [setItem_item_self])
    | nil =>
      rw [hf] at hs
      split_ifs at hs with hempty
      · cases hs
        exact .inl rfl
      · cases hrep : findReplacement buf.item buf.cacheItemsList.reverse false with
        | mk x hasDirty =>
          rw [hrep] at hs
          cases x with
          | none => cases hs
          | some e =>
            cases hs
            obtain ⟨hmem, -, hclean⟩ := findReplacement_spec hrep
            rw [mem_reverse] at hmem
            have hno := hr.blockNo e.1 e.2 hmem
            refine .inr ⟨e.2, fun j hj => ?_, update_self .., fun b' e' hbb => ?_, ⟨rfl, rfl⟩, .inr ⟨rfl, hclean, ?_⟩⟩
            · exact (update_of_ne hj ..).trans (setItem_item_of_ne _ hj _)
            · change update (update buf.cacheItemsMap (buf.item e.2).blockNo none) b _ b' = _ ↔ _
              rw [update_of_ne hbb, hno, update_apply]
              split_ifs with hb'
              · refine ⟨fun hx => ?_, fun hx => ?_⟩
                · cases hx
                · have hee : buf.cacheItemsMap b' = some e := (hr.inverse b' e).2 ⟨hmem, hb'.symm⟩
                  rw [hee] at hx
                  cases hx.1
                  exact absurd rfl hx.2
              · refine ⟨fun hx => ⟨hx, fun hi => hb' ?_⟩, fun hx => hx.1⟩
                obtain ⟨hmem', hfst⟩ := (hr.inverse b' e').1 hx
                rw [← hfst, inj_on_of_nodup_map hr.nodup hmem' hmem hi]
            · exact (update_self ..).trans (by rw [setItem_item_self])

theorem getBlock_keeps_dirty {b k b' i : ℕ} {g : GotBlock} (hp : Proper (.getBlock b k) buf)
    (hs : buf.getBlock b k = some (buf', g)) (hm : buf.cacheItemsMap b' = some (b', i))
      (hd : (buf.item i).isDirty = true) :
    buf'.cacheItemsMap b' = some (b', i) ∧ (buf'.item i).isDirty = true ∧
      (buf'.item i).itemIndex = (buf.item i).itemIndex := by
  rcases getBlock_cases hr hs with rfl | ⟨j, hitem, hmb, hmap, -, ⟨hhit, hlock, hj⟩ | ⟨hmiss, hclean, -⟩⟩
  · exact ⟨hm, hd, rfl⟩
  · by_cases hbb : b' = b
    · subst hbb
      rw [hm] at hhit
      cases hhit
      rw [hj]
      exact ⟨hmb, hd, (hp.1 _ hm hlock hd).symm⟩
    · have hij : i ≠ j := by
        rintro rfl
        have heq := (hr.blockNo _ _ ((hr.inverse _ _).1 hm).1).symm.trans (hr.blockNo _ _ ((hr.inverse _ _).1 hhit).1)
        exact hbb heq
      rw [hitem i hij]
      exact ⟨(hmap b' _ hbb).2 ⟨hm, hij⟩, hd, rfl⟩
  · have hij : i ≠ j := by
      rintro rfl
      rw [hclean] at hd
      cases hd
    have hbb : b' ≠ b := by
      rintro rfl
      rw [hm] at hmiss
      cases hmiss
    rw [hitem i hij]
    exact ⟨(hmap b' _ hbb).2 ⟨hm, hij⟩, hd, rfl⟩

omit hr in
theorem setItemDirty_spec {i k : ℕ} (hs : buf.setItemDirty i true k = some buf') :
    buf'.item = (buf.setDirty i true).item ∧ buf'.cacheItemsMap = buf.cacheItemsMap ∧
      buf'.bgFlushSent = buf.bgFlushSent ∧ buf'.numFgFlushInflight = buf.numFgFlushInflight := by
  unfold BlockBuffer.setItemDirty at hs
  dsimp only at hs
  split_ifs at hs with hsame
  · cases hs
    exact ⟨rfl, rfl, rfl, rfl⟩
  · obtain ⟨buf₁, hs₁, rfl⟩ := map_eq_some_iff.1 hs
    cases adjustDirtyItemNum_eq hs₁
    exact ⟨rfl, rfl, rfl, rfl⟩

end

section

variable {s s' : Flush α}

theorem writeItem_spec {i k : ℕ} {v : α} (hr : Repr held s.buf) (hp : Proper (.setItemDirty i true k) s.buf)
    (hs : s.writeItem i v k = some s') :
    ∃ buf', s' = { s with data := update s.data i v, buf := buf' } ∧ Repr held buf' ∧
      buf'.item = update s.buf.item i { s.buf.item i with isDirty := true, inMem := true, status := .valid } ∧
      buf'.cacheItemsMap = s.buf.cacheItemsMap ∧ buf'.bgFlushSent = s.buf.bgFlushSent ∧
      buf'.numFgFlushInflight = s.buf.numFgFlushInflight := by
  obtain ⟨hlist, hlock, hidx⟩ := hp
  obtain ⟨buf1, hb, rfl⟩ := map_eq_some_iff.1 hs
  have hrepr := hr.setItemDirty hlist hidx hb
  obtain ⟨hitem, hmap, hbg, hfg⟩ := setItemDirty_spec hb
  have hi : buf1.item i = { s.buf.item i with isDirty := true } := by
    rw [hitem]
    exact setItem_item_self ..
  refine ⟨_, rfl, ?_, ?_⟩
  · split_ifs
    · exact hrepr.releaseBlock i
    · exact hrepr.blockFetchedCallback i
  · unfold BlockBuffer.releaseBlock BlockBuffer.blockFetchedCallback
    rw [hi]
    dsimp only
    rw [if_pos hlock, if_pos hlock]
    have hupd (x : BlockBufferItem) : update buf1.item i x = update s.buf.item i x := by
      rw [hitem]
      exact update_idem ..
    split_ifs with hmem
    · refine ⟨(hupd _).trans ?_, hmap, hbg, hfg⟩
      rw [hi]
      simp only [hmem]
    · exact ⟨hupd _, hmap, hbg, hfg⟩

end

/-! ## A new request -/

variable {items : List ℕ}

section

variable {s s' : Flush α} {f : ℕ} {reqs : List (ℕ × ℕ)} {todo rest : List ℕ}

theorem submitLoop_spec {sub sub' : Finset ℕ} (hs : submitLoop f reqs todo sub s = (s', rest, sub')) :
    ∃ taken, todo = taken ++ rest ∧ sub' = sub ∪ taken.toFinset ∧ (∀ b ∈ taken, s'.blockFlushReqMap b = some f ∧
        ∃ item, reqs.lookup b = some item ∧ s'.inflight b = some ⟨item, none⟩) ∧
      (∀ b, b ∉ taken → s'.blockFlushReqMap b = s.blockFlushReqMap b ∧ s'.inflight b = s.inflight b) ∧
      s' = { s with blockFlushReqMap := s'.blockFlushReqMap, inflight := s'.inflight } := by
  induction todo generalizing s sub with
  | nil =>
    cases hs
    exact ⟨[], rfl, by simp, by simp, fun _ _ => ⟨rfl, rfl⟩, rfl⟩
  | cons b todo ih =>
    rw [submitLoop] at hs
    split_ifs at hs with hfull
    · cases hs
      exact ⟨[], rfl, by simp, by simp, fun _ _ => ⟨rfl, rfl⟩, rfl⟩
    · cases hsub : (reqs.lookup b).bind (s.submitAsyncBufFlushWriteDevReq f b) with
      | none =>
        rw [hsub] at hs
        cases hs
        exact ⟨[], rfl, by simp, by simp, fun _ _ => ⟨rfl, rfl⟩, rfl⟩
      | some s1 =>
        rw [hsub] at hs
        obtain ⟨taken, htodo, hsub', htaken, hother, hframe⟩ := ih hs
        obtain ⟨item, hitem, hs1⟩ := bind_eq_some_iff.1 hsub
        unfold submitAsyncBufFlushWriteDevReq at hs1
        split_ifs at hs1 with hbusy
        cases hs1
        refine ⟨b :: taken, by rw [htodo, cons_append], ?_, fun b' hb' => ?_, fun b' hb' => ?_, hframe⟩
        · rw [hsub', toFinset_cons, Finset.insert_union, Finset.union_insert]
        · by_cases hin : b' ∈ taken
          · exact htaken b' hin
          · obtain rfl : b' = b := by simpa [hin] using hb'
            obtain ⟨hmap, hinfl⟩ := hother b' hin
            rw [hmap, hinfl]
            exact ⟨update_self .., item, hitem, update_self ..⟩
        · rw [mem_cons, not_or] at hb'
          obtain ⟨hne, hin⟩ := hb'
          obtain ⟨hmap, hinfl⟩ := hother b' hin
          rw [hmap, hinfl]
          exact ⟨update_of_ne hne .., update_of_ne hne ..⟩

theorem submitLoop_first {b : ℕ} {sub' : Finset ℕ} {item : ℕ} (hb : reqs.lookup b = some item)
    (hfree : s.blockFlushReqMap b = none) (hs : submitLoop f reqs (b :: todo) ∅ s = (s', rest, sub')) :
      rest.length ≤ todo.length := by
  rw [submitLoop, if_neg (by decide), hb] at hs
  have hsub : s.submitAsyncBufFlushWriteDevReq f b item = some { s with
      blockFlushReqMap := update s.blockFlushReqMap b (some f)
      inflight := update s.inflight b (some ⟨item, none⟩) } := by
    unfold submitAsyncBufFlushWriteDevReq
    rw [hfree]
    rfl
  rw [bind_some, hsub] at hs
  obtain ⟨taken, htodo, -⟩ := submitLoop_spec hs
  rw [htodo, length_append]
  omega

theorem lookup_eq_some {reqs : List (ℕ × ℕ)} (hnd : (reqs.map fst).Nodup) {b i : ℕ} :
    reqs.lookup b = some i ↔ (b, i) ∈ reqs := by
  induction reqs with
  | nil => simp
  | cons x reqs ih =>
    obtain ⟨b', i'⟩ := x
    rw [map_cons, nodup_cons] at hnd
    rw [lookup_cons, mem_cons]
    by_cases hb : b = b'
    · subst hb
      have hno : (b, i) ∉ reqs := fun hin => hnd.1 (List.mem_map.2 ⟨_, hin, rfl⟩)
      simp [hno, eq_comm]
    · have hne : (b == b') = false := by simpa using hb
      rw [hne]
      simp [hb, ih hnd.2]

theorem initFlushReqs_spec (hr : Repr held s.buf) {acc : List (ℕ × ℕ)} (hnd : items.Nodup)
    (hitems : ∀ i ∈ items, i ∈ listed s.buf ∧ (s.buf.item i).isDirty = true)
      (hacc : ∀ i ∈ items, acc.lookup (s.buf.item i).blockNo = none) :
    s.initFlushReqs items acc = some (some (acc ++ items.map fun i => ((s.buf.item i).blockNo, i))) := by
  induction items generalizing acc with
  | nil => simp [initFlushReqs]
  | cons i items ih =>
    obtain ⟨hlist, hd⟩ := hitems i mem_cons_self
    rw [nodup_cons] at hnd
    have hentry := (hr.inverse _ _).2 ⟨hr.entry hlist, rfl⟩
    have hcur : s.buf.getBlockWithoutAccess (s.buf.item i).blockNo = some i := by
      rw [BlockBuffer.getBlockWithoutAccess, hentry]
      rfl
    rw [initFlushReqs, hacc i mem_cons_self]
    rw [if_neg (by simp), hcur, bind_some, if_pos hd]
    rw [ih hnd.2 (fun j hj => hitems j (mem_cons_of_mem _ hj)) fun j hj => ?_]
    · simp
    · have hne : ((s.buf.item j).blockNo == (s.buf.item i).blockNo) = false := by
        rw [beq_eq_false_iff_ne]
        intro heq
        have hj' := (hr.inverse _ _).2 ⟨hr.entry (hitems j (mem_cons_of_mem _ hj)).1, rfl⟩
        rw [heq, hentry] at hj'
        cases hj'
        exact hnd.1 hj
      rw [lookup_append, hacc j (mem_cons_of_mem _ hj)]
      simp [lookup_cons, hne]

theorem newFlush_spec {o : Option ℕ} (hne : reqs ≠ []) (hnd : (reqs.map fst).Nodup)
    (hfree : ∀ x ∈ reqs, s.blockFlushReqMap x.1 = none) :
    ∃ taken rest bfm infl, reqs.map fst = taken ++ rest ∧ taken ≠ [] ∧ s.newFlush o reqs = ({ s with
            nextFlushReq := s.nextFlushReq + 1
            flushReq := update s.flushReq s.nextFlushReq (some ⟨o, reqs, rest, taken.toFinset⟩)
            blockFlushReqMap := bfm
            inflight := infl
            log := s.log ++ [.listed s.nextFlushReq (reqs.map fst)] }, taken.length) ∧
      (∀ b ∈ taken, bfm b = some s.nextFlushReq ∧ ∃ item, (b, item) ∈ reqs ∧ infl b = some ⟨item, none⟩) ∧
      ∀ b, b ∉ taken → bfm b = s.blockFlushReqMap b ∧ infl b = s.inflight b := by
  generalize hx : submitLoop s.nextFlushReq reqs (reqs.map fst) ∅ { s with nextFlushReq := s.nextFlushReq + 1 } = x
  obtain ⟨s1, rest, sub⟩ := x
  obtain ⟨taken, htodo, hsub, htaken, hother, hframe⟩ := submitLoop_spec hx
  rw [Finset.empty_union] at hsub
  subst hsub
  have hlen : reqs.length - rest.length = taken.length := by
    have := congrArg List.length htodo
    rw [length_map, length_append] at this
    omega
  -- the first block is submitted
  have hpos : taken ≠ [] := by
    cases reqs with
    | nil => exact absurd rfl hne
    | cons y ys =>
      have hy : (y :: ys).lookup y.1 = some y.2 := (lookup_eq_some hnd).2 mem_cons_self
      have hrest := submitLoop_first (s := { s with nextFlushReq := s.nextFlushReq + 1 }) hy (hfree y mem_cons_self) hx
      rw [length_map] at hrest
      intro h0
      rw [h0, length_cons] at hlen
      simp at hlen
      omega
  refine ⟨taken, rest, s1.blockFlushReqMap, s1.inflight, htodo, hpos, ?_, fun b hb => ?_, hother⟩
  · unfold Flush.newFlush
    dsimp only
    rw [hx]
    rw [hlen, if_neg (by rwa [length_eq_zero_iff]), hframe]
  · obtain ⟨hb', item, hitem, hinfl⟩ := htaken b hb
    exact ⟨hb', item, (lookup_eq_some hnd).1 hitem, hinfl⟩

/-- A request is made, of which a first part is submitted; no other lists its blocks. -/
structure Made (s : Flush α) (r : BufferFlushReq) (taken : List ℕ) (s' : Flush α) : Prop where
  nodup : (blocksOf r).Nodup
  parts : blocksOf r = taken ++ r.toSubmitFlushBlocks
  submitted : r.submittedFlushBlocks = taken.toFinset
  nonempty : taken ≠ []
  writes : ∀ b ∈ taken, s'.blockFlushReqMap b = some s.nextFlushReq ∧
    ∃ item, (b, item) ∈ r.flushBlockReqMap ∧ s'.inflight b = some ⟨item, none⟩
  same : ∀ b, b ∉ taken → s'.blockFlushReqMap b = s.blockFlushReqMap b ∧ s'.inflight b = s.inflight b
  dirty : ∀ x ∈ r.flushBlockReqMap, s.buf.cacheItemsMap x.1 = some x ∧ (s.buf.item x.2).isDirty = true
  apart : ∀ f r', s.flushReq f = some r' → ∀ b ∈ blocksOf r, b ∉ blocksOf r'
  flushReq : s'.flushReq = update s.flushReq s.nextFlushReq (some r)
  next : s'.nextFlushReq = s.nextFlushReq + 1
  nextFsync : s'.nextFsync = s.nextFsync
  data : s'.data = s.data ∧ s'.dev = s.dev
  log : s'.log = s.log ++ [.listed s.nextFlushReq (blocksOf r)]

/-- The request is that of an fsync, which waits from now on, or the only one in the background. -/
structure Starts (held : Finset ℕ) (s : Flush α) (r : BufferFlushReq) (taken : List ℕ) (s' : Flush α) : Prop extends
    Made s r taken s' where
  repr : Repr held s'.buf
  item : s'.buf.item = s.buf.item
  map : s'.buf.cacheItemsMap = s.buf.cacheItemsMap
  kind : r.fsReq = none ∧ s'.fsync = s.fsync ∧ s'.waitForFlushIndexes = s.waitForFlushIndexes ∧
      s'.buf.numFgFlushInflight = s.buf.numFgFlushInflight ∧ s'.buf.bgFlushSent = true ∧
      (∀ f r', s.flushReq f = some r' → r'.fsReq ≠ none) ∨
    ∃ k ino, r.fsReq = some k ∧ s.fsync k = some ⟨ino, .dataBio⟩ ∧ ino ∉ s.waitForFlushIndexes ∧
      s'.fsync = update s.fsync k (some ⟨ino, .dataSyncWait⟩) ∧
      s'.waitForFlushIndexes = insert ino s.waitForFlushIndexes ∧
      s'.buf.numFgFlushInflight = s.buf.numFgFlushInflight + 1 ∧ s'.buf.bgFlushSent = s.buf.bgFlushSent ∧
      ∀ x ∈ r.flushBlockReqMap, (s.buf.item x.2).itemIndex = ino

/-- One request is made, changed or ended, and the others are left as they are. -/
theorem Sound.setReq (h : Sound held s) {x : Option BufferFlushReq} (hrepr : Repr held s'.buf)
    (hreq : s'.flushReq = update s.flushReq f x) (hnext : s.nextFlushReq ≤ s'.nextFlushReq)
      (hself : ∀ r, x = some r → Underway s' f r)
    (hapart : ∀ r, x = some r → ∀ f' r', f' ≠ f → s.flushReq f' = some r' → ∀ b ∈ blocksOf r, b ∉ blocksOf r')
    (hdirty : ∀ f' r', f' ≠ f → s.flushReq f' = some r' → ∀ e ∈ r'.flushBlockReqMap,
      s'.buf.cacheItemsMap e.1 = s.buf.cacheItemsMap e.1 ∧ (s'.buf.item e.2).isDirty = true ∧
        (s'.buf.item e.2).itemIndex = (s.buf.item e.2).itemIndex)
    (hblocks : ∀ b, s'.blockFlushReqMap b = some f ∧ (∃ r, x = some r ∧ b ∈ r.submittedFlushBlocks) ∨
      s.blockFlushReqMap b = some f ∧ s'.blockFlushReqMap b = none ∧ s'.inflight b = none ∨
      s.blockFlushReqMap b ≠ some f ∧ s'.blockFlushReqMap b = s.blockFlushReqMap b ∧ s'.inflight b = s.inflight b)
    (hfsync : ∀ f' r' k ino, f' ≠ f → s.flushReq f' = some r' → r'.fsReq = some k →
      s.fsync k = some ⟨ino, .dataSyncWait⟩ → ino ∈ s.waitForFlushIndexes →
        s'.fsync k = some ⟨ino, .dataSyncWait⟩ ∧ ino ∈ s'.waitForFlushIndexes)
    (hino : ∀ r k ino, x = some r → r.fsReq = some k → s'.fsync k = some ⟨ino, .dataSyncWait⟩ → ∀ f' r' k', f' ≠ f →
      s.flushReq f' = some r' → r'.fsReq = some k' → s.fsync k' ≠ some ⟨ino, .dataSyncWait⟩)
    (hone : ∀ r, x = some r → r.fsReq = none → ∀ f' r', f' ≠ f → s.flushReq f' = some r' → r'.fsReq ≠ none)
    (hbound : ∀ k, s'.nextFsync ≤ k → s'.fsync k = none) (hfg :
      s'.buf.numFgFlushInflight + (if ((s.flushReq f).bind fsReq).isSome then 1 else 0) =
      s.buf.numFgFlushInflight + if (x.bind fsReq).isSome then 1 else 0)
        (hbg : s'.buf.bgFlushSent = true ↔ (∃ r, x = some r ∧ r.fsReq = none) ∨
      s.buf.bgFlushSent = true ∧ ∀ r, s.flushReq f = some r → r.fsReq ≠ none) : Sound held s' := by
  have hnew : s'.flushReq f = x := by rw [hreq, update_self]
  have hold {f' : ℕ} (hf : f' ≠ f) : s'.flushReq f' = s.flushReq f' := by rw [hreq, update_of_ne hf]
  have hcases {f' r'} (hr : s'.flushReq f' = some r') : f' = f ∧ x = some r' ∨ f' ≠ f ∧ s.flushReq f' = some r' := by
    rcases eq_or_ne f' f with rfl | hf
    · exact .inl ⟨rfl, hnew.symm.trans hr⟩
    · exact .inr ⟨hf, (hold hf).symm.trans hr⟩
  have hsame {f' r' b} (hf : f' ≠ f) (hr : s.flushReq f' = some r') (hb : b ∈ r'.submittedFlushBlocks) :
      s'.blockFlushReqMap b = s.blockFlushReqMap b ∧ s'.inflight b = s.inflight b := by
    have hu := h.underway f' r' hr
    rcases hblocks b with ⟨-, r, hx, hin⟩ | ⟨hown, -⟩ | ⟨-, hsame⟩
    · exact absurd (hu.submitted.2 b hb) (hapart r hx f' r' hf hr b ((hself r hx).submitted.2 b hin))
    · rw [(hu.writes b hb).1] at hown
      exact absurd (Option.some.inj hown) hf
    · exact hsame
  have hunder (f' : ℕ) (r' : BufferFlushReq) (hr : s'.flushReq f' = some r') : Underway s' f' r' := by
    rcases hcases hr with ⟨rfl, hx⟩ | ⟨hf, hr⟩
    · exact hself r' hx
    · exact (h.underway f' r' hr).change hnext (hdirty f' r' hf hr) (fun b hb => (hsame hf hr hb).1)
        (fun b hb w hw => ⟨w, (hsame hf hr hb).2.trans hw, rfl⟩) fun k ino => hfsync f' r' k ino hf hr
  have hback {f' r' k ino} (hf : f' ≠ f) (hr : s.flushReq f' = some r') (hk : r'.fsReq = some k)
      (hq : s'.fsync k = some ⟨ino, .dataSyncWait⟩) : s.fsync k = some ⟨ino, .dataSyncWait⟩ := by
    obtain ⟨ino', hq', hin, -⟩ := (h.underway f' r' hr).fsync k hk
    rw [(hfsync f' r' k ino' hf hr hk hq' hin).1] at hq
    cases hq
    exact hq'
  refine ⟨hrepr, hunder, fun b f' hb => ?_, fun b hb => ?_, fun f1 r1 f2 r2 b h1 h2 hb1 hb2 => ?_,
    fun f1 r1 f2 r2 k k' ino h1 h2 hk hk' hq hq' => ?_, fun f1 r1 f2 r2 h1 h2 hn hn' => ?_, hbound, ?_, ?_⟩
  · rcases hblocks b with ⟨hnow, r, hx, hin⟩ | ⟨-, hnone, -⟩ | ⟨hne, hsame, -⟩
    · cases hnow.symm.trans hb
      exact ⟨r, hnew.trans hx, hin⟩
    · cases hnone.symm.trans hb
    · rw [hsame] at hb
      obtain ⟨r', hr, hin⟩ := h.owner b f' hb
      exact ⟨r', (hold fun hf => hne (hf ▸ hb)).trans hr, hin⟩
  · rcases hblocks b with ⟨hnow, -⟩ | ⟨-, -, hnone⟩ | ⟨-, hsame, hinfl⟩
    · cases hnow.symm.trans hb
    · exact hnone
    · exact hinfl.trans (h.inflight b (hsame.symm.trans hb))
  · rcases hcases h1 with ⟨rfl, hx1⟩ | ⟨hf1, h1⟩ <;> rcases hcases h2 with ⟨rfl, hx2⟩ | ⟨hf2, h2⟩
    · rfl
    · exact absurd hb2 (hapart r1 hx1 f2 r2 hf2 h2 b hb1)
    · exact absurd hb1 (hapart r2 hx2 f1 r1 hf1 h1 b hb2)
    · exact h.apart f1 r1 f2 r2 b h1 h2 hb1 hb2
  · rcases hcases h1 with ⟨rfl, hx1⟩ | ⟨hf1, h1⟩ <;> rcases hcases h2 with ⟨rfl, hx2⟩ | ⟨hf2, h2⟩
    · rfl
    · exact absurd (hback hf2 h2 hk' hq') (hino r1 k ino hx1 hk hq f2 r2 k' hf2 h2 hk')
    · exact absurd (hback hf1 h1 hk hq) (hino r2 k' ino hx2 hk' hq' f1 r1 k hf1 h1 hk)
    · exact h.oneFsync f1 r1 f2 r2 k k' ino h1 h2 hk hk' (hback hf1 h1 hk hq) (hback hf2 h2 hk' hq')
  · rcases hcases h1 with ⟨rfl, hx1⟩ | ⟨hf1, h1⟩ <;> rcases hcases h2 with ⟨rfl, hx2⟩ | ⟨hf2, h2⟩
    · rfl
    · exact absurd hn' (hone r1 hx1 hn f2 r2 hf2 h2)
    · exact absurd hn (hone r2 hx2 hn' f1 r1 hf1 h1)
    · exact h.oneBg f1 r1 f2 r2 h1 h2 hn hn'
  · have hcard {t : Flush α} (ht : ∀ f r, t.flushReq f = some r → Underway t f r) : (fgFlushes t).card =
        ((fgFlushes t).erase f).card + if ((t.flushReq f).bind fsReq).isSome then 1 else 0 := by
      have hmem : ((t.flushReq f).bind fsReq).isSome ↔ f ∈ fgFlushes t := by
        rw [mem_fgFlushes fun f r hr => (ht f r hr).bound]
        simp [isSome_iff_exists, bind_eq_some_iff, exists_comm]
      split_ifs with hin
      · exact (Finset.card_erase_add_one (hmem.1 hin)).symm
      · rw [Finset.erase_eq_of_notMem (mt hmem.2 hin), Nat.add_zero]
    have herase : (fgFlushes s').erase f = (fgFlushes s).erase f := by
      ext f'
      rw [Finset.mem_erase, Finset.mem_erase, mem_fgFlushes fun f r hr => (hunder f r hr).bound,
        mem_fgFlushes fun f r hr => (h.underway f r hr).bound]
      exact and_congr_right fun hf => by rw [hold hf]
    have hs := hcard h.underway
    have hs' := hcard hunder
    rw [hnew, herase] at hs'
    have := h.fg
    split_ifs at hs hs' hfg <;> omega
  · rw [hbg, h.bg]
    constructor
    · rintro (⟨r, hx, hn⟩ | ⟨⟨f', r', hr, hn⟩, hf⟩)
      · exact ⟨f, r, hnew.trans hx, hn⟩
      · refine ⟨f', r', (hold ?_).trans hr, hn⟩
        rintro rfl
        exact hf r' hr hn
    · rintro ⟨f', r', hr, hn⟩
      rcases hcases hr with ⟨rfl, hx⟩ | ⟨hf, hr⟩
      · exact .inl ⟨r', hx, hn⟩
      · exact .inr ⟨⟨f', r', hr, hn⟩, fun r hr' hn' => hf (h.oneBg f' r' f r hr hr' hn hn')⟩

theorem Sound.starts (h : Sound held s) {r : BufferFlushReq} {taken : List ℕ} (hst : Starts held s r taken s') :
    Sound held s' := by
  obtain ⟨⟨hnd, hparts, hsub, hne, htaken, hother, hdirty, hfree, hreq, hnext, hnextFsync, -, -⟩, hrepr, hitem,
    hmap, hkind⟩ := hst
  have hnone : s.flushReq s.nextFlushReq = none := by
    by_contra hsome
    obtain ⟨r', hr'⟩ := ne_none_iff_exists'.1 hsome
    exact (h.underway _ r' hr').bound.ne rfl
  refine h.setReq hrepr hreq (by omega) ?_ ?_ (fun f r' _ hr e he => ?_) (fun b => ?_)
    (fun f r' k ino _ hr hk hq hwait => ?_) ?_ ?_
    (fun k hk => ?_) ?_ ?_
  · rintro _ ⟨⟩
    refine ⟨by omega, hnd, fun x hx => ?_, ?_, ?_, fun b hb => ?_, fun k hk => ?_⟩
    · rw [hmap, hitem]
      exact hdirty x hx
    · rw [hparts, nodup_append] at hnd
      refine ⟨hnd.2.1, fun b hb => ⟨?_, fun hin => ?_⟩⟩
      · rw [hparts]
        exact mem_append_right _ hb
      · rw [hsub, List.mem_toFinset] at hin
        exact hnd.2.2 b hin b hb rfl
    · rw [hsub]
      refine ⟨(toFinset_nonempty_iff _).2 hne, fun b hb => ?_⟩
      rw [hparts]
      exact mem_append_left _ (List.mem_toFinset.1 hb)
    · rw [hsub, List.mem_toFinset] at hb
      obtain ⟨hb', item, hin, hinfl⟩ := htaken b hb
      exact ⟨hb', _, hinfl, hin⟩
    · rcases hkind with ⟨hnone, -⟩ | ⟨k0, ino, hk0, -, -, hf, hw, -, -, hidx⟩
      · cases hnone.symm.trans hk
      · cases hk0.symm.trans hk
        rw [hf, hw, hitem]
        exact ⟨ino, update_self .., Finset.mem_insert_self .., hidx⟩
  · rintro _ ⟨⟩ f r' - hr
    exact hfree f r' hr
  · rw [hmap, hitem]
    exact ⟨rfl, ((h.underway f r' hr).dirty e he).2, rfl⟩
  · by_cases hin : b ∈ taken
    · refine .inl ⟨(htaken b hin).1, r, rfl, ?_⟩
      rw [hsub, List.mem_toFinset]
      exact hin
    · refine .inr (.inr ⟨fun hb => ?_, hother b hin⟩)
      obtain ⟨r', hr', -⟩ := h.owner b _ hb
      cases hnone.symm.trans hr'
  · -- fsyncs that wait go on waiting
    rcases hkind with ⟨-, hf, hw, -⟩ | ⟨k0, ino0, -, hbio, -, hf, hw, -⟩
    · rw [hf, hw]
      exact ⟨hq, hwait⟩
    · have hk : k ≠ k0 := by
        rintro rfl
        cases hq.symm.trans hbio
      rw [hf, hw, update_of_ne hk]
      exact ⟨hq, Finset.mem_insert_of_mem hwait⟩
  · -- the inode of an old request is on the list already, that of the new one was not
    rintro _ k ino ⟨⟩ hk hq f r' k' - hr hk' hq'
    obtain ⟨ino', hino, hwait, -⟩ := (h.underway f r' hr).fsync k' hk'
    cases hino.symm.trans hq'
    rcases hkind with ⟨hnone, -⟩ | ⟨k0, ino0, hk0, -, hnw, hf, -⟩
    · cases hnone.symm.trans hk
    · cases hk0.symm.trans hk
      rw [hf, update_self] at hq
      cases hq
      exact hnw hwait
  · rintro _ ⟨⟩ hn f r' - hr
    rcases hkind with ⟨-, -, -, -, -, hbg⟩ | ⟨k, -, hk, -⟩
    · exact hbg f r' hr
    · cases hk.symm.trans hn
  · have hk' := h.fsyncBound k (hnextFsync ▸ hk)
    rcases hkind with ⟨-, hf, -⟩ | ⟨k0, ino, -, hbio, -, hf, -⟩
    · rw [hf]
      exact hk'
    · have hne : k ≠ k0 := by
        rintro rfl
        cases hk'.symm.trans hbio
      rw [hf, update_of_ne hne]
      exact hk'
  · rcases hkind with ⟨hn, -, -, hfg, -⟩ | ⟨k, ino, hk, -, -, -, -, hfg, -⟩
    · simp [hnone, hn, hfg]
    · simp [hnone, hk, hfg]
  · rcases hkind with ⟨hn, -, -, -, hbg, -⟩ | ⟨k, ino, hk, -, -, -, -, -, hbg, -⟩
    · simp [hn, hbg]
    · simp [hnone, hk, hbg]

end

section

variable {s s' : Flush α} (h : Sound held s)

include h

theorem Sound.newFlush_made (hne : items ≠ []) (hnd : items.Nodup)
    (hitems : ∀ i ∈ items, i ∈ listed s.buf ∧ (s.buf.item i).isDirty = true)
    (hfree : ∀ f r, s.flushReq f = some r → ∀ i ∈ items, (s.buf.item i).blockNo ∉ blocksOf r) (o : Option ℕ)
      (buf : BlockBuffer) :
    ∃ r taken s₁, (s.setBuf buf).newFlush o (items.map fun i => ((s.buf.item i).blockNo, i)) = (s₁, taken.length) ∧
      Made s r taken s₁ ∧ r.fsReq = o ∧ r.flushBlockReqMap = (items.map fun i => ((s.buf.item i).blockNo, i)) ∧
      s₁.buf = buf ∧ s₁.fsync = s.fsync ∧ s₁.waitForFlushIndexes = s.waitForFlushIndexes := by
  generalize hreqs : (items.map fun i => ((s.buf.item i).blockNo, i)) = reqs
  have hentry {i : ℕ} (hi : i ∈ items) : s.buf.cacheItemsMap (s.buf.item i).blockNo = some
    ((s.buf.item i).blockNo, i) :=
    (h.repr.inverse _ _).2 ⟨h.repr.entry (hitems i hi).1, rfl⟩
  have hmem {x : ℕ × ℕ} (hx : x ∈ reqs) : x.2 ∈ items ∧ x = ((s.buf.item x.2).blockNo, x.2) := by
    rw [← hreqs] at hx
    obtain ⟨i, hi, rfl⟩ := List.mem_map.1 hx
    exact ⟨hi, rfl⟩
  have hkeys : (reqs.map fst).Nodup := by
    rw [← hreqs, List.map_map]
    refine hnd.map_on fun i hi j hj heq => ?_
    have hij := hentry hi
    rw [show (s.buf.item i).blockNo = (s.buf.item j).blockNo from heq, hentry hj] at hij
    cases hij
    rfl
  have hapart (f : ℕ) (r' : BufferFlushReq) (hr' : s.flushReq f = some r') (b : ℕ) (hb : b ∈ reqs.map fst) :
    b ∉ blocksOf r' := by
    obtain ⟨x, hx, rfl⟩ := List.mem_map.1 hb
    obtain ⟨hi, heq⟩ := hmem hx
    rw [heq]
    exact hfree f r' hr' x.2 hi
  have hidle (x : ℕ × ℕ) (hx : x ∈ reqs) : (s.setBuf buf).blockFlushReqMap x.1 = none := by
    change s.blockFlushReqMap x.1 = none
    cases hm : s.blockFlushReqMap x.1 with
    | none => rfl
    | some f =>
      obtain ⟨r', hr', hin⟩ := h.owner x.1 f hm
      exact absurd ((h.underway f r' hr').submitted.2 x.1 hin) (hapart f r' hr' x.1 (List.mem_map.2 ⟨x, hx, rfl⟩))
  have hreqsNe : reqs ≠ [] := by
    rw [← hreqs]
    simpa using hne
  obtain ⟨taken, rest, bfm, infl, hparts, htaken, hnew, hwrites, hsame⟩ := newFlush_spec (o := o) hreqsNe hkeys hidle
  refine ⟨⟨o, reqs, rest, taken.toFinset⟩, taken, _, hnew, ⟨hkeys, hparts, rfl, htaken, hwrites, hsame, fun x hx => ?_,
    hapart, rfl, rfl, rfl, ⟨rfl, rfl⟩, rfl⟩, rfl, rfl, rfl, rfl, rfl⟩
  obtain ⟨hi, heq⟩ := hmem hx
  refine ⟨?_, (hitems x.2 hi).2⟩
  have hx' := hentry hi
  rw [← heq] at hx'
  rw [← hx']
  exact congrArg s.buf.cacheItemsMap (congrArg fst heq)

theorem Sound.none_of_need {threshold : ℤ} (hneed : s.CheckIfNeedBgFlush threshold) (f : ℕ) : s.flushReq f = none := by
  obtain ⟨hbg, hfg, -, -⟩ := hneed
  cases hr : s.flushReq f with
  | none => rfl
  | some r =>
    exfalso
    cases hk : r.fsReq with
    | none =>
      have hsent := h.bg.2 ⟨f, r, hr, hk⟩
      rw [hbg] at hsent
      cases hsent
    | some k =>
      have hmem := (mem_fgFlushes fun f r hr => (h.underway f r hr).bound).2 ⟨r, k, hr, hk⟩
      have hpos := Finset.card_pos.2 ⟨f, hmem⟩
      have hfg' := h.fg
      omega

theorem Sound.checkAndFlushDirty_cases {n : ℕ} {threshold : ℤ} {items : List (ℕ × ℕ)}
    (hneed : s.CheckIfNeedBgFlush threshold) (hitems : s.IsDirtyChoice n items)
      (hs : s.checkAndFlushDirty (items.map snd) = some s') :
    s' = { s with nextFlushReq := s.nextFlushReq + 1 } ∨ ∃ r taken, Starts held s r taken s' := by
  obtain ⟨hnd, hin, -⟩ := hitems
  have hdirty (i : ℕ) (hi : i ∈ items.map snd) : i ∈ listed s.buf ∧ (s.buf.item i).isDirty = true := by
    obtain ⟨x, hx, rfl⟩ := List.mem_map.1 hi
    obtain ⟨hl, hd, -⟩ := (h.repr.dirty x.1 x.2).1 (hin x hx)
    exact ⟨hl, hd⟩
  unfold Flush.checkAndFlushDirty at hs
  dsimp only at hs
  generalize hbuf : ({ s.buf with bgFlushSent := s.buf.bgFlushSent || !(items.map snd).isEmpty } : BlockBuffer) =
    buf at hs
  have hrepr : Repr held buf := by
    rw [← hbuf]
    exact h.repr.setFlush _ _
  have hitem : buf.item = s.buf.item := by rw [← hbuf]
  rw [initFlushReqs_spec (s := s.setBuf buf) hrepr hnd (by rw [← hbuf]; exact hdirty) (fun _ _ => rfl)] at hs
  change some (((s.setBuf buf).newFlush none ((items.map snd).map fun i => ((buf.item i).blockNo, i))).1) =
    some s' at hs
  rw [hitem] at hs
  by_cases hne : items.map snd = []
  · refine .inl ?_
    rw [hne] at hs hbuf
    cases hs
    have hsame : buf = s.buf := by
      rw [← hbuf]
      simp
    rw [hsame]
    rfl
  · refine .inr ?_
    obtain ⟨r, taken, s1, hnew, hmade, ho, -, hb, hfsync, hwait⟩ := h.newFlush_made hne hnd hdirty
      (fun f r hr => by rw [h.none_of_need hneed f] at hr; cases hr) none buf
    rw [hnew] at hs
    cases hs
    refine ⟨r, taken, hmade, hb ▸ hrepr, ?_, ?_, .inl ⟨ho, hfsync, hwait, ?_, ?_, fun f r' hr' => ?_⟩⟩
    · rw [hb, ← hbuf]
    · rw [hb, ← hbuf]
    · rw [hb, ← hbuf]
    · have hsome : (items.map snd).isEmpty = false := by
        rw [← Bool.not_eq_true, List.isEmpty_iff]
        exact hne
      rw [hb, ← hbuf, hsome]
      simp
    · rw [h.none_of_need hneed f] at hr'
      cases hr'

theorem Sound.processFdataSync_cases {k ino : ℕ} (hreq : s.fsync k = some ⟨ino, .dataBio⟩)
    (hitems : s.IsDirtyOrder ino items)
    (hfree : ino ∉ s.waitForFlushIndexes → ∀ f r, s.flushReq f = some r → r.fsReq = none → ∀ i ∈ items,
      (s.buf.item i).blockNo ∉ blocksOf r)
    (hs : s.processFdataSync k ⟨ino, .dataBio⟩ items = some s') :
    (kNumFgFlushLimit ≤ s.buf.numFgFlushInflight ∧
      s' = { s with waitForFlushIndexes := insert ino s.waitForFlushIndexes }) ∨
      s' = s ∨ s' = s.setFsync k ⟨ino, .dataSyncDone⟩ ∨ ∃ r taken, Starts held s r taken s' := by
  obtain ⟨hnd, hset⟩ := hitems
  have hdirty (i : ℕ) (hi : i ∈ items) : i ∈ listed s.buf ∧ (s.buf.item i).isDirty = true ∧
    (s.buf.item i).itemIndex = ino := by
    refine (h.repr.dirty ino i).1 ?_
    rw [← hset, List.mem_toFinset]
    exact hi
  obtain ⟨x, hx, rfl⟩ := map_eq_some_iff.1 hs
  unfold Flush.flushInodeData at hx
  split_ifs at hx with hlimit hwait hclean
  · cases hx
    exact .inl ⟨hlimit, rfl⟩
  · cases hx
    exact .inr (.inl rfl)
  · rw [initFlushReqs_spec h.repr hnd (fun i hi => ⟨(hdirty i hi).1, (hdirty i hi).2.1⟩) (fun _ _ => rfl),
      map_some, nil_append] at hx
    dsimp only at hx
    by_cases hne : items = []
    · subst hne
      cases hx
      exact .inr (.inr (.inl rfl))
    · rw [if_neg (by simpa using hne)] at hx
      -- a request of an fsync is of another inode, for this one is not waited for
      have hapart (f : ℕ) (r : BufferFlushReq) (hr : s.flushReq f = some r) (i : ℕ) (hi : i ∈ items) :
        (s.buf.item i).blockNo ∉ blocksOf r := by
        cases hk : r.fsReq with
        | none => exact hfree hwait f r hr hk i hi
        | some k' =>
          intro hin
          have hu := h.underway f r hr
          obtain ⟨ino', -, hwait', hidx⟩ := hu.fsync k' hk
          obtain ⟨j, hj, hm, -⟩ := hu.entry hin
          rw [(h.repr.inverse _ _).2 ⟨h.repr.entry (hdirty i hi).1, rfl⟩] at hm
          cases hm
          have heq := hidx _ hj
          rw [(hdirty i hi).2.2] at heq
          exact hwait (heq ▸ hwait')
      obtain ⟨r, taken, s1, hnew, hmade, ho, hlist, hb, hfsync, hw⟩ := h.newFlush_made hne hnd
        (fun i hi => ⟨(hdirty i hi).1, (hdirty i hi).2.1⟩) hapart (some k)
        { s.buf with numFgFlushInflight := s.buf.numFgFlushInflight + 1 }
      rw [hnew] at hx
      have hpos : taken.length ≠ 0 := by
        rw [Ne, length_eq_zero_iff]
        exact hmade.nonempty
      rw [if_neg hpos] at hx
      cases hx
      have hnum : (0 : ℤ) < taken.length := by omega
      refine .inr (.inr (.inr ⟨r, taken, ?_⟩))
      rw [if_pos rfl, if_pos hnum]
      refine { hmade with repr := ?_, item := ?_, map := ?_, kind := .inr ⟨k, ino, ho, hreq, hwait, ?_, ?_, ?_, ?_, ?_⟩ }
      · change Repr held s1.buf
        rw [hb]
        exact h.repr.setFlush _ _
      · change s1.buf.item = _
        rw [hb]
      · change s1.buf.cacheItemsMap = _
        rw [hb]
      · change update s1.fsync k _ = _
        rw [hfsync]
      · change insert ino s1.waitForFlushIndexes = _
        rw [hw]
      · change s1.buf.numFgFlushInflight = _
        rw [hb]
      · change s1.buf.bgFlushSent = _
        rw [hb]
      · intro x hx
        rw [hlist] at hx
        obtain ⟨i, hi, rfl⟩ := List.mem_map.1 hx
        exact (hdirty i hi).2.2

end

/-! ## A write that completes -/

section

variable {s s' : Flush α} {f b : ℕ} {r : BufferFlushReq}

theorem Sound.free_of_rest (h : Sound held s) (hr : s.flushReq f = some r) {n : ℕ} (hn : n ∈ r.toSubmitFlushBlocks) :
    s.blockFlushReqMap n = none := by
  obtain ⟨hblock, hsub⟩ := (h.underway f r hr).rest.2 n hn
  cases hm : s.blockFlushReqMap n with
  | none => rfl
  | some f' =>
    obtain ⟨r', hr', hin⟩ := h.owner n f' hm
    obtain rfl := h.apart f r f' r' n hr hr' hblock ((h.underway f' r' hr').submitted.2 n hin)
    rw [hr] at hr'
    cases hr'
    exact absurd hin hsub

theorem Sound.blockReqFinished (h : Sound held s) (hr : s.flushReq f = some r) {s₀ : Flush α}
    (hs₀ : s₀.blockFlushReqMap = s.blockFlushReqMap) :
    ∃ started rest bfm infl, s₀.blockReqFinished f b r = some
      ({ s₀ with blockFlushReqMap := bfm, inflight := infl }, { r with
          toSubmitFlushBlocks := rest
          submittedFlushBlocks := r.submittedFlushBlocks.erase b ∪ started.toFinset }) ∧
      r.toSubmitFlushBlocks = started ++ rest ∧ (started = [] → rest = []) ∧
      (∀ b' ∈ started, bfm b' = some f ∧ ∃ item, (b', item) ∈ r.flushBlockReqMap ∧ infl b' = some ⟨item, none⟩) ∧
      ∀ b', b' ∉ started → bfm b' = s₀.blockFlushReqMap b' ∧ infl b' = s₀.inflight b' := by
  unfold Flush.blockReqFinished
  cases ht : r.toSubmitFlushBlocks with
  | nil =>
    refine ⟨[], [], s₀.blockFlushReqMap, s₀.inflight, ?_, rfl, fun _ => rfl, by simp, fun _ _ => ⟨rfl, rfl⟩⟩
    rw [toFinset_nil, Finset.union_empty]
  | cons n rest =>
    have hn : n ∈ r.toSubmitFlushBlocks := by rw [ht]; exact mem_cons_self
    have hu := h.underway f r hr
    obtain ⟨item, hitem⟩ := mem_blocksOf.1 (hu.rest.2 n hn).1
    have hsub : s₀.submitAsyncBufFlushWriteDevReq f n item = some { s₀ with
        blockFlushReqMap := update s₀.blockFlushReqMap n (some f)
        inflight := update s₀.inflight n (some ⟨item, none⟩) } := by
      unfold submitAsyncBufFlushWriteDevReq
      rw [hs₀, h.free_of_rest hr hn]
      rfl
    refine ⟨[n], rest, update s₀.blockFlushReqMap n (some f),
      update s₀.inflight n (some ⟨item, none⟩), ?_, rfl, fun h0 => by simp at h0, fun b' hb' => ?_,
      fun b' hb' => ?_⟩
    · dsimp only
      rw [(lookup_eq_some hu.nodup).2 hitem, map_some, hsub, getD_some]
      refine congrArg some (congrArg (Prod.mk _) ?_)
      rw [toFinset_cons, toFinset_nil, Finset.union_comm]
      rfl
    · obtain rfl := mem_singleton.1 hb'
      exact ⟨update_self .., item, hitem, update_self ..⟩
    · rw [mem_singleton] at hb'
      exact ⟨update_of_ne hb' .., update_of_ne hb' ..⟩

theorem flushDoneLoop_spec {buf : BlockBuffer} (hr : Repr held buf) {order : List ℕ} (hnd : order.Nodup)
    (hdirty : ∀ b ∈ order, ∃ i, buf.cacheItemsMap b = some (b, i) ∧ (buf.item i).isDirty = true) :
    ∃ buf', flushDoneLoop order buf = some (buf', 0) ∧ Repr held buf' ∧ buf'.cacheItemsMap = buf.cacheItemsMap ∧
      buf'.bgFlushSent = buf.bgFlushSent ∧ buf'.numFgFlushInflight = buf.numFgFlushInflight ∧
      ∀ b i, buf.cacheItemsMap b = some (b, i) → buf'.item i = if b ∈
        order then { buf.item i with isDirty := false } else buf.item i := by
  induction order generalizing buf with
  | nil => exact ⟨buf, rfl, hr, rfl, rfl, rfl, fun b i _ => by simp⟩
  | cons b order ih =>
    obtain ⟨i, hm, hd⟩ := hdirty b mem_cons_self
    rw [nodup_cons] at hnd
    obtain ⟨-, hlist⟩ := hr.found hm
    have hpos : 0 ≤ buf.dirtyItemNum + -1 := by
      have hmem : i ∈ dirtyItems buf := mem_dirtyItems.2 ⟨hlist, hd⟩
      have hcard := Finset.card_pos.2 ⟨i, hmem⟩
      rw [hr.num]
      omega
    obtain ⟨buf1, hs1, hitem1, hmap1, hbg1, hfg1⟩ : ∃ buf1, buf.flushDoneBlock b (b, i) = some buf1 ∧
        buf1.item = (buf.setDirty i false).item ∧ buf1.cacheItemsMap = buf.cacheItemsMap ∧
        buf1.bgFlushSent = buf.bgFlushSent ∧ buf1.numFgFlushInflight = buf.numFgFlushInflight := by
      unfold BlockBuffer.flushDoneBlock BlockBuffer.adjustDirtyItemNum
      have hneg : ¬ (buf.setDirty i false).dirtyItemNum + -1 < 0 := not_lt.2 hpos
      rw [if_neg hneg]
      refine ⟨_, rfl, rfl, ?_, rfl, rfl⟩
      change update buf.cacheItemsMap b (some (b, i)) = _
      rw [← hm, update_eq_self]
    have hother {b' j} (hb : b' ≠ b) (hm' : buf.cacheItemsMap b' = some (b', j)) : buf1.item j = buf.item j := by
      have hij : j ≠ i := by
        rintro rfl
        exact hb ((hr.blockNo _ _ ((hr.inverse _ _).1 hm').1).symm.trans (hr.blockNo _ _ ((hr.inverse _ _).1 hm).1))
      rw [hitem1]
      exact setItem_item_of_ne _ hij _
    have hself : buf1.item i = { buf.item i with isDirty := false } := by
      rw [hitem1]
      exact setItem_item_self ..
    obtain ⟨buf', hs', hr', hmap', hbg', hfg', hitem'⟩ := ih (hr.flushDoneBlock hm hd hs1) hnd.2 fun b' hb' => by
      obtain ⟨j, hm', hd'⟩ := hdirty b' (mem_cons_of_mem _ hb')
      have hbb : b' ≠ b := by
        rintro rfl
        exact hnd.1 hb'
      rw [hmap1]
      exact ⟨j, hm', by rw [hother hbb hm']; exact hd'⟩
    refine ⟨buf', ?_, hr', hmap'.trans hmap1, hbg'.trans hbg1, hfg'.trans hfg1, fun b' j hm' => ?_⟩
    · rw [flushDoneLoop, hm, bind_some, if_pos hd, hs1, bind_some]
      exact hs'
    · rw [hitem' b' j (by rw [hmap1]; exact hm')]
      by_cases hbb : b' = b
      · subst hbb
        rw [hm] at hm'
        cases hm'
        rw [if_neg hnd.1, if_pos mem_cons_self, hself]
      · rw [hother hbb hm']
        simp [hbb]

/-- The request goes on after a block was written: it has started the next one, if there is one. -/
structure GoesOn (s : Flush α) (f b : ℕ) (r : BufferFlushReq) (v : α) (started rest : List ℕ) (s' : Flush α) :
    Prop where
  parts : r.toSubmitFlushBlocks = started ++ rest
  other : b ∉ started
  nonempty : (r.submittedFlushBlocks.erase b ∪ started.toFinset).Nonempty
  submits : ∀ b' ∈ started, s'.blockFlushReqMap b' = some f ∧
    ∃ item, (b', item) ∈ r.flushBlockReqMap ∧ s'.inflight b' = some ⟨item, none⟩
  same : ∀ b', b' ≠ b → b' ∉ started →
    s'.blockFlushReqMap b' = s.blockFlushReqMap b' ∧ s'.inflight b' = s.inflight b'
  gone : s'.blockFlushReqMap b = none ∧ s'.inflight b = none
  eq : s' = { s with
    dev := update s.dev b v
    blockFlushReqMap := s'.blockFlushReqMap
    inflight := s'.inflight
    flushReq := update s.flushReq f (some { r with
      toSubmitFlushBlocks := rest
      submittedFlushBlocks := r.submittedFlushBlocks.erase b ∪ started.toFinset })
    log := s.log ++ [.written f b] }

/-- The request ends after its last block was written: its blocks are clean, and the fsync is done. -/
structure Ends (held : Finset ℕ) (s : Flush α) (f b : ℕ) (r : BufferFlushReq) (v : α) (s' : Flush α) : Prop where
  last : r.toSubmitFlushBlocks = [] ∧ r.submittedFlushBlocks = {b}
  repr : Repr held s'.buf
  map : s'.buf.cacheItemsMap = s.buf.cacheItemsMap
  item : ∀ b i, s.buf.cacheItemsMap b = some (b, i) →
    s'.buf.item i = if b ∈ blocksOf r then { s.buf.item i with isDirty := false } else s.buf.item i
  kind : r.fsReq = none ∧ s'.buf.bgFlushSent = false ∧ s'.buf.numFgFlushInflight = s.buf.numFgFlushInflight ∧
      s'.fsync = s.fsync ∧ s'.waitForFlushIndexes = s.waitForFlushIndexes ∨
    ∃ k ino, r.fsReq = some k ∧ s.fsync k = some ⟨ino, .dataSyncWait⟩ ∧ s'.buf.bgFlushSent = s.buf.bgFlushSent ∧
      s'.buf.numFgFlushInflight = s.buf.numFgFlushInflight - 1 ∧
      s'.fsync = update s.fsync k (some ⟨ino, .dataSyncDone⟩) ∧
      s'.waitForFlushIndexes = s.waitForFlushIndexes.erase ino
  eq : s' = { s with
    buf := s'.buf
    fsync := s'.fsync
    waitForFlushIndexes := s'.waitForFlushIndexes
    dev := update s.dev b v
    inflight := update s.inflight b none
    blockFlushReqMap := update s.blockFlushReqMap b none
    flushReq := update s.flushReq f none
    log := s.log ++ [.written f b] ++ [.finished f] }

theorem Sound.doFlushDone (h : Sound held s) (hr : s.flushReq f = some r) {order : List ℕ}
    (hperm : order.Perm (blocksOf r)) :
    ∃ buf', s.buf.doFlushDone order = some (buf', 0) ∧ Repr held buf' ∧ buf'.cacheItemsMap = s.buf.cacheItemsMap ∧
      buf'.bgFlushSent = s.buf.bgFlushSent ∧ buf'.numFgFlushInflight = s.buf.numFgFlushInflight ∧ ∀ b i,
        s.buf.cacheItemsMap b = some (b, i) →
        buf'.item i = if b ∈ blocksOf r then { s.buf.item i with isDirty := false } else s.buf.item i := by
  have hu := h.underway f r hr
  obtain ⟨buf', hloop, hrepr, hmap, hbg, hfg, hitem⟩ := flushDoneLoop_spec h.repr (hperm.nodup_iff.2 hu.nodup)
    fun b hb => by
      obtain ⟨i, -, hi⟩ := hu.entry (hperm.mem_iff.1 hb)
      exact ⟨i, hi⟩
  have hsent : s.buf.bgFlushSent = true ∨ 0 < s.buf.numFgFlushInflight := by
    cases hk : r.fsReq with
    | none => exact .inl (h.bg.2 ⟨f, r, hr, hk⟩)
    | some k =>
      refine .inr ?_
      have hmem := (mem_fgFlushes fun f r hr => (h.underway f r hr).bound).2 ⟨r, k, hr, hk⟩
      have hpos := Finset.card_pos.2 ⟨f, hmem⟩
      rw [h.fg]
      omega
  refine ⟨buf', ?_, hrepr, hmap, hbg, hfg, fun b i hm => ?_⟩
  · unfold BlockBuffer.doFlushDone
    rw [if_pos hsent]
    exact hloop
  · rw [hitem b i hm]
    exact if_congr hperm.mem_iff rfl rfl

/-- The last write of a request has completed: its blocks are clean, and the fsync that waits for it
goes on. -/
theorem Sound.flushDonePropagate (h : Sound held s) {f : ℕ} {r : BufferFlushReq} {order : List ℕ} (v : α)
    (sub : Finset ℕ) (hr : s.flushReq f = some r) (hperm : order.Perm (blocksOf r))
    (hrest : r.toSubmitFlushBlocks = []) (hone : r.submittedFlushBlocks = {b}) :
    ∃ s', Ends held s f b r v s' ∧ (({ s with
        dev := update s.dev b v
        inflight := update s.inflight b none
        log := s.log ++ [FlushEvent.written f b] : Flush α }.flushDonePropagate
          { r with toSubmitFlushBlocks := [], submittedFlushBlocks := sub } order).map fun t : Flush α =>
            { t with
              flushReq := update t.flushReq f none
              log := t.log ++ [FlushEvent.finished f] }).map (fun t : Flush α =>
          { t with blockFlushReqMap := update t.blockFlushReqMap b none }) = some s' := by
  obtain ⟨buf1, hflush, hrepr, hmap, hbg, hfg, hitem⟩ := h.doFlushDone hr hperm
  unfold Flush.flushDonePropagate
  dsimp only
  rw [hflush, bind_some]
  cases hk : r.fsReq with
  | none =>
    refine ⟨_, ?_, rfl⟩
    exact ⟨⟨hrest, hone⟩, hrepr.setFlush _ _, hmap, hitem, .inl ⟨hk, rfl, hfg, rfl, rfl⟩, rfl⟩
  | some k =>
    obtain ⟨ino, hreq, -, -⟩ := (h.underway f r hr).fsync k hk
    change ∃ s', _ ∧ Option.map _ (Option.map _ (Option.map _ (s.fsync k))) = _
    rw [hreq]
    refine ⟨_, ?_, rfl⟩
    refine ⟨⟨hrest, hone⟩, hrepr.setFlush _ _, hmap, hitem, .inr ⟨k, ino, hk, hreq, hbg, ?_, rfl, rfl⟩, rfl⟩
    exact congrArg (· - 1) hfg

theorem Sound.complete_cases (h : Sound held s) {w : FlushWrite α} {v : α} (hw : s.inflight b = some w)
    (hv : w.content = some v) :
    ∃ f r, s.blockFlushReqMap b = some f ∧ s.flushReq f = some r ∧ b ∈ r.submittedFlushBlocks ∧
      ((∃ started rest s', GoesOn s f b r v started rest s' ∧ ∀ order, s.complete b order = some s') ∨
        ∀ order, (order.Perm (blocksOf r) → ∃ s', Ends held s f b r v s' ∧ s.complete b order = some s') ∧
          (¬ order.Perm (blocksOf r) → s.complete b order = none)) := by
  obtain ⟨f, hf⟩ : ∃ f, s.blockFlushReqMap b = some f := by
    cases hm : s.blockFlushReqMap b with
    | none =>
      rw [h.inflight b hm] at hw
      cases hw
    | some f => exact ⟨f, rfl⟩
  obtain ⟨r, hr, hb⟩ := h.owner b f hf
  refine ⟨f, r, hf, hr, hb, ?_⟩
  have hu := h.underway f r hr
  obtain ⟨s0, hs0⟩ : ∃ s0 : Flush α, s0 = { s with
    dev := update s.dev b v
    inflight := update s.inflight b none
    log := s.log ++ [.written f b] } := ⟨_, rfl⟩
  have hcomplete (order : List ℕ) : s.complete b order = s0.submitBlkFlushWriteReqCompletion f b r order := by
    unfold Flush.complete
    rw [hw, bind_some, hv, bind_some, hf, bind_some, hr, bind_some, hs0]
  have hmap : s0.blockFlushReqMap = s.blockFlushReqMap := by rw [hs0]
  obtain ⟨started, rest, bfm, infl, hfin, hrest, hlast, hstarted, hother⟩ := h.blockReqFinished (b := b) hr hmap
  have hbs : b ∉ started := fun hin =>
    (hu.rest.2 b (by rw [hrest]; exact mem_append_left _ hin)).2 hb
  by_cases hdone : r.submittedFlushBlocks.erase b ∪ started.toFinset = ∅ ∧ rest = []
  · refine .inr fun order => ?_
    have hstep : s.complete b order = ((if order.Perm (blocksOf r) then
        ({ s0 with blockFlushReqMap := bfm, inflight := infl }.flushDonePropagate { r with
          toSubmitFlushBlocks := rest
          submittedFlushBlocks := r.submittedFlushBlocks.erase b ∪ started.toFinset } order).map fun t : Flush α =>
            { t with
              flushReq := update t.flushReq f none
              log := t.log ++ [FlushEvent.finished f] }
        else none).map fun t : Flush α =>
          { t with blockFlushReqMap := update t.blockFlushReqMap b none }) := by
      rw [hcomplete]
      unfold Flush.submitBlkFlushWriteReqCompletion
      rw [hfin, bind_some]
      exact congrArg (Option.map _) (if_pos hdone)
    constructor
    · intro hperm
      rw [hstep, if_pos hperm]
      obtain ⟨hsub, rfl⟩ := hdone
      rw [Finset.union_eq_empty, toFinset_eq_empty_iff] at hsub
      obtain ⟨herase, rfl⟩ := hsub
      have hone : r.submittedFlushBlocks = {b} := by
        rw [← Finset.insert_erase hb, herase]
        rfl
      have hbfm : bfm = s.blockFlushReqMap := by
        funext b'
        rw [(hother b' not_mem_nil).1, hs0]
      have hinfl : infl = update s.inflight b none := by
        funext b'
        rw [(hother b' not_mem_nil).2, hs0]
      subst hbfm hinfl
      rw [hs0]
      exact h.flushDonePropagate v _ hr hperm hrest hone
    · intro hno
      rw [hstep, if_neg hno]
      rfl
  · have hne : (r.submittedFlushBlocks.erase b ∪ started.toFinset).Nonempty := by
      rw [Finset.nonempty_iff_ne_empty]
      intro hempty
      refine hdone ⟨hempty, hlast ?_⟩
      rw [Finset.union_eq_empty, toFinset_eq_empty_iff] at hempty
      exact hempty.2
    refine .inl ⟨started, rest, { s with
      dev := update s.dev b v
      blockFlushReqMap := update bfm b none
      inflight := infl
      flushReq := update s.flushReq f (some { r with
        toSubmitFlushBlocks := rest
        submittedFlushBlocks := r.submittedFlushBlocks.erase b ∪ started.toFinset })
      log := s.log ++ [.written f b] }, ⟨hrest, hbs, hne, fun b' hb' => ?_, fun b' hbb hb' => ?_, ⟨?_, ?_⟩, rfl⟩,
      fun order => ?_⟩
    · have hbb : b' ≠ b := by
        rintro rfl
        exact hbs hb'
      dsimp only
      rw [update_of_ne hbb]
      exact hstarted b' hb'
    · dsimp only
      rw [update_of_ne hbb, (hother b' hb').1, (hother b' hb').2, hs0]
      exact ⟨rfl, update_of_ne hbb ..⟩
    · exact update_self ..
    · dsimp only
      rw [(hother b hbs).2, hs0]
      exact update_self ..
    · rw [hcomplete]
      unfold Flush.submitBlkFlushWriteReqCompletion
      rw [hfin, bind_some]
      refine (congrArg (Option.map _) (if_neg hdone)).trans ?_
      rw [hs0]
      rfl

end

end Ufs.Proof.Buffer
