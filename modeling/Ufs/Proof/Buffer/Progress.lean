import Mathlib.Algebra.Order.BigOperators.Group.Finset
import Ufs.Proof.Buffer.Flush

/-!
# Flush requests make progress and are counted

In every run whose steps are `Orderly`, and in which no fsync flushes while as many as the limit are
doing so (`BelowLimit`), each unfinished request has a write in flight, it ends once, after each
block that it lists was written by it once, and the counts of the buffer are those of the unfinished
requests (`flush_accounted`). `flush_stuck` shows that both conditions are needed.
-/

namespace Ufs.Proof.Buffer

open Impl Impl.BlockBuffer Impl.Flush
open Function (update update_of_ne update_self)
open List Option

variable {α : Type} {held : Finset ℕ} {s s' : Flush α} {f b : ℕ} {r : BufferFlushReq} {v : α} {l : Flush.Label α}

variable {started rest : List ℕ}

/-! ## A write that completes -/

theorem GoesOn.flushReq_self (hg : GoesOn s f b r v started rest s') : s'.flushReq f = some { r with
      toSubmitFlushBlocks := rest
      submittedFlushBlocks := r.submittedFlushBlocks.erase b ∪ started.toFinset } := by
  rw [hg.eq]
  exact update_self ..

theorem GoesOn.flushReq_of_ne (hg : GoesOn s f b r v started rest s') {f' : ℕ} (hf : f' ≠ f) :
    s'.flushReq f' = s.flushReq f' := by
  rw [hg.eq]
  exact update_of_ne hf ..

section

variable (h : Sound held s) (hr : s.flushReq f = some r) (hb : b ∈ r.submittedFlushBlocks)

include h hr hb

theorem Sound.goesOn (hg : GoesOn s f b r v started rest s') : Sound held s' := by
  have hu := h.underway f r hr
  have hbuf : s'.buf = s.buf := by rw [hg.eq]
  have hfsync : s'.fsync = s.fsync := by rw [hg.eq]
  have hwait : s'.waitForFlushIndexes = s.waitForFlushIndexes := by rw [hg.eq]
  have hrest := hu.rest
  rw [hg.parts, nodup_append] at hrest
  obtain ⟨⟨-, hrestNodup, hdisj⟩, hrestMem⟩ := hrest
  refine h.setReq (hbuf ▸ h.repr) (congrArg flushReq hg.eq) (by rw [hg.eq]) ?_ ?_ (fun f' r' _ hr' e he => ?_)
    (fun b' => ?_)
    (fun f' r' k ino _ _ _ hq hin => ?_) ?_ ?_ (fun k hk => ?_) ?_ ?_
  · rintro _ ⟨⟩
    refine ⟨?_, hu.nodup, fun x hx => ?_, ⟨hrestNodup, fun b' hb' => ?_⟩, ⟨hg.nonempty, fun b' hb' => ?_⟩,
      fun b' hb' => ?_, fun k hk => ?_⟩
    · rw [hg.eq]
      exact hu.bound
    · rw [hbuf]
      exact hu.dirty x hx
    · obtain ⟨hin, hnot⟩ := hrestMem b' (mem_append_right _ hb')
      refine ⟨hin, fun hx => ?_⟩
      rcases Finset.mem_union.1 hx with hx | hx
      · exact hnot (Finset.mem_of_mem_erase hx)
      · exact hdisj b' (List.mem_toFinset.1 hx) b' hb' rfl
    · rcases Finset.mem_union.1 hb' with hx | hx
      · exact hu.submitted.2 b' (Finset.mem_of_mem_erase hx)
      · exact (hrestMem b' (mem_append_left _ (List.mem_toFinset.1 hx))).1
    · by_cases hin : b' ∈ started
      · obtain ⟨hmap, item, hitem, hinfl⟩ := hg.submits b' hin
        exact ⟨hmap, _, hinfl, hitem⟩
      · have hx : b' ∈ r.submittedFlushBlocks.erase b := by simpa [hin] using hb'
        obtain ⟨hne, hx⟩ := Finset.mem_erase.1 hx
        obtain ⟨hmap, hinfl⟩ := hg.same b' hne hin
        rw [hmap, hinfl]
        exact hu.writes b' hx
    · rw [hfsync, hwait, hbuf]
      exact hu.fsync k hk
  · rintro _ ⟨⟩ f' r' hf hr' b' hb hb'
    exact hf (h.apart f' r' f r b' hr' hr hb' hb)
  · rw [hbuf]
    exact ⟨rfl, ((h.underway f' r' hr').dirty e he).2, rfl⟩
  · by_cases hin : b' ∈ started
    · exact .inl ⟨(hg.submits b' hin).1, _, rfl, Finset.mem_union_right _ (List.mem_toFinset.2 hin)⟩
    · rcases eq_or_ne b' b with rfl | hne
      · exact .inr (.inl ⟨(hu.writes b' hb).1, hg.gone⟩)
      · obtain ⟨hmap, hinfl⟩ := hg.same b' hne hin
        by_cases hown : s.blockFlushReqMap b' = some f
        · obtain ⟨r', hr', hx⟩ := h.owner b' f hown
          cases hr.symm.trans hr'
          exact .inl ⟨hmap.trans hown, _, rfl, Finset.mem_union_left _ (Finset.mem_erase.2 ⟨hne, hx⟩)⟩
        · exact .inr (.inr ⟨hown, hmap, hinfl⟩)
  · rw [hfsync, hwait]
    exact ⟨hq, hin⟩
  · rintro _ k ino ⟨⟩ hk hq f' r' k' hf hr' hk' hq'
    rw [hfsync] at hq
    exact hf (h.oneFsync f' r' f r k' k ino hr' hr hk' hk hq' hq)
  · rintro _ ⟨⟩ hn f' r' hf hr' hn'
    exact hf (h.oneBg f' r' f r hr' hr hn' hn)
  · rw [hg.eq] at hk ⊢
    exact h.fsyncBound k hk
  · rw [hbuf, hr]
    rfl
  · rw [hbuf]
    cases hk : r.fsReq with
    | none => simpa [hk] using h.bg.2 ⟨f, r, hr, hk⟩
    | some k => simp [hk, hr]

theorem Sound.ends (he : Ends held s f b r v s') : Sound held s' := by
  have hu := h.underway f r hr
  have hnone {r' : BufferFlushReq} (hx : none = some r') {p : Prop} : p := nomatch hx
  refine h.setReq (x := none) he.repr (congrArg flushReq he.eq) (by rw [he.eq]) (fun _ hx => hnone hx)
    (fun _ hx => hnone hx)
    (fun f' r' hf hr' e hin => ?_) (fun b' => ?_) (fun f' r' k ino hf hr' hk hq hin => ?_) (fun _ _ _ hx => hnone hx)
    (fun _ hx => hnone hx) (fun k hk => ?_) ?_ ?_
  · obtain ⟨hm, hd⟩ := (h.underway f' r' hr').dirty e hin
    have hno : e.1 ∉ blocksOf r := fun hb => hf (h.apart f' r' f r e.1 hr' hr (mem_blocksOf.2 ⟨e.2, hin⟩) hb)
    rw [he.map, he.item e.1 e.2 hm, if_neg hno]
    exact ⟨rfl, hd, rfl⟩
  · refine .inr ?_
    rcases eq_or_ne b' b with rfl | hne
    · refine .inl ⟨(hu.writes b' hb).1, ?_⟩
      rw [he.eq]
      exact ⟨update_self .., update_self ..⟩
    · refine .inr ⟨fun hown => ?_, ?_⟩
      · obtain ⟨r', hr', hx⟩ := h.owner b' f hown
        cases hr.symm.trans hr'
        rw [he.last.2, Finset.mem_singleton] at hx
        exact hne hx
      · rw [he.eq]
        exact ⟨update_of_ne hne .., update_of_ne hne ..⟩
  · -- the fsync of another request is of another inode
    rcases he.kind with ⟨-, -, -, hs, hw⟩ | ⟨k0, ino0, hk0, hq0, -, -, hs, hw⟩
    · rw [hs, hw]
      exact ⟨hq, hin⟩
    · have hino : ino ≠ ino0 := by
        rintro rfl
        exact hf (h.oneFsync f' r' f r k k0 ino hr' hr hk hk0 hq hq0)
      have hkk : k ≠ k0 := by
        rintro rfl
        cases hq.symm.trans hq0
        exact hino rfl
      rw [hs, hw, update_of_ne hkk]
      exact ⟨hq, Finset.mem_erase.2 ⟨hino, hin⟩⟩
  · have hk' := h.fsyncBound k (by rw [he.eq] at hk; exact hk)
    rcases he.kind with ⟨-, -, -, hs, -⟩ | ⟨k0, ino0, -, hq0, -, -, hs, -⟩
    · rw [hs]
      exact hk'
    · have hkk : k ≠ k0 := by
        rintro rfl
        cases hk'.symm.trans hq0
      rw [hs, update_of_ne hkk]
      exact hk'
  · rcases he.kind with ⟨hn, -, hfg, -⟩ | ⟨k, ino, hk, -, -, hfg, -⟩
    · simp [hr, hn, hfg]
    · simp [hr, hk, hfg]
  · rcases he.kind with ⟨hn, hbg, -⟩ | ⟨k, ino, hk, -, hbg, -⟩
    · simp [hr, hn, hbg]
    · simp [hr, hk, hbg]

end

/-! ## Steps -/

/-- An fsync flushes only while fewer than the limit do. -/
def BelowLimit : Flush.Label α → Flush α → Prop
  | .processFdataSync _ _, s => s.buf.numFgFlushInflight < kNumFgFlushLimit
  | _, _ => True

/-- A step that neither lists, writes nor finishes anything for a flush request, and leaves an fsync
that waits for its data where it is. -/
structure Quiet (l : Flush.Label α) (s s' : Flush α) : Prop where
  flushReq : s'.flushReq = s.flushReq
  next : s.nextFlushReq ≤ s'.nextFlushReq
  log : s'.log = s.log
  wait : BelowLimit l s → s'.waitForFlushIndexes = s.waitForFlushIndexes
  fsync : ∀ k ino, s.fsync k = some ⟨ino, .dataSyncWait⟩ → s'.fsync k = some ⟨ino, .dataSyncWait⟩

theorem Sound.changeBuf (h : Sound held s) {buf : BlockBuffer} (data : ℕ → α) (hrepr : Repr held buf)
    (hdirty : ∀ b i, s.buf.cacheItemsMap b = some (b, i) → (s.buf.item i).isDirty = true →
      buf.cacheItemsMap b = some (b, i) ∧ (buf.item i).isDirty = true ∧
        (buf.item i).itemIndex = (s.buf.item i).itemIndex)
    (hfg : buf.numFgFlushInflight = s.buf.numFgFlushInflight) (hbg : buf.bgFlushSent = s.buf.bgFlushSent) :
    Quiet l s { s with buf := buf, data := data } ∧ Sound held { s with buf := buf, data := data } :=
  ⟨⟨rfl, le_rfl, rfl, fun _ => rfl, fun _ _ hq => hq⟩,
    h.change hrepr hdirty rfl le_rfl rfl (fun _ w hw => ⟨w, hw, rfl⟩) (fun _ hb => hb) (fun _ hi => hi)
      (fun _ _ hq => hq) h.fsyncBound hfg hbg⟩

theorem Sound.changeItem (h : Sound held s) (data : ℕ → α) {i : ℕ} {x : BlockBufferItem}
    (hd : x.isDirty = (s.buf.item i).isDirty)
    (hk : x.itemIndex = (s.buf.item i).itemIndex) (hrepr : Repr held (s.buf.setItem i x)) :
    Quiet l s { s with buf := s.buf.setItem i x, data := data } ∧
      Sound held { s with buf := s.buf.setItem i x, data := data } := by
  refine h.changeBuf data hrepr (fun b j hm hdj => ⟨hm, ?_⟩) rfl rfl
  by_cases hj : j = i
  · subst hj
    rw [setItem_item_self, hd, hk]
    exact ⟨hdj, rfl⟩
  · rw [setItem_item_of_ne _ hj]
    exact ⟨hdj, rfl⟩

theorem Sound.unchanged (h : Sound held s) : Quiet l s s ∧ Sound held s :=
  ⟨⟨rfl, le_rfl, rfl, fun _ => rfl, fun _ _ hq => hq⟩, h⟩

theorem Sound.getBlock (h : Sound held s) {b k : ℕ} {buf : BlockBuffer} {g : GotBlock} (ho : Orderly (.getBlock b k) s)
    (hb : s.buf.getBlock b k = some (buf, g)) :
    Quiet l s { s with buf := buf } ∧ Sound held { s with buf := buf } := by
  have hflags : buf.numFgFlushInflight = s.buf.numFgFlushInflight ∧ buf.bgFlushSent = s.buf.bgFlushSent := by
    rcases getBlock_cases h.repr hb with rfl | ⟨i, -, -, -, ⟨hbg, hfg⟩, -⟩
    · exact ⟨rfl, rfl⟩
    · exact ⟨hfg, hbg⟩
  exact h.changeBuf s.data (h.repr.getBlock ho hb) (fun b' i => getBlock_keeps_dirty h.repr ho hb) hflags.1 hflags.2

theorem Sound.writeItem (h : Sound held s) {n i k : ℕ} {v : α} {threshold : ℤ} (ho : Orderly (.writeItem i v k) s)
    (hs : Flush.step n threshold (.writeItem i v k) s = some s') : Quiet l s s' ∧ Sound held s' := by
  obtain ⟨buf, rfl, hrepr, hitem, hmap, hbg, hfg⟩ := writeItem_spec h.repr ho hs
  refine h.changeBuf _ hrepr (fun b j hm hd => ⟨hmap ▸ hm, ?_⟩) hfg hbg
  rw [hitem]
  by_cases hj : j = i
  · subst hj
    rw [update_self]
    exact ⟨rfl, rfl⟩
  · rw [update_of_ne hj]
    exact ⟨hd, rfl⟩

theorem Sound.fsync (h : Sound held s) (ino : ℕ) :
    Quiet l s { s with fsync := update s.fsync s.nextFsync (some ⟨ino, .dataBio⟩), nextFsync := s.nextFsync + 1 } ∧
      Sound held { s with
        fsync := update s.fsync s.nextFsync (some ⟨ino, .dataBio⟩)
        nextFsync := s.nextFsync + 1 } := by
  have hkeep (k ino' : ℕ) (hq : s.fsync k = some ⟨ino', .dataSyncWait⟩) :
      update s.fsync s.nextFsync (some ⟨ino, .dataBio⟩) k = some ⟨ino', .dataSyncWait⟩ := by
    have hne : k ≠ s.nextFsync := by
      rintro rfl
      rw [h.fsyncBound _ le_rfl] at hq
      cases hq
    rw [update_of_ne hne]
    exact hq
  refine ⟨⟨rfl, le_rfl, rfl, fun _ => rfl, hkeep⟩, h.change h.repr
    (fun b i hm hd => ⟨hm, hd, rfl⟩) rfl le_rfl rfl
    (fun _ w hw => ⟨w, hw, rfl⟩) (fun _ hb => hb) (fun _ hi => hi) hkeep (fun k hk => ?_) rfl rfl⟩
  have hlt : s.nextFsync + 1 ≤ k := hk
  have hne : k ≠ s.nextFsync := by omega
  exact (update_of_ne hne ..).trans (h.fsyncBound k (by omega))

theorem Sound.waitForFlush (h : Sound held s) (ino : ℕ)
    (hwait : BelowLimit l s → insert ino s.waitForFlushIndexes = s.waitForFlushIndexes) :
    Quiet l s { s with waitForFlushIndexes := insert ino s.waitForFlushIndexes } ∧
      Sound held { s with waitForFlushIndexes := insert ino s.waitForFlushIndexes } :=
  ⟨⟨rfl, le_rfl, rfl, hwait, fun _ _ hq => hq⟩, h.change h.repr (fun _ _ hm hd => ⟨hm, hd, rfl⟩)
    rfl le_rfl rfl (fun _ w hw => ⟨w, hw, rfl⟩) (fun _ hb => hb) (fun _ hi => Finset.mem_insert_of_mem hi)
    (fun _ _ hq => hq) h.fsyncBound rfl rfl⟩

theorem Sound.dataSyncDone (h : Sound held s) {k ino : ℕ} (hreq : s.fsync k = some ⟨ino, .dataBio⟩) :
    Quiet l s { s with fsync := update s.fsync k (some ⟨ino, .dataSyncDone⟩) } ∧
      Sound held { s with fsync := update s.fsync k (some ⟨ino, .dataSyncDone⟩) } := by
  have hkeep (k' ino' : ℕ) (hq : s.fsync k' = some ⟨ino', .dataSyncWait⟩) :
      update s.fsync k (some ⟨ino, .dataSyncDone⟩) k' = some ⟨ino', .dataSyncWait⟩ := by
    have hne : k' ≠ k := by
      rintro rfl
      rw [hreq] at hq
      cases hq
    rw [update_of_ne hne]
    exact hq
  refine ⟨⟨rfl, le_rfl, rfl, fun _ => rfl, hkeep⟩, h.change h.repr
    (fun b i hm hd => ⟨hm, hd, rfl⟩) rfl le_rfl rfl
    (fun _ w hw => ⟨w, hw, rfl⟩) (fun _ hb => hb) (fun _ hi => hi) hkeep (fun k' hk' => ?_) rfl rfl⟩
  have hnone := h.fsyncBound k' hk'
  have hne : k' ≠ k := by
    rintro rfl
    rw [hreq] at hnone
    cases hnone
  exact (update_of_ne hne ..).trans hnone

/-- The device takes the content of a block that is being written. -/
theorem Sound.take (h : Sound held s) {b : ℕ} {w : FlushWrite α} (hw : s.inflight b = some w) :
    Quiet l s { s with inflight := update s.inflight b (some { w with content := some (s.data w.item) }) } ∧
      Sound held { s with inflight := update s.inflight b (some { w with content := some (s.data w.item) }) } := by
  refine ⟨⟨rfl, le_rfl, rfl, fun _ => rfl, fun _ _ hq => hq⟩, h.change h.repr (fun b i hm hd => ⟨hm, hd, rfl⟩) rfl
    le_rfl rfl (fun b' w' hw' => ?_) (fun b' hb' => ?_) (fun _ hi => hi) (fun _ _ hq => hq) h.fsyncBound rfl rfl⟩
  · by_cases hbb : b' = b
    · subst hbb
      rw [hw] at hw'
      cases hw'
      exact ⟨_, update_self .., rfl⟩
    · exact ⟨w', (update_of_ne hbb ..).trans hw', rfl⟩
  · have hbb : b' ≠ b := by
      rintro rfl
      rw [hw] at hb'
      cases hb'
    exact (update_of_ne hbb ..).trans hb'

theorem Sound.complete (h : Sound held s) {n b : ℕ} {threshold : ℤ} {order : List ℕ}
    (hs : Flush.step n threshold (.complete b order) s = some s') : ∃ f r b v, s.flushReq f = some r ∧
      b ∈ r.submittedFlushBlocks ∧
        ((∃ started rest, GoesOn s f b r v started rest s') ∨ Ends held s f b r v s') := by
  simp only [Flush.step] at hs
  obtain ⟨w, hw, hs'⟩ := bind_eq_some_iff.1 hs
  obtain ⟨v, hv, -⟩ := bind_eq_some_iff.1 hs'
  obtain ⟨f, r, -, hr, hb, ⟨started, rest, s1, hg, heq⟩ | hend⟩ := h.complete_cases hw hv
  · rw [heq order] at hs
    cases hs
    exact ⟨f, r, b, v, hr, hb, .inl ⟨started, rest, hg⟩⟩
  · by_cases hperm : order.Perm (blocksOf r)
    · obtain ⟨s1, he, heq⟩ := (hend order).1 hperm
      rw [heq] at hs
      cases hs
      exact ⟨f, r, b, v, hr, hb, .inr he⟩
    · rw [(hend order).2 hperm] at hs
      cases hs

section

variable {n : ℕ} {threshold : ℤ} (h : Sound held s) (ho : Orderly l s) (hs : Flush.step n threshold l s = some s')

include h ho hs

theorem Sound.step_cases :
    (Quiet l s s' ∧ Sound held s') ∨ (∃ r taken, Starts held s r taken s') ∨ ∃ f r b v, s.flushReq f = some r ∧
      b ∈ r.submittedFlushBlocks ∧
        ((∃ started rest, GoesOn s f b r v started rest s') ∨ Ends held s f b r v s') := by
  cases l with
  | getBlock b k =>
    obtain ⟨⟨buf, g⟩, hb, rfl⟩ := map_eq_some_iff.1 hs
    exact .inl (h.getBlock ho hb)
  | fetched i =>
    simp only [Flush.step] at hs
    split_ifs at hs with hlock
    cases hs
    refine .inl ?_
    have hrepr := h.repr.blockFetchedCallback i
    unfold BlockBuffer.blockFetchedCallback at hrepr ⊢
    rw [if_pos hlock.1] at hrepr ⊢
    exact h.changeItem _ rfl rfl hrepr
  | releaseBlock i =>
    cases hs
    refine .inl ?_
    have hrepr := h.repr.releaseBlock i
    unfold BlockBuffer.releaseBlock at hrepr ⊢
    split_ifs at hrepr ⊢ with hlock
    · exact h.changeItem s.data rfl rfl hrepr
    · exact h.unchanged
  | writeItem i v k => exact .inl (h.writeItem ho hs)
  | fsync ino =>
    simp only [Flush.step] at hs
    split_ifs at hs with hino
    cases hs
    exact .inl (h.fsync ino)
  | processFdataSync k items =>
    obtain ⟨req, hreq, hs⟩ := bind_eq_some_iff.1 hs
    split_ifs at hs with hg
    obtain ⟨hbio, hitems⟩ := hg
    obtain ⟨ino, state⟩ := req
    obtain rfl : state = .dataBio := hbio
    rcases h.processFdataSync_cases hreq hitems (ho _ hreq) hs with ⟨hlimit, rfl⟩ | rfl | rfl | hst
    · exact .inl (h.waitForFlush ino fun hlt => absurd hlt (not_lt.2 hlimit))
    · exact .inl h.unchanged
    · exact .inl (h.dataSyncDone hreq)
    · exact .inr (.inl hst)
  | checkAndFlushDirty items =>
    simp only [Flush.step] at hs
    split_ifs at hs with hg
    rcases h.checkAndFlushDirty_cases hg.1 hg.2 hs with rfl | hst
    · exact .inl ⟨⟨rfl, Nat.le_succ _, rfl, fun _ => rfl, fun _ _ hq => hq⟩, h.change h.repr
        (fun b i hm hd => ⟨hm, hd, rfl⟩) rfl (Nat.le_succ _) rfl (fun _ w hw => ⟨w, hw, rfl⟩) (fun _ hb => hb)
        (fun _ hi => hi) (fun _ _ hq => hq) h.fsyncBound rfl rfl⟩
    · exact .inr (.inl hst)
  | take b =>
    obtain ⟨w, hw, rfl⟩ := map_eq_some_iff.1 hs
    exact .inl (h.take hw)
  | complete b order => exact .inr (.inr (h.complete hs))

theorem Sound.step : Sound held s' := by
  rcases h.step_cases ho hs with ⟨-, hsound⟩ | ⟨r, taken, hst⟩ | ⟨f, r, b, v, hr, hb, ⟨started, rest, hg⟩ | he⟩
  · exact hsound
  · exact h.starts hst
  · exact h.goesOn hr hb hg
  · exact h.ends hr hb he

end

theorem sound_init (blockNum : ℕ) (data dev : ℕ → α) : Sound (Finset.range blockNum)
    (Flush.init blockNum data dev) := by
  refine ⟨repr_init blockNum, fun f r hr => ?_, fun b f hb => ?_, fun _ _ => rfl, fun f r f' r' b hr => ?_,
    fun f r f' r' k k' ino hr => ?_, fun f r f' r' hr => ?_, fun _ _ => rfl, rfl, ?_⟩
  · cases hr
  · cases hb
  · cases hr
  · cases hr
  · cases hr
  · constructor
    · intro hx
      cases hx
    · rintro ⟨f, r, hr, -⟩
      cases hr

/-! ## The log -/

/-- The blocks whose write for flush request `f` has completed, in the order of completion. -/
def writtenBy (f : ℕ) (log : List FlushEvent) : List ℕ :=
  log.filterMap fun e =>
    match e with
    | .written f' b => if f' = f then some b else none
    | _ => none

/-- A request lists blocks once; it writes each of them once at most, and ends once at most, when it has written all. -/
def Once (log : List FlushEvent) : FlushEvent → Prop
  | .listed f _ => ∀ blocks, .listed f blocks ∉ log
  | .written f b => .finished f ∉ log ∧ b ∉ writtenBy f log ∧ ∃ blocks, .listed f blocks ∈ log ∧ b ∈ blocks
  | .finished f => .finished f ∉ log ∧ ∃ blocks, .listed f blocks ∈ log ∧ (writtenBy f log).Perm blocks

@[simp] theorem writtenBy_listed (f f' : ℕ) (blocks : List ℕ) (log : List FlushEvent) :
    writtenBy f (log ++ [.listed f' blocks]) = writtenBy f log := by
  simp [writtenBy]

theorem writtenBy_written (f f' b : ℕ) (log : List FlushEvent) :
    writtenBy f (log ++ [.written f' b]) = writtenBy f log ++ if f' = f then [b] else [] := by
  unfold writtenBy
  rw [filterMap_append]
  split_ifs with hf <;> simp [hf]

/-- The log agrees with the flush requests in progress: what each was to write, and which of its
blocks are written. -/
structure Logged (s : Flush α) : Prop where
  underway : ∀ f r, s.flushReq f = some r → .listed f (blocksOf r) ∈ s.log ∧ .finished f ∉ s.log ∧
    (writtenBy f s.log).Nodup ∧
    ∀ b, b ∈ writtenBy f s.log ↔ b ∈ blocksOf r ∧ b ∉ r.toSubmitFlushBlocks ∧ b ∉ r.submittedFlushBlocks
  fresh : ∀ f, s.nextFlushReq ≤ f → writtenBy f s.log = [] ∧ .finished f ∉ s.log ∧ ∀ blocks, .listed f blocks ∉ s.log
  outcome : ∀ f blocks, .listed f blocks ∈ s.log →
    (∃ r, s.flushReq f = some r ∧ blocksOf r = blocks) ∨ .finished f ∈ s.log
  once : Justified Once s.log

section

variable (hl : Logged s) (h : Sound held s)

include hl

theorem Logged.quiet (hq : Quiet l s s') : Logged s' := by
  refine ⟨?_, fun f hf => ?_, ?_, ?_⟩
  · rw [hq.flushReq, hq.log]
    exact hl.underway
  · rw [hq.log]
    exact hl.fresh f (hq.next.trans hf)
  · rw [hq.flushReq, hq.log]
    exact hl.outcome
  · rw [hq.log]
    exact hl.once

/-- One request goes on, and the log with it. -/
theorem Logged.setReq {x : Option BufferFlushReq} {new : List FlushEvent} (hlog : s'.log = s.log ++ new)
    (hreq : s'.flushReq = update s.flushReq f x) (hnext : s.nextFlushReq ≤ s'.nextFlushReq) (hf : f < s'.nextFlushReq)
    (hnew : ∀ f', f' ≠ f → writtenBy f' new = [] ∧ .finished f' ∉ new ∧ ∀ blocks, .listed f' blocks ∉ new)
    (hself : ∀ r, x = some r → .listed f (blocksOf r) ∈ s'.log ∧ .finished f ∉ s'.log ∧ (writtenBy f s'.log).Nodup ∧
      ∀ b, b ∈ writtenBy f s'.log ↔ b ∈ blocksOf r ∧ b ∉ r.toSubmitFlushBlocks ∧ b ∉ r.submittedFlushBlocks)
    (hout : ∀ blocks, .listed f blocks ∈ s'.log → (∃ r, x = some r ∧ blocksOf r = blocks) ∨ .finished f ∈ s'.log)
    (honce : Justified Once s'.log) : Logged s' := by
  have hx : s'.flushReq f = x := by rw [hreq, update_self]
  have hold {f'} (hne : f' ≠ f) : s'.flushReq f' = s.flushReq f' := by rw [hreq, update_of_ne hne]
  have hwritten {f'} (hne : f' ≠ f) : writtenBy f' s'.log = writtenBy f' s.log := by
    rw [hlog, writtenBy, filterMap_append]
    exact (congrArg _ (hnew f' hne).1).trans (append_nil _)
  have hfinished {f'} (hne : f' ≠ f) : .finished f' ∈ s'.log ↔ .finished f' ∈ s.log := by
    rw [hlog, mem_append, or_iff_left (hnew f' hne).2.1]
  have hlisted {f'} (hne : f' ≠ f) (blocks : List ℕ) : .listed f' blocks ∈ s'.log ↔ .listed f' blocks ∈ s.log := by
    rw [hlog, mem_append, or_iff_left ((hnew f' hne).2.2 blocks)]
  refine ⟨fun f' r' hr' => ?_, fun f' hf' => ?_, fun f' blocks hin => ?_, honce⟩
  · rcases eq_or_ne f' f with rfl | hne
    · exact hself r' (hx.symm.trans hr')
    · rw [hold hne] at hr'
      rw [hwritten hne, hfinished hne, hlisted hne]
      exact hl.underway f' r' hr'
  · have hne : f' ≠ f := by omega
    simp only [hwritten hne, hfinished hne, hlisted hne]
    exact hl.fresh f' (hnext.trans hf')
  · rcases eq_or_ne f' f with rfl | hne
    · rw [hx]
      exact hout blocks hin
    · rw [hold hne, hfinished hne]
      exact hl.outcome f' blocks ((hlisted hne blocks).1 hin)

theorem Logged.starts {taken : List ℕ} (hst : Starts held s r taken s') : Logged s' := by
  obtain ⟨hwritten, hfinished, hlisted⟩ := hl.fresh s.nextFlushReq le_rfl
  have hlt : s.nextFlushReq < s'.nextFlushReq := hst.next ▸ Nat.lt_succ_self _
  refine hl.setReq hst.log hst.flushReq hlt.le hlt (fun f' hne => by simp [writtenBy, hne]) ?_ (fun blocks hin => ?_)
    (hst.log ▸ hl.once.concat hlisted)
  · rintro _ ⟨⟩
    rw [hst.log, writtenBy_listed, hwritten]
    refine ⟨by simp, by simpa using hfinished, nodup_nil, fun b => ?_⟩
    rw [hst.parts, hst.submitted]
    simp
    tauto
  · rw [hst.log] at hin
    cases mem_singleton.1 ((mem_append.1 hin).resolve_left (hlisted blocks))
    exact .inl ⟨r, rfl, rfl⟩

include h

variable (hr : s.flushReq f = some r) (hb : b ∈ r.submittedFlushBlocks)

include hr hb

theorem Logged.written_once : Once s.log (.written f b) := by
  obtain ⟨hin, hno, -, hmem⟩ := hl.underway f r hr
  exact ⟨hno, fun hw => ((hmem b).1 hw).2.2 hb, blocksOf r, hin, (h.underway f r hr).submitted.2 b hb⟩

theorem Logged.goesOn (hg : GoesOn s f b r v started rest s') : Logged s' := by
  have hu := h.underway f r hr
  have hlog : s'.log = s.log ++ [.written f b] := by rw [hg.eq]
  have hnext : s'.nextFlushReq = s.nextFlushReq := by rw [hg.eq]
  refine hl.setReq hlog (congrArg flushReq hg.eq) hnext.ge (hnext ▸ hu.bound)
    (fun f' hne => by simp [writtenBy, hne.symm]) ?_
    (fun blocks hin => ?_) (hlog ▸ hl.once.concat (hl.written_once h hr hb))
  · rintro _ ⟨⟩
    obtain ⟨hin, hno, hnd, hmem⟩ := hl.underway f r hr
    rw [hlog, writtenBy_written, if_pos rfl]
    refine ⟨mem_append_left _ hin, by simpa using hno, ?_, fun b' => ?_⟩
    · refine List.Nodup.append hnd (nodup_singleton b) ?_
      rw [disjoint_singleton]
      exact fun hw => ((hmem b).1 hw).2.2 hb
    · have hbs := hg.other
      have hbt := fun hin => (hu.rest.2 b hin).2 hb
      have hbb := hu.submitted.2 b hb
      rw [mem_append, hmem, mem_singleton, Finset.mem_union, Finset.mem_erase, List.mem_toFinset]
      rw [hg.parts, mem_append] at hbt
      change _ ↔ b' ∈ blocksOf r ∧ _
      rw [hg.parts, mem_append]
      by_cases hbb' : b' = b
      · subst hbb'
        simp [hbb, hbs, hb]
        exact fun hin => hbt (.inr hin)
      · simp [hbb']
        tauto
  · rw [hlog] at hin ⊢
    rcases hl.outcome f blocks (by simpa using hin) with ⟨r', hr', hblocks⟩ | hdone
    · cases hr.symm.trans hr'
      exact .inl ⟨_, rfl, hblocks⟩
    · exact .inr (mem_append_left _ hdone)

theorem Logged.ends (he : Ends held s f b r v s') : Logged s' := by
  have hu := h.underway f r hr
  have hlog : s'.log = s.log ++ [.written f b] ++ [.finished f] := by rw [he.eq]
  have hnext : s'.nextFlushReq = s.nextFlushReq := by rw [he.eq]
  refine hl.setReq (hlog.trans (append_assoc ..)) (congrArg flushReq he.eq) hnext.ge (hnext ▸ hu.bound)
    (fun f' hne => by simp [writtenBy, hne, hne.symm]) nofun (fun _ _ => .inr (by simp [hlog])) ?_
  obtain ⟨hin, hno, hnd, hmem⟩ := hl.underway f r hr
  rw [hlog]
  refine (hl.once.concat (hl.written_once h hr hb)).concat ⟨by simpa using hno, blocksOf r, mem_append_left _ hin, ?_⟩
  -- the blocks it has written, with this last one, are those it lists
  have hnb : b ∉ writtenBy f s.log := fun hw => ((hmem b).1 hw).2.2 hb
  rw [writtenBy_written, if_pos rfl]
  refine (perm_ext_iff_of_nodup ?_ hu.nodup).2 fun b' => ?_
  · refine List.Nodup.append hnd (nodup_singleton b) ?_
    rw [disjoint_singleton]
    exact hnb
  · have hbb := hu.submitted.2 b hb
    rw [mem_append, hmem, he.last.1, he.last.2, mem_singleton, Finset.mem_singleton]
    by_cases hbb' : b' = b
    · simp [hbb', hbb]
    · simp [hbb']

end

theorem logged_init (blockNum : ℕ) (data dev : ℕ → α) : Logged (Flush.init blockNum data dev) := by
  refine ⟨fun f r hr => ?_, fun f _ => ⟨rfl, ?_, fun blocks => ?_⟩, fun f blocks hin => ?_, justified_nil⟩
  · cases hr
  · exact not_mem_nil
  · exact not_mem_nil
  · cases hin

/-! ## Inodes that are waited for -/

/-- An inode is waited for only while a request of its fsync is unfinished. -/
def Waited (s : Flush α) : Prop :=
  ∀ ino ∈ s.waitForFlushIndexes, ∃ f r k, s.flushReq f = some r ∧ r.fsReq = some k ∧
    s.fsync k = some ⟨ino, .dataSyncWait⟩

theorem Waited.quiet (hw : Waited s) (hlimit : BelowLimit l s) (hq : Quiet l s s') : Waited s' := by
  intro ino hin
  rw [hq.wait hlimit] at hin
  obtain ⟨f, r, k, hr, hk, hreq⟩ := hw ino hin
  exact ⟨f, r, k, by rw [hq.flushReq]; exact hr, hk, hq.fsync k ino hreq⟩

theorem Waited.starts (hw : Waited s) (h : Sound held s) {taken : List ℕ} (hst : Starts held s r taken s') :
    Waited s' := by
  have hold {f r'} (hr' : s.flushReq f = some r') : s'.flushReq f = some r' := by
    rw [hst.flushReq, update_of_ne (h.underway f r' hr').bound.ne]
    exact hr'
  intro ino hin
  rcases hst.kind with ⟨-, hf, hw', -⟩ | ⟨k0, ino0, hk0, hbio, -, hf, hw', -⟩
  · rw [hw'] at hin
    obtain ⟨f, r', k, hr', hk, hreq⟩ := hw ino hin
    exact ⟨f, r', k, hold hr', hk, by rw [hf]; exact hreq⟩
  · rw [hw', Finset.mem_insert] at hin
    rcases hin with rfl | hin
    · refine ⟨s.nextFlushReq, r, k0, ?_, hk0, ?_⟩
      · rw [hst.flushReq, update_self]
      · rw [hf, update_self]
    · obtain ⟨f, r', k, hr', hk, hreq⟩ := hw ino hin
      have hkk : k ≠ k0 := by
        rintro rfl
        rw [hreq] at hbio
        cases hbio
      exact ⟨f, r', k, hold hr', hk, by rw [hf, update_of_ne hkk]; exact hreq⟩

theorem Waited.goesOn (hw : Waited s) (hr : s.flushReq f = some r) (hg : GoesOn s f b r v started rest s') :
    Waited s' := by
  intro ino hin
  have hwait : s'.waitForFlushIndexes = s.waitForFlushIndexes := by rw [hg.eq]
  have hfsync : s'.fsync = s.fsync := by rw [hg.eq]
  rw [hwait] at hin
  rw [hfsync]
  obtain ⟨f', r', k, hr', hk, hreq⟩ := hw ino hin
  by_cases hf : f' = f
  · subst hf
    rw [hr] at hr'
    cases hr'
    exact ⟨f', _, k, hg.flushReq_self, hk, hreq⟩
  · exact ⟨f', r', k, (hg.flushReq_of_ne hf).trans hr', hk, hreq⟩

theorem Waited.ends (hw : Waited s) (hr : s.flushReq f = some r) (he : Ends held s f b r v s') : Waited s' := by
  have hkeep {f' r'} (hf : f' ≠ f) (hr' : s.flushReq f' = some r') : s'.flushReq f' = some r' := by
    rw [he.eq]
    exact (update_of_ne hf ..).trans hr'
  intro ino hin
  rcases he.kind with ⟨hn, -, -, hf, hw'⟩ | ⟨k0, ino0, hk0, hq0, -, -, hf, hw'⟩
  · rw [hw'] at hin
    obtain ⟨f', r', k, hr', hk, hreq⟩ := hw ino hin
    have hne : f' ≠ f := by
      rintro rfl
      rw [hr] at hr'
      cases hr'
      rw [hn] at hk
      cases hk
    exact ⟨f', r', k, hkeep hne hr', hk, by rw [hf]; exact hreq⟩
  · rw [hw', Finset.mem_erase] at hin
    obtain ⟨f', r', k, hr', hk, hreq⟩ := hw ino hin.2
    have hkk : k ≠ k0 := by
      rintro rfl
      rw [hq0] at hreq
      cases hreq
      exact hin.1 rfl
    have hne : f' ≠ f := by
      rintro rfl
      rw [hr] at hr'
      cases hr'
      rw [hk0] at hk
      cases hk
      exact hkk rfl
    exact ⟨f', r', k, hkeep hne hr', hk, by rw [hf, update_of_ne hkk]; exact hreq⟩

/-! ## Runs -/

/-- All that is kept along a run of the flushes. -/
def Tracked (held : Finset ℕ) (s : Flush α) : Prop := Sound held s ∧ Logged s ∧ Waited s

theorem Tracked.step {n : ℕ} {threshold : ℤ} (h : Tracked held s) (ho : Orderly l s) (hb : BelowLimit l s)
    (hs : Flush.step n threshold l s = some s') : Tracked held s' := by
  obtain ⟨h, hl, hw⟩ := h
  rcases h.step_cases ho hs with ⟨hq, hsound⟩ | ⟨r, taken, hst⟩ | ⟨f, r, b, v, hr, hb, ⟨started, rest, hg⟩ | he⟩
  · exact ⟨hsound, hl.quiet hq, hw.quiet hb hq⟩
  · exact ⟨h.starts hst, hl.starts hst, hw.starts h hst⟩
  · exact ⟨h.goesOn hr hb hg, hl.goesOn h hr hb hg, hw.goesOn hr hg⟩
  · exact ⟨h.ends hr hb he, hl.ends h hr hb he, hw.ends hr he⟩

/-- The blocks of a request whose write has not completed. -/
def remainingOf (r : BufferFlushReq) : ℕ := r.toSubmitFlushBlocks.length + r.submittedFlushBlocks.card

/-- The writes that the device still owes, over all requests. -/
def remaining (s : Flush α) : ℕ := ∑ f ∈ Finset.range s.nextFlushReq, (s.flushReq f).elim 0 remainingOf

theorem remaining_lt (hf : f < s.nextFlushReq) (hnext : s'.nextFlushReq = s.nextFlushReq)
    (hother : ∀ f', f' ≠ f → s'.flushReq f' = s.flushReq f')
    (hlt : (s'.flushReq f).elim 0 remainingOf < (s.flushReq f).elim 0 remainingOf) : remaining s' < remaining s := by
  unfold remaining
  rw [hnext]
  refine Finset.sum_lt_sum (fun f' _ => ?_) ⟨f, Finset.mem_range.2 hf, hlt⟩
  by_cases hff : f' = f
  · rw [hff]
    exact hlt.le
  · rw [hother f' hff]

theorem GoesOn.remaining_lt (h : Sound held s) (hr : s.flushReq f = some r) (hb : b ∈ r.submittedFlushBlocks)
    (hg : GoesOn s f b r v started rest s') : remaining s' < remaining s := by
  refine Buffer.remaining_lt (h.underway f r hr).bound (by rw [hg.eq]) (fun f' hf => ?_) ?_
  · exact hg.flushReq_of_ne hf
  · rw [hg.flushReq_self, hr]
    change rest.length + (r.submittedFlushBlocks.erase b ∪ started.toFinset).card <
      r.toSubmitFlushBlocks.length + r.submittedFlushBlocks.card
    have hunion := Finset.card_union_le (r.submittedFlushBlocks.erase b) started.toFinset
    have hstarted := toFinset_card_le started
    have herase := Finset.card_erase_add_one hb
    rw [hg.parts, length_append]
    omega

theorem Ends.remaining_lt (h : Sound held s) (hr : s.flushReq f = some r) (he : Ends held s f b r v s') :
    remaining s' < remaining s := by
  refine Buffer.remaining_lt (h.underway f r hr).bound (by rw [he.eq]) (fun f' hf => ?_) ?_
  · rw [he.eq]
    exact update_of_ne hf ..
  · have hgone : s'.flushReq f = none := by
      rw [he.eq]
      exact update_self ..
    rw [hgone, hr]
    change 0 < r.toSubmitFlushBlocks.length + r.submittedFlushBlocks.card
    rw [he.last.2]
    simp

/-- Nothing is in flight, and no count, flag or wait keeps a flush from being started. -/
structure Free (s : Flush α) : Prop where
  inflight : ∀ b, s.inflight b = none
  numFg : s.buf.numFgFlushInflight = 0
  bg : s.buf.bgFlushSent = false
  wait : s.waitForFlushIndexes = ∅

theorem Tracked.free (h : Tracked held s) (hnone : ∀ b, s.inflight b = none) : Free s := by
  obtain ⟨h, -, hw⟩ := h
  have hno (f : ℕ) (r : BufferFlushReq) (hr : s.flushReq f = some r) : False := by
    have hu := h.underway f r hr
    obtain ⟨b, hb⟩ := hu.submitted.1
    obtain ⟨-, w, hw, -⟩ := hu.writes b hb
    rw [hnone b] at hw
    cases hw
  refine ⟨hnone, ?_, ?_, ?_⟩
  · have hempty : fgFlushes s = ∅ := by
      rw [Finset.eq_empty_iff_forall_notMem]
      intro f hf
      obtain ⟨r, k, hr, -⟩ := (mem_fgFlushes fun f r hr => (h.underway f r hr).bound).1 hf
      exact hno f r hr
    rw [h.fg, hempty]
    rfl
  · rw [← Bool.not_eq_true, h.bg]
    rintro ⟨f, r, hr, -⟩
    exact hno f r hr
  · rw [Finset.eq_empty_iff_forall_notMem]
    intro ino hin
    obtain ⟨f, r, k, hr, -⟩ := hw ino hin
    exact hno f r hr

/-- The steps that the device takes. -/
def OfDevice : Flush.Label α → Prop
  | .take _ => True
  | .complete _ _ => True
  | _ => False

theorem Tracked.completes (n : ℕ) (threshold : ℤ) (h : Tracked held s) {w : FlushWrite α} (hw : s.inflight b = some w) :
    ∃ order s', run (Flush.step n threshold) [.take b, .complete b order] s = some s' ∧ Tracked held s' ∧
      remaining s' < remaining s := by
  obtain ⟨s1, hs1, hw1, hrem⟩ : ∃ s1, Flush.step n threshold (.take b) s = some s1 ∧
      s1.inflight b = some { w with content := some (s.data w.item) } ∧ remaining s1 = remaining s := by
    have hs1 : Flush.step n threshold (.take b) s = some { s with
        inflight := update s.inflight b (some { w with content := some (s.data w.item) }) } := by
      rw [Flush.step, hw]
      rfl
    exact ⟨_, hs1, update_self .., rfl⟩
  have h1 := h.step (l := .take b) trivial trivial hs1
  have hdone {order : List ℕ} {s' : Flush α} (hc : Flush.step n threshold (.complete b order) s1 = some s') :
      run (Flush.step n threshold) [.take b, .complete b order] s = some s' ∧ Tracked held s' :=
    ⟨run_cons_eq_some.2 ⟨s1, hs1, run_cons_eq_some.2 ⟨s', hc, rfl⟩⟩,
      h1.step (l := .complete b order) trivial trivial hc⟩
  obtain ⟨f, r, -, hr, hb, ⟨started, rest, s', hg, heq⟩ | hend⟩ := h1.1.complete_cases hw1 rfl
  · obtain ⟨hrun, h'⟩ := hdone (heq [])
    refine ⟨[], s', hrun, h', ?_⟩
    rw [← hrem]
    exact hg.remaining_lt h1.1 hr hb
  · obtain ⟨s', he, heq⟩ := (hend (blocksOf r)).1 (List.Perm.refl _)
    obtain ⟨hrun, h'⟩ := hdone heq
    refine ⟨blocksOf r, s', hrun, h', ?_⟩
    rw [← hrem]
    exact he.remaining_lt h1.1 hr

theorem Tracked.drains (n : ℕ) (threshold : ℤ) (h : Tracked held s) :
    ∃ ls s', (∀ l ∈ ls, OfDevice l) ∧ run (Flush.step n threshold) ls s = some s' ∧ Free s' := by
  -- by what remains to be written
  induction hm : remaining s using Nat.strong_induction_on generalizing s with
  | _ m ih =>
    by_cases hnone : ∀ b, s.inflight b = none
    · exact ⟨[], s, by simp, rfl, h.free hnone⟩
    · rw [not_forall] at hnone
      obtain ⟨b, hb⟩ := hnone
      obtain ⟨w, hw⟩ := ne_none_iff_exists'.1 hb
      obtain ⟨order, s1, hrun, h1, hlt⟩ := h.completes n threshold hw
      obtain ⟨ls, s', hdev, hrun', hfree⟩ := ih _ (hm ▸ hlt) h1 rfl
      refine ⟨[.take b, .complete b order] ++ ls, s', fun l hl => ?_, ?_, hfree⟩
      · rcases mem_append.1 hl with hl | hl
        · simp only [mem_cons, not_mem_nil, or_false] at hl
          rcases hl with rfl | rfl <;> trivial
        · exact hdev l hl
      · rw [run_append, hrun]
        exact hrun'

/-- An unfinished request has a write of its own in flight; each ends once, after it has written
each block that it lists once; the counts are those of unfinished requests; and the device can
complete what is in flight, after which nothing keeps a flush from being started. -/
structure Accounted (n : ℕ) (threshold : ℤ) (s : Flush α) : Prop where
  inFlight : ∀ f r, s.flushReq f = some r → ∃ b ∈ r.submittedFlushBlocks, s.blockFlushReqMap b = some f ∧
    (s.inflight b).isSome = true
  once : Justified Once s.log
  outcome : ∀ f blocks, .listed f blocks ∈ s.log →
    (∃ r, s.flushReq f = some r ∧ blocksOf r = blocks) ∨ .finished f ∈ s.log
  numFg : s.buf.numFgFlushInflight = (fgFlushes s).card
  bg : s.buf.bgFlushSent = true ↔ ∃ f r, s.flushReq f = some r ∧ r.fsReq = none
  free : (∀ b, s.inflight b = none) → Free s
  drains : ∃ ls s', (∀ l ∈ ls, OfDevice l) ∧ run (Flush.step n threshold) ls s = some s' ∧ Free s'

theorem Tracked.accounted (n : ℕ) (threshold : ℤ) (h : Tracked held s) : Accounted n threshold s := by
  refine ⟨fun f r hr => ?_, h.2.1.once, h.2.1.outcome, h.1.fg, h.1.bg, h.free, h.drains n threshold⟩
  have hu := h.1.underway f r hr
  obtain ⟨b, hb⟩ := hu.submitted.1
  obtain ⟨hf, w, hw, -⟩ := hu.writes b hb
  exact ⟨b, hb, hf, by rw [hw]; rfl⟩

/-- In every run of flushes, writes and completions in which no fsync lists a block that is listed in the background, or
flushes when the limit is reached. -/
theorem flush_accounted (blockNum n : ℕ) (threshold : ℤ) (data dev : ℕ → α) (ls : List (Flush.Label α)) (s : Flush α)
    (hrun : run (Flush.step n threshold) ls (Flush.init blockNum data dev) = some s)
    (hmeets : Along (Flush.step n threshold) (fun l s => Orderly l s ∧ BelowLimit l s) ls
      (Flush.init blockNum data dev)) : Accounted n threshold s := by
  have hstep (l : Flush.Label α) (s s' : Flush α) (h : Tracked (Finset.range blockNum) s)
      (hm : Orderly l s ∧ BelowLimit l s) (hs : Flush.step n threshold l s = some s') :
      Tracked (Finset.range blockNum) s' := h.step hm.1 hm.2 hs
  have hinit : Tracked (Finset.range blockNum) (Flush.init blockNum data dev) := by
    refine ⟨sound_init blockNum data dev, logged_init blockNum data dev, fun ino hin => ?_⟩
    cases hin
  exact (run_inv hstep hrun hmeets hinit).accounted n threshold

/-- A block of inode 5 is written and flushed by an fsync, and one of inode 6 is written and flushed
in the background. -/
def fsyncThenFlush : List (Flush.Label ℕ) :=
  [.getBlock 100 5, .writeItem 0 1 5, .fsync 5, .processFdataSync 0 [0], .take 100, .complete 100 [100],
    .getBlock 101 6,
    .writeItem 1 2 6, .checkAndFlushDirty [(6, 1)]]

theorem orderly_fsyncThenFlush : Along (Flush.step 6 0) (fun l s => Orderly l s ∧ BelowLimit l s) fsyncThenFlush
      (Flush.init 2 (fun _ => 0) fun _ => 0) := by
  refine ⟨⟨⟨fun e he => ?_, fun _ i rest hf _ => ?_⟩, trivial⟩, ⟨⟨by decide, rfl, rfl⟩, trivial⟩, ⟨trivial, trivial⟩,
    ⟨fun req _ _ f r hr => ?_, (by decide : (0 : ℤ) < 10)⟩, ⟨trivial, trivial⟩, ⟨trivial, trivial⟩,
    ⟨⟨fun e he => ?_, fun _ i rest hf _ => ?_⟩, trivial⟩, ⟨⟨by decide, rfl, rfl⟩, trivial⟩, ⟨trivial, trivial⟩, trivial⟩
  · cases he
  · cases hf
    decide
  · cases hr
  · cases he
  · cases hf
    decide

theorem flush_accounted_fsync : ∃ s, run (Flush.step 6 0) fsyncThenFlush (Flush.init 2 (fun _ => 0) fun _ => 0) =
    some s ∧
      s.log = [.listed 0 [100], .written 0 100, .finished 0, .listed 1 [101]] ∧ s.buf.bgFlushSent = true ∧
        Accounted 6 0 s := by
  obtain ⟨s, hrun, hlog, hbg⟩ : ∃ s, run (Flush.step 6 0) fsyncThenFlush (Flush.init 2 (fun _ => 0) fun _ => 0) =
    some s ∧
      s.log = [.listed 0 [100], .written 0 100, .finished 0, .listed 1 [101]] ∧ s.buf.bgFlushSent = true :=
    ⟨_, rfl, rfl, rfl⟩
  exact ⟨s, hrun, hlog, hbg, flush_accounted 2 6 0 _ _ _ s hrun orderly_fsyncThenFlush⟩

/-- The first block of an fsync is in flight in the background. -/
def fsyncInFlight : List (Flush.Label ℕ) :=
  [.getBlock 100 5, .writeItem 0 1 5, .checkAndFlushDirty [(5, 0)], .fsync 5, .processFdataSync 0 [0], .take 100,
    .complete 100 [100]]

/-- The second block of an fsync is in flight in the background. -/
def fsyncRefused : List (Flush.Label ℕ) :=
  [.getBlock 100 5, .writeItem 0 1 5, .checkAndFlushDirty [(5, 0)], .getBlock 101 5, .writeItem 1 2 5, .fsync 5,
    .processFdataSync 0 [1, 0], .take 101, .complete 101 [], .take 100, .complete 100 [100]]

/-- One fsync is counted for good, without a request; the request of the other is unfinished, with
no write in flight. -/
theorem flush_stuck : (∃ s, run (Flush.step 6 0) fsyncInFlight (Flush.init 2 (fun _ => 0) fun _ => 0) = some s ∧
      s.buf.numFgFlushInflight = 1 ∧ fgFlushes s = ∅ ∧ ¬ Accounted 6 0 s) ∧
    ∃ s r, run (Flush.step 6 0) fsyncRefused (Flush.init 2 (fun _ => 0) fun _ => 0) = some s ∧
      s.flushReq 1 = some r ∧ r.submittedFlushBlocks = {100} ∧ s.inflight 100 = none ∧ ¬ Accounted 6 0 s := by
  have hcount {s : Flush ℕ} (hnum : s.buf.numFgFlushInflight = 1) (hnone : fgFlushes s = ∅) : ¬ Accounted 6 0 s := by
    intro h
    have hfg := h.numFg
    rw [hnum, hnone] at hfg
    cases hfg
  have hstuck {s : Flush ℕ} {r : BufferFlushReq} (hr : s.flushReq 1 = some r) (hsub : r.submittedFlushBlocks = {100})
      (hnone : s.inflight 100 = none) : ¬ Accounted 6 0 s := by
    intro h
    obtain ⟨b, hb, -, hsome⟩ := h.inFlight 1 r hr
    rw [hsub, Finset.mem_singleton] at hb
    rw [hb, hnone] at hsome
    cases hsome
  obtain ⟨s₁, hrun₁, hnum, hempty⟩ : ∃ s, run (Flush.step 6 0) fsyncInFlight (Flush.init 2 (fun _ => 0) fun _ => 0) =
      some s ∧ s.buf.numFgFlushInflight = 1 ∧ fgFlushes s = ∅ := ⟨_, rfl, rfl, by decide⟩
  obtain ⟨s₂, r, hrun₂, hr, hsub, hnone⟩ : ∃ s r, run (Flush.step 6 0) fsyncRefused
      (Flush.init 2 (fun _ => 0) fun _ => 0) = some s ∧ s.flushReq 1 = some r ∧ r.submittedFlushBlocks = {100} ∧
      s.inflight 100 = none := ⟨_, _, rfl, rfl, by decide, rfl⟩
  exact ⟨⟨s₁, hrun₁, hnum, hempty, hcount hnum hempty⟩, s₂, r, hrun₂, hr, hsub, hnone, hstuck hr hsub hnone⟩

end Ufs.Proof.Buffer
