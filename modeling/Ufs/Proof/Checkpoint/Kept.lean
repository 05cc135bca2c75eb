import Ufs.Proof.Checkpoint.Once
import Ufs.Proof.Journal.Recovery

/-!
# The entries that a checkpoint keeps

An entry whose commit record is on the device is to be in an image that a checkpoint wrote, or found
by recovery. The blocks a checkpoint releases are those in use when a worker prepares, whether or
not their entries are applied by then, and its stamp is taken when it completes, so that an entry
serialized before that looks like a checkpointed one. And no checkpoint writes the bits of a bitmap
that an entry changed. `Careful` is the condition on steps under which no entry is lost
(`checkpoint_keeps_committed`), and `Kept` is the invariant of such runs.
-/

namespace Ufs.Proof.Checkpoint

open Impl Ufs.Ring Journal
open List

variable {N : ℕ}

/-- No worker is between the prepare and the stamp of a checkpoint. -/
def Quiet (s : Sys N) : Prop := ∀ w, s.phase w = .idle

instance (s : Sys N) : Decidable (Quiet s) := inferInstanceAs (Decidable (∀ _, _))

/-- The condition on a step under which it loses no entry. A worker asks for slots within the hard
watermark, and serializes no entry during a checkpoint. It prepares when every entry is applied, none
changes a bitmap and no other worker is going to release blocks. A release leaves room for the next
entry, and the count of unaccounted blocks does not wrap. -/
def Careful (a : Act N) (s : Sys N) : Prop :=
  match a with
  | .acquireNextNSlots _ n => WithinWatermark (.acquire n) s.hist
  | .serializeBody .. => Quiet s
  | .prepareForCheckpointing _ =>
    (∀ e ∈ s.entries, e.state = .succeeded ∧ e.bitmaps = false) ∧ ∀ v, (s.phase v).due = 0
  | .releaseFirstNSlots w =>
    RoomAfterRelease (.release (s.phase w).due) s.hist ∧ WithinWatermark (.release (s.phase w).due) s.hist
  | .setLastCheckpoint _ now => WithinWatermark (.setLastCheckpoint now) s.hist
  | _ => True

instance (a : Act N) (s : Sys N) : Decidable (Careful a s) :=
  match a with
  | .acquireNextNSlots _ n => inferInstanceAs (Decidable (WithinWatermark (.acquire n) s.hist))
  | .serializeBody .. => inferInstanceAs (Decidable (Quiet s))
  | .prepareForCheckpointing _ => inferInstanceAs (Decidable (_ ∧ _))
  | .releaseFirstNSlots _ => inferInstanceAs (Decidable (_ ∧ _))
  | .setLastCheckpoint _ now => inferInstanceAs (Decidable (WithinWatermark (.setLastCheckpoint now) s.hist))
  | .bodyWritten _ | .commitWritten _ | .success _ | .imagesWritten
  | .trySetWriteInProgress | .jsuperDurable | .onWriteComplete => inferInstanceAs (Decidable True)

/-- Recovery returns the entry when it finds the superblock `disk`: it reads all its blocks,
and does not take it for one that is checkpointed. -/
def Returned (disk : JSuperOnDisk) (e : SysEntry N) : Prop :=
  (∀ i < e.slot.len, ∃ x ∈ scanned disk, e.startBlock + i = (JSuper.ofDisk disk).idxToBlockNo x) ∧
    (JSuper.ofDisk disk).getLastCheckpoint < e.ustimeSerialized

/-- What the journal of careful workers keeps about an entry. -/
structure EntryKept (d : JSuperOnDisk) (s : Sys N) (e : SysEntry N) : Prop where
  mem : e.slot ∈ s.hist.grants
  slot : e.slot.filler = false
  startBlock : e.startBlock = d.jstartBlockno + e.slot.startIdx
  le : e.slot.startIdx + e.slot.len ≤ d.capacity
  deq : e.reflected = false → s.hist.deq ≤ e.slot.pos
  stamp : e.reflected = false → e.state ≠ .acquired → s.hist.js.djsuper.lastChkptTs < e.ustimeSerialized

/-- What holds about an entry during a checkpoint: it is applied if it is serialized, so that the
images of its worker hold it, and it is serialized if its slot is to be released. -/
structure EntryImaged (s : Sys N) (e : SysEntry N) : Prop where
  busy : e.state ≠ .acquired → e.state = .succeeded
  imaged : s.phase e.worker ≠ .idle → e.state ≠ .acquired → e.imaged = true
  written : s.written = true → e.state ≠ .acquired → e.reflected = true
  below : e.slot.pos < s.mark → e.state ≠ .acquired

/-- The stamps of the superblocks, the ones written among them, are not newer than the clock. -/
structure Stamped (clock : ℕ) (h : Hist) : Prop where
  clock : h.js.djsuper.lastChkptTs ≤ clock
  durable : h.durable.disk.lastChkptTs ≤ h.js.djsuper.lastChkptTs
  pending : ∀ p, h.pending = some p → p.snap.disk.lastChkptTs ≤ h.js.djsuper.lastChkptTs

/-- The invariant of careful runs: the journal's own, what is known of each entry, and, while a
checkpoint is under way, that the blocks still to be released are below the mark and their entries
imaged. -/
structure Kept (d : JSuperOnDisk) (s : Sys N) : Prop where
  inv : Inv d s.hist
  room : Room s.hist
  covered : Covered s.hist
  accounted : Accounted s.hist
  stamped : Stamped s.clock s.hist
  entry : ∀ e ∈ s.entries, EntryKept d s e
  device : ∀ b i, s.device b = some i → ∃ e, s.entries[i]? = some e ∧ e.state ≠ .acquired
  quiet : Quiet s → s.written = false
  released : s.written = false → ∀ w, s.phase w ≠ .released
  due : ¬ Quiet s → s.hist.deq + s.due ≤ s.mark ∧ s.mark ≤ s.hist.enq
  images : ¬ Quiet s → ∀ e ∈ s.entries, EntryImaged s e

theorem Kept.returned {d : JSuperOnDisk} {s : Sys N} (hd : d.Geom) (hk : Kept d s) {i : ℕ} {e : SysEntry N}
    (hc : s.Committed i e) : e.reflected = true ∨ Returned s.hist.durable.disk e := by
  obtain ⟨he, hdev⟩ := hc
  have hm := hk.entry e (mem_of_getElem? he)
  have hst : e.state ≠ .acquired := by
    obtain ⟨e', he', hst⟩ := hk.device _ _ hdev
    rw [he] at he'
    cases he'
    exact hst
  cases hr : e.reflected with
  | true => exact .inl rfl
  | false =>
    right
    obtain ⟨hdur, hold⟩ := hk.inv.durable
    have hidx := hk.inv.idx _ hm.mem
    have hscan : window d.capacity e.slot.pos e.slot.len ⊆ scanned s.hist.durable.disk :=
      subset_scanned hd hdur (hold.2.trans (hm.deq hr)) (hk.covered _ hm.mem hm.slot)
    refine ⟨fun j hj => ⟨(e.slot.pos + j) % d.capacity, hscan (mem_window.2 ⟨j, hj, rfl⟩), ?_⟩, ?_⟩
    · have hle := hm.le
      rw [hm.startBlock, JSuper.idxToBlockNo, JSuper.ofDisk_djsuper, hdur.keeps.jstartBlockno,
        hdur.keeps.capacity, Nat.mod_mod, ← Nat.mod_add_mod, ← hidx, Nat.mod_eq_of_lt (by omega), Nat.add_assoc]
    · have := hk.stamped.durable
      have := hm.stamp hr hst
      simp only [JSuper.getLastCheckpoint, JSuper.ofDisk_djsuper]
      omega

/-! ## The steps of careful workers -/

section

variable {d : JSuperOnDisk} {s s' : Sys N} {a : Act N}

theorem acquire_frame {h : Hist} {n : ℕ} (hb : h.js.Bounded n) :
    (h.acquire n).durable = h.durable ∧ (h.acquire n).pending = h.pending ∧
    (h.acquire n).js.djsuper.lastChkptTs = h.js.djsuper.lastChkptTs ∧ h.grants ⊆ (h.acquire n).grants := by
  by_cases hg : (h.js.acquireNextNSlots n).1.Granted
  · rw [Hist.acquire_of_granted hb hg]
    exact ⟨rfl, rfl, rfl, fun g hm => mem_cons_of_mem _ (mem_cons_of_mem _ hm)⟩
  · rw [Hist.acquire_of_refused hg]
    exact ⟨rfl, rfl, rfl, fun g hm => hm⟩

variable {w : Fin N}

theorem Kept.newEntry (hd : d.Geom) (hk : Kept d s) {n : ℕ} (hn : n ≤ maxBlocks)
    (hg : (s.hist.js.acquireNextNSlots n).1.Granted) :
    EntryKept d (s.setHist (s.hist.acquire n)) (s.newEntry w n s.hist.js.djsuper.head) := by
  have hle := hk.room.head_add_le hd hk.inv hn hg
  have hlt := (hk.inv.tillEnd hd).2
  refine ⟨?_, rfl, ?_, hle, fun _ => ?_, fun _ h => absurd rfl h⟩
  · rw [Sys.setHist, Hist.acquire_of_granted (hk.inv.bounded_of_le hd hn) hg]
    simp [Sys.newEntry, Hist.grant]
  · simp only [Sys.newEntry, JSuper.idxToBlockNo, hk.inv.capacity, Nat.mod_eq_of_lt hlt]
    rw [show s.hist.js.djsuper.jstartBlockno = d.jstartBlockno from hk.inv.snap.keeps.jstartBlockno]
  · have := hk.inv.used
    rw [Sys.setHist, acquire_deq]
    simp only [Sys.newEntry]
    omega

theorem Kept.acquire (hd : d.Geom) (hcap : maxBlocks < d.capacity) (hk : Kept d s) {n : ℕ}
    (hn : n ≤ maxBlocks) (hw : WithinWatermark (.acquire n) s.hist) (hg : (s.hist.js.acquireNextNSlots n).1.Granted) :
    Kept d { s.setHist (s.hist.acquire n) with entries := s.entries ++ [s.newEntry w n s.hist.js.djsuper.head] } := by
  obtain ⟨hdur, hpend, hts, hgr⟩ := acquire_frame (hk.inv.bounded_of_le hd hn)
  have hdeq := acquire_deq s.hist n
  have henq := acquire_enq_le s.hist n
  have hused := (hk.inv.bounded_of_le hd hn).used
  refine ⟨hk.inv.acquire hd hused, hk.room.acquire hd hk.inv hcap hn,
    hk.covered.step hd hk.inv hk.accounted hw (Hist.step_acquire hused), hk.accounted.acquire hd hk.inv hused, ?_,
      ?_, ?_,
    hk.quiet, hk.released, fun hq => ?_, fun hq => ?_⟩
  · refine ⟨?_, ?_, ?_⟩
    · simp only [Sys.setHist, hts]; exact hk.stamped.clock
    · simp only [Sys.setHist, hts, hdur]; exact hk.stamped.durable
    · simp only [Sys.setHist, hts, hpend]; exact hk.stamped.pending
  · intro e he
    rcases mem_append.1 he with he | he
    · have hm := hk.entry e he
      refine ⟨hgr hm.mem, hm.slot, hm.startBlock, hm.le, ?_, ?_⟩
      · simp only [Sys.setHist, hdeq]; exact hm.deq
      · simp only [Sys.setHist, hts]; exact hm.stamp
    · have hm := hk.newEntry (w := w) hd hn hg
      rw [mem_singleton.1 he]
      exact ⟨hm.mem, hm.slot, hm.startBlock, hm.le, hm.deq, hm.stamp⟩
  · intro b i hb
    obtain ⟨e, he, hst⟩ := hk.device b i hb
    exact ⟨e, List.getElem?_append_left (List.getElem?_eq_some_iff.1 he).1 ▸ he, hst⟩
  · obtain ⟨h1, h2⟩ := hk.due hq
    exact ⟨by simp only [Sys.setHist, hdeq]; exact h1, h2.trans henq⟩
  · intro e he
    rcases mem_append.1 he with he | he
    · have hm := hk.images hq e he
      exact ⟨hm.busy, hm.imaged, hm.written, hm.below⟩
    · rw [mem_singleton.1 he]
      have hmark := (hk.due hq).2
      exact ⟨fun h => absurd rfl h, fun _ h => absurd rfl h, fun _ h => absurd rfl h,
        fun h => absurd h (by simp only [Sys.newEntry, Sys.setHist]; omega)⟩

theorem EntryKept.setState {e : SysEntry N} (hm : EntryKept d s e) (hst : e.state ≠ .acquired) {st : EntryState} :
    EntryKept d s { e with state := st } :=
  ⟨hm.mem, hm.slot, hm.startBlock, hm.le, hm.deq, fun h _ => hm.stamp h hst⟩

section

variable (hk : Kept d s) (hcare : Careful a s) {i : ℕ} {e e' : SysEntry N} (hi : s.entries[i]? = some e)
    (he : Sys.EntryStep a s s' i e e')

include hk hcare hi he

theorem Kept.quiet_of_entryStep : Quiet s := by
  by_contra hq
  have hbusy := (hk.images hq e (mem_of_getElem? hi)).busy
  rcases he with ⟨now, bitmaps, rfl, -⟩ | ⟨-, hst, -⟩ | ⟨-, hst, -⟩ | ⟨-, hst, -⟩
  · exact hq hcare
  all_goals rw [hst] at hbusy; exact absurd (hbusy (by simp)) (by simp)

theorem Kept.entryStep : Kept d s' := by
  have hq := hk.quiet_of_entryStep hcare hi he
  obtain ⟨h1, h2, h3, -, -⟩ := EntryStep.frame he
  have hq' : Quiet s' := fun w => (congrFun h2 w).trans (hq w)
  have hm := hk.entry e (mem_of_getElem? hi)
  have hclock := hk.stamped.clock
  -- What the four steps have in common.
  have hcommon : s'.entries = s.entries.set i e' ∧ s.clock ≤ s'.clock ∧ e'.state ≠ .acquired ∧
      EntryKept d s e' ∧ ∀ b j, s'.device b = some j → s.device b = some j ∨ j = i := by
    rcases he with ⟨now, bitmaps, -, hst, hnow, rfl, rfl⟩ | ⟨-, hst, rfl, rfl⟩ | ⟨-, hst, rfl, rfl⟩ | ⟨-, hst, rfl, rfl⟩
    · exact ⟨rfl, hnow.le, by simp, ⟨hm.mem, hm.slot, hm.startBlock, hm.le, hm.deq, fun _ _ => by simp only; omega⟩, fun b j hb => .inl hb⟩
    · refine ⟨rfl, Nat.le_refl _, by simp, hm.setState (by simp [hst]), fun b j hb => .inl ?_⟩
      simp only [Option.ite_none_left_eq_some] at hb
      exact hb.2
    · refine ⟨rfl, Nat.le_refl _, by simp, hm.setState (by simp [hst]), fun b j hb => ?_⟩
      simp only [Function.update_apply] at hb
      split at hb
      · cases hb; exact .inr rfl
      · exact .inl hb
    · exact ⟨rfl, Nat.le_refl _, by simp, hm.setState (by simp [hst]), fun b j hb => .inl hb⟩
  obtain ⟨hent, hck, hst, hkept, hdev⟩ := hcommon
  refine ⟨h1 ▸ hk.inv, h1 ▸ hk.room, h1 ▸ hk.covered, h1 ▸ hk.accounted, ?_, ?_, ?_, fun _ => h3 ▸ hk.quiet hq, ?_,
    fun h => absurd hq' h, fun h => absurd hq' h⟩
  · exact ⟨h1 ▸ hclock.trans hck, h1 ▸ hk.stamped.durable, h1 ▸ hk.stamped.pending⟩
  · intro f hf
    rw [hent] at hf
    have hf' : EntryKept d s f := by
      rcases mem_or_eq_of_mem_set hf with hf | rfl
      · exact hk.entry f hf
      · exact hkept
    exact ⟨h1 ▸ hf'.mem, hf'.slot, hf'.startBlock, hf'.le, h1 ▸ hf'.deq, h1 ▸ hf'.stamp⟩
  · intro b j hb
    have hlt := (List.getElem?_eq_some_iff.1 hi).1
    rw [hent]
    by_cases hj : j = i
    · subst hj
      exact ⟨e', by rw [List.getElem?_set_self hlt], hst⟩
    · obtain ⟨f, hf, hfs⟩ := hk.device b j ((hdev b j hb).resolve_right hj)
      exact ⟨f, by rw [List.getElem?_set_ne (Ne.symm hj)]; exact hf, hfs⟩
  · rw [h2, h3]
    exact hk.released

end

theorem exists_map {f : SysEntry N → SysEntry N} (hf : ∀ e, (f e).state = e.state) {l : List (SysEntry N)} {i : ℕ}
    (h : ∃ e, l[i]? = some e ∧ e.state ≠ .acquired) : ∃ e, (l.map f)[i]? = some e ∧ e.state ≠ .acquired := by
  obtain ⟨e, he, hst⟩ := h
  exact ⟨f e, by rw [List.getElem?_map, he, Option.map_some], by rwa [hf]⟩

theorem Kept.prepare (hk : Kept d s) (hw : s.phase w = .idle) (hwr : s.written = false)
    (hall : ∀ e ∈ s.entries, e.state = .succeeded ∧ e.bitmaps = false) (hdue : ∀ v, (s.phase v).due = 0) :
      Kept d (s.prepare w) := by
  have hprep : (s.prepare w).phase w = .prepared s.hist.js.size := Function.update_self ..
  have hother : ∀ {v}, v ≠ w → (s.prepare w).phase v = s.phase v := fun hv => Function.update_of_ne hv ..
  refine ⟨hk.inv, hk.room, hk.covered, hk.accounted, hk.stamped, ?_, ?_, fun _ => hwr, fun _ v => ?_, fun _ =>
    ⟨?_, Nat.le_refl _⟩, fun _ => ?_⟩
  · intro e he
    obtain ⟨e, hmem, rfl⟩ := mem_map.1 he
    have hm := hk.entry e hmem
    exact ⟨hm.mem, hm.slot, hm.startBlock, hm.le, hm.deq, hm.stamp⟩
  · intro b i hb
    simp only [Sys.prepare]
    apply exists_map ?_ (hk.device b i hb)
    exact fun _ => rfl
  · rcases eq_or_ne v w with rfl | hv
    · rw [hprep]; simp
    · rw [hother hv]; exact hk.released hwr v
  · have h0 : s.due = 0 := Finset.sum_eq_zero fun v _ => hdue v
    rw [prepare_due hw, h0, Nat.zero_add]
    exact hk.inv.used.ge
  · intro e he
    obtain ⟨e, hmem, rfl⟩ := mem_map.1 he
    obtain ⟨hst, hbits⟩ := hall e hmem
    refine ⟨fun _ => hst, fun hph _ => ?_, fun h => ?_, fun _ => by simp [hst]⟩
    · simp only [Bool.or_eq_true, decide_eq_true_eq]
      rcases eq_or_ne e.worker w with hv | hv
      · exact .inr ⟨hv, hst, hbits⟩
      · refine .inl ((hk.images (fun hq => ?_) e hmem).imaged ?_ (by simp [hst]))
        · exact hph ((hother hv).trans (hq _))
        · exact (hother hv) ▸ hph
    · exact absurd (hwr.symm.trans h) (by simp)

theorem Kept.writeImages (hN : 0 < N) (hk : Kept d s) (hall : ∀ w, s.phase w ≠ .idle) : Kept d s.writeImages := by
  have hq : ¬ Quiet s := fun h => hall ⟨0, hN⟩ (h _)
  refine ⟨hk.inv, hk.room, hk.covered, hk.accounted, hk.stamped, ?_, ?_, fun h => absurd h hq,
    by simp [Sys.writeImages], hk.due, fun _ => ?_⟩
  · intro e he
    obtain ⟨e, hmem, rfl⟩ := mem_map.1 he
    have hm := hk.entry e hmem
    simp only [Sys.writeImages]
    refine ⟨hm.mem, hm.slot, hm.startBlock, hm.le, fun h => ?_, fun h => ?_⟩
    all_goals rw [Bool.or_eq_false_iff] at h
    · exact hm.deq h.1
    · exact hm.stamp h.1
  · intro b i hb
    simp only [Sys.writeImages]
    apply exists_map ?_ (hk.device b i hb)
    exact fun _ => rfl
  · intro e he
    obtain ⟨e, hmem, rfl⟩ := mem_map.1 he
    have hm := hk.images hq e hmem
    refine ⟨hm.busy, hm.imaged, fun _ hst => ?_, hm.below⟩
    simp only [Bool.or_eq_true]
    exact .inr (hm.imaged (hall _) hst)

theorem Kept.releaseSlots (hd : d.Geom) (hk : Kept d s) {k : ℕ} (hw : s.phase w = .prepared k)
    (hwr : s.written = true) (hroom : RoomAfterRelease (.release k) s.hist)
      (hwrap : WithinWatermark (.release k) s.hist) :
    Kept d (s.releaseSlots w k) := by
  have hq : ¬ Quiet s := fun h => by rw [hk.quiet h] at hwr; cases hwr
  obtain ⟨hdue, hmark⟩ := hk.due hq
  have hkd : k ≤ s.due := by have := due_le s w; rwa [hw] at this
  have hks : k ≤ s.hist.js.size := by
    have := hk.inv.used
    simp only [JSuper.size]
    omega
  refine ⟨hk.inv.release hd hks, Room.release hks hroom, hk.covered, hk.accounted.add hwrap rfl rfl rfl rfl,
    ⟨hk.stamped.clock, hk.stamped.durable, hk.stamped.pending⟩, ?_, hk.device, fun h => ?_, fun h => ?_,
    fun _ => ⟨?_, hmark⟩, fun _ e he => ?_⟩
  · intro e he
    have hm := hk.entry e he
    have hi := hk.images hq e he
    refine ⟨hm.mem, hm.slot, hm.startBlock, hm.le, fun hr => ?_, hm.stamp⟩
    -- The slots released were in the ring when the images were taken, and they are written.
    have hpos : s.mark ≤ e.slot.pos := by
      by_contra hlt
      have := hi.written hwr (hi.below (by omega))
      simp [hr] at this
    simp only [Sys.releaseSlots, Hist.release]
    omega
  · have := h w
    simp [Sys.releaseSlots] at this
  · exact absurd (hwr.symm.trans h) (by simp)
  · have hsum := sum_due_update s.phase w .released
    rw [hw, Phase.due_prepared, Phase.due_released] at hsum
    simp only [Sys.due, Sys.releaseSlots, Hist.release] at hdue ⊢
    omega
  · have hm := hk.images hq e he
    refine ⟨hm.busy, fun hph => ?_, hm.written, hm.below⟩
    rcases eq_or_ne e.worker w with hv | hv
    · exact hm.imaged (by rw [hv, hw]; simp)
    · simp only [Sys.releaseSlots, Function.update_of_ne hv] at hph
      exact hm.imaged hph

theorem Kept.setStamp (hk : Kept d s) (hw : s.phase w = .released) {now : ℕ} (hnow : s.clock < now)
    (hwrap : WithinWatermark (.setLastCheckpoint now) s.hist) : Kept d (s.setStamp w now) := by
  have hq : ¬ Quiet s := fun h => by rw [h w] at hw; cases hw
  have hwr : s.written = true := by
    by_contra h
    exact hk.released (by simpa using h) w hw
  have hother : ∀ {v}, (s.setStamp w now).phase v ≠ .idle → s.phase v ≠ .idle := by
    intro v hv
    rcases eq_or_ne v w with rfl | hne
    · rw [hw]; simp
    · simpa [Sys.setStamp, hne] using hv
  obtain ⟨hdue, hmark⟩ := hk.due hq
  have hck := hk.stamped.clock
  refine ⟨hk.inv.setLastCheckpoint now, hk.room, hk.covered, hk.accounted.add hwrap rfl rfl rfl rfl,
    ⟨Nat.le_refl _, ?_, fun p hp => ?_⟩, ?_, hk.device,
    fun h => ?_, fun h v hv => ?_, fun _ => ⟨?_, hmark⟩, fun _ e he => ?_⟩
  · exact hk.stamped.durable.trans (hck.trans hnow.le)
  · exact (hk.stamped.pending p hp).trans (hck.trans hnow.le)
  · intro e he
    have hm := hk.entry e he
    refine ⟨hm.mem, hm.slot, hm.startBlock, hm.le, hm.deq, fun hr hst => ?_⟩
    -- Whatever is serialized is in the images that are written.
    have := (hk.images hq e he).written hwr hst
    simp [hr] at this
  · simp only [Sys.setStamp, decide_eq_false_iff_not, not_exists, not_not]
    exact h
  · simp only [Sys.setStamp, decide_eq_false_iff_not, not_exists, not_not] at h hv
    rw [h v] at hv
    cases hv
  · have hsum := sum_due_update s.phase w .idle
    rw [hw, Phase.due_released, Phase.due_idle] at hsum
    simp only [Sys.due, Sys.setStamp] at hdue ⊢
    omega
  · have hm := hk.images hq e he
    exact ⟨hm.busy, fun hph => hm.imaged (hother hph), fun _ => hm.written hwr, hm.below⟩

theorem Stamped.write {c : ℕ} {h h' : Hist} (hs : Stamped c h) {op : Op} (hop : Sys.IsWrite op)
    (he : Hist.step op h = some h') : Stamped c h' := by
  rcases Hist.step_cases he with ⟨n, rfl, -⟩ | ⟨k, rfl, -⟩ | ⟨-, rfl | ⟨-, rfl⟩⟩ | ⟨p, -, hp, rfl⟩ |
    ⟨p, -, hp, rfl⟩ | ⟨ts, rfl, -⟩
  · simp [Sys.IsWrite] at hop
  · simp [Sys.IsWrite] at hop
  · exact hs
  · refine ⟨hs.clock, hs.durable, fun p hp => ?_⟩
    cases hp
    exact Nat.le_refl _
  · exact ⟨hs.clock, hs.pending p hp, hs.pending⟩
  · exact ⟨hs.clock, hs.pending p hp, by simp [Hist.endWrite]⟩
  · simp [Sys.IsWrite] at hop

theorem Kept.write (hd : d.Geom) (hcap : maxBlocks < d.capacity) (hk : Kept d s) {op : Op} {h : Hist}
    (hop : Sys.IsWrite op) (he : Hist.step op s.hist = some h) : Kept d (s.setHist h) := by
  obtain ⟨h1, h2, h3, h4⟩ := IsWrite.frame hop he
  have hfree : op.Asks ∧ RoomAfterRelease op s.hist ∧ WithinWatermark op s.hist := by
    rcases hop with rfl | rfl | rfl <;> exact ⟨trivial, trivial, trivial⟩
  refine ⟨hk.inv.step hd he, hk.room.step hd hk.inv hcap hfree.1 hfree.2.1 he,
    hk.covered.step hd hk.inv hk.accounted hfree.2.2 he,
    hk.accounted.step hd hk.inv (hfree.2.2.noWrap he) he, hk.stamped.write hop he, ?_, hk.device, hk.quiet,
      hk.released, fun hq => ?_, fun hq e hm => ?_⟩
  · intro e hm
    have hm := hk.entry e hm
    simp only [Sys.setHist]
    exact ⟨h3 ▸ hm.mem, hm.slot, hm.startBlock, hm.le, h2 ▸ hm.deq, h4 ▸ hm.stamp⟩
  · have := hk.due hq
    simp only [Sys.setHist, h1, h2]
    exact this
  · have hm := hk.images hq e hm
    exact ⟨hm.busy, hm.imaged, hm.written, hm.below⟩

theorem kept_start (hd : EmptyJournal d) (hroom : maxBlocks < d.capacity - d.head) :
    Kept d (Sys.start (Hist.start d) : Sys N) := by
  have hq : Quiet (Sys.start (Hist.start d) : Sys N) := fun _ => rfl
  refine ⟨inv_start hd, ?_, by simp [Covered, Sys.start, Hist.start], accounted_start d,
    ⟨Nat.le_refl _, Nat.le_refl _, by simp [Sys.start, Hist.start]⟩, by simp [Sys.start], by simp [Sys.start],
    fun _ => rfl, by simp [Sys.start], fun h => absurd hq h, fun h => absurd hq h⟩
  exact room_start hd hroom

theorem Kept.step (hd : d.Geom) (hcap : maxBlocks < d.capacity) (hN : 0 < N) (hk : Kept d s)
    (hcare : Careful a s) (he : Sys.step a s = some s') : Kept d s' := by
  rcases Sys.step_cases he with ⟨w, n, rfl, -, hn, ⟨-, rfl⟩ | ⟨hg, rfl⟩⟩ | ⟨i, e, e', hi, he⟩ |
    ⟨w, rfl, hw, hwr, rfl⟩ | ⟨-, hall, -, rfl⟩ | ⟨w, k, rfl, hw, hwr, rfl⟩ | ⟨w, now, rfl, hw, hnow, rfl⟩ |
    ⟨op, h, hop, hh, rfl, -⟩
  · exact hk
  · exact hk.acquire hd hcap hn hcare hg
  · exact hk.entryStep hcare hi he
  · exact hk.prepare hw hwr hcare.1 hcare.2
  · exact hk.writeImages hN hall
  · simp only [Careful, hw, Phase.due_prepared] at hcare
    exact hk.releaseSlots hd hw hwr hcare.1 hcare.2
  · exact hk.setStamp hw hnow hcare
  · exact hk.write hd hcap hop hh

end

/-- In every run of careful workers, a crash at any time leaves each committed entry in an
image that a checkpoint wrote, or where recovery finds it. -/
theorem checkpoint_keeps_committed {d : JSuperOnDisk} (hd : EmptyJournal d)
    (hroom : maxBlocks < d.capacity - d.head) {acts : List (Act N)} {s : Sys N}
      (hr : run Sys.step acts (Sys.start (Hist.start d)) = some s)
    (hc : Along Sys.step Careful acts (Sys.start (Hist.start d))) {i : ℕ} {e : SysEntry N} (he : s.Committed i e) :
    e.reflected = true ∨ Returned s.hist.durable.disk e := by
  have hN : 0 < N := e.worker.pos
  have hk : Kept d s := run_inv (fun a t t' hk hcare he => hk.step hd.geom (by omega) hN hcare he) hr hc
    (kept_start hd hroom)
  exact hk.returned hd.geom he

/-- A run with a checkpoint and a second entry after it, which a crash leaves committed. The first
entry changes a bitmap or does not, and the second one does. -/
def carefulRun (w : Fin N) (bitmaps : Bool) : List (Act N) :=
  [.acquireNextNSlots w 2, .serializeBody 0 1 bitmaps, .bodyWritten 0, .commitWritten 0, .success 0,
    .prepareForCheckpointing w, .imagesWritten, .releaseFirstNSlots w, .setLastCheckpoint w 2,
    .trySetWriteInProgress, .jsuperDurable, .acquireNextNSlots w 3, .serializeBody 1 3 true, .bodyWritten 1,
    .commitWritten 1]

theorem checkpoint_keeps_carefulRun : ∃ (s : Sys 1) (e : SysEntry 1),
    run Sys.step (carefulRun 0 false) (Sys.start (Hist.start smallJournal)) = some s ∧ s.Committed 1 e ∧
    e.reflected = false ∧ Returned s.hist.durable.disk e := by
  refine ⟨_, _, rfl, ⟨rfl, rfl⟩, rfl, ?_⟩
  have hk := @checkpoint_keeps_committed 1 _ smallJournal_empty (by decide) (carefulRun 0 false) _ rfl
    (by decide) 1 _ ⟨rfl, rfl⟩
  exact hk.resolve_left (by decide)

/-- The worker prepares while its entry is being written. The checkpoint completes, and its
superblock is on the device. -/
def hastyRun (w : Fin N) : List (Act N) :=
  [.acquireNextNSlots w 2, .serializeBody 0 1 false, .prepareForCheckpointing w, .bodyWritten 0, .commitWritten 0,
    .imagesWritten, .success 0, .releaseFirstNSlots w, .setLastCheckpoint w 2, .trySetWriteInProgress,
    .jsuperDurable]

/-- After the run the first entry is committed, but no image holds it and recovery takes it for a
checkpointed one. -/
def Loses (acts : List (Act N)) : Prop :=
  ∃ (s : Sys N) (e : SysEntry N), run Sys.step acts (Sys.start (Hist.start smallJournal)) = some s ∧
    s.Committed 0 e ∧ e.state = .succeeded ∧ ¬ (e.reflected = true ∨ Returned s.hist.durable.disk e)

/-- An entry that was being written when the worker prepared is lost, and so is one that was applied by
then and changes a bitmap. -/
theorem checkpoint_loses_committed : Loses (hastyRun (0 : Fin 1)) ∧ Loses (carefulRun (0 : Fin 1) true) := by
  refine ⟨⟨_, _, rfl, ⟨rfl, rfl⟩, rfl, fun h => ?_⟩, ⟨_, _, rfl, ⟨rfl, rfl⟩, rfl, fun h => ?_⟩⟩
  all_goals
    rcases h with h | h
    · exact absurd h (by decide)
    · exact absurd h.2 (by decide)

end Ufs.Proof.Checkpoint
