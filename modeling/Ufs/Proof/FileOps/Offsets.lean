import Ufs.Proof.FileOps.Loops

/-!
# Offsets stay within their files

The check of a seek comes after the change of the offset. `Meets` says what the requests have to be
like for offsets to stay within the size of the file, whatever is suspended in between. A write that
has written a part goes on at the offset the descriptor has by then, and skips the parts it has
written elsewhere, so its descriptor has to be left alone.
-/

namespace Ufs.Proof.FileOps

open Impl FileOps
open Function (update update_of_ne update_self)

/-! ## The requests -/

/-- The block buffer never refuses an item. -/
def HasItems (io : Io) : Prop := (∀ t, io.data t ≠ .noItem) ∧ io.alloc ≠ .noItem ∧ io.inode ≠ .noItem

/-- A write of the descriptor, other than the request `r`, has written a part of its data and is suspended. -/
def Midway (s : Files) (fd : ℕ) (r : Option ℕ) : Prop :=
  ∃ r' q, r ≠ some r' ∧ s.reqs r' = some q ∧ q.op = .write ∧ q.fd = fd ∧ q.state = .start ∧ q.blockIoDone.Nonempty

/-- What a request has to be like when it is processed from its start. -/
def MeetsStart (s : Files) (r : ℕ) (q : RwReq) (o : FileObj) : Prop :=
  match q.op with
  | .read => ¬ Midway s q.fd (some r)
  | .pread => q.offset.toNat + q.count.toNat < 2 ^ 64 ∨
      (s.inodeData o.ip).size < (q.offset.toNat + q.count.toNat) % 2 ^ 64
  | .write => q.count.toNat ≤ ringDataItemSize ∧ ¬ Midway s q.fd (some r) ∧
      (o.flags &&& oAppend ≠ 0 → q.blockIoDone = ∅ → o.off = (s.inodeData o.ip).size)
  | .pwrite => True

/-- The step keeps the offset meaningful: a seek stays inside the file and does not hit an operation
that waits, every block gets an item, and an operation that starts meets `MeetsStart`. -/
def Meets (l : Files.Label) (s : Files) : Prop :=
  match l with
  | .openFile .. => True
  | .accept .. => True
  | .lseek fd whence offset => ∀ o off, s.fds fd = some o →
      seekOff o (s.inodeData o.ip).size whence offset = some off → off ≤ (s.inodeData o.ip).size ∧ ¬ Midway s fd none
  | .processReq r io => HasItems io ∧
      ∀ q o, s.reqs r = some q → s.fds q.fd = some o → q.state = .start → MeetsStart s r q o

/-! ## Reading and writing a range -/

variable {io : Io} {d : Dinode} {done : Finset ℕ} {offStart nBytes : ℕ} {o : FileObj} {q : RwReq} {c c' : Call}

/-- The size is within the blocks, and these within the extents. -/
def WellSized (d : Dinode) : Prop := d.size ≤ d.iBlockCount * bsize ∧ d.iBlockCount ≤ fileMaxBlocks

theorem WellSized.le (h : WellSized d) : d.size ≤ fileMaxBlocks * bsize := h.1.trans (Nat.mul_le_mul_right _ h.2)

theorem toInt64_of_lt {n : ℕ} (h : n < 2 ^ 63) : toInt64 n = n := by
  unfold toInt64
  rw [Int.bmod_eq_of_le (by omega) (by omega)]

theorem readInode_spec (done : Finset ℕ) (hio : HasItems io) (hd : WellSized d) (hle : offStart ≤ d.size)
    (hsum : offStart + nBytes < 2 ^ 64) :
    ∃ nRead done' pending, readInode io d.size done offStart nBytes = some (nRead, done', pending) ∧ 0 ≤ nRead ∧
      (offStart + nRead : ℤ) ≤ d.size := by
  have hmax := fileMaxBlocks_mul
  have hsize := hd.le
  unfold readInode
  rw [Nat.mod_eq_of_lt hsum]
  have hreal : ∃ realBytes : ℕ, (if d.size < offStart + nBytes then u64Sub d.size offStart else nBytes) = realBytes ∧
      offStart + realBytes ≤ d.size := by
    split
    · exact ⟨_, u64Sub_of_le hle, by omega⟩
    · exact ⟨_, rfl, by omega⟩
  obtain ⟨realBytes, hreal, hwithin⟩ := hreal
  dsimp only
  rw [hreal]
  obtain ⟨⟨rioNum, done'⟩, hloop⟩ := readLoop_isSome hio.1 (hwithin.trans hsize) realBytes 0 done 0
  rw [hloop, Option.map_some]
  split
  · exact ⟨0, done', true, rfl, le_rfl, by omega⟩
  · refine ⟨_, done', false, rfl, ?_⟩
    rw [toInt64_of_lt (by omega)]
    omega

/-- What a call of `writeInode` leaves. If the pieces that were done are covered by the size, so are
those that are done now, and the whole range once all is written. -/
structure WriteEnd (d : Dinode) (done : Finset ℕ) (offStart nBytes : ℕ) (wrote : Wrote) : Prop where
  grows : d.size ≤ wrote.inodeData.size
  sized : WellSized wrote.inodeData
  covered : (∀ t ∈ done, Covered offStart nBytes d.size t) →
    ∀ t ∈ wrote.done, Covered offStart nBytes wrote.inodeData.size t
  whole : (∀ t ∈ done, Covered offStart nBytes d.size t) → 0 ≤ wrote.ret → wrote.pending = false →
    wrote.ret = nBytes ∧ offStart + nBytes ≤ wrote.inodeData.size

theorem writeEnd_failed {ret : ℤ} (hd : WellSized d) (hret : ret < 0) :
    WriteEnd d done offStart nBytes ⟨ret, d, done, false⟩ :=
  ⟨le_rfl, hd, fun h => h, fun _ h _ => absurd hret (not_lt.2 h)⟩

theorem writeData_spec (hio : HasItems io) (hd : WellSized d) (hle : offStart ≤ d.size) (hn : nBytes ≤ ringDataItemSize)
    (hend : offStart + nBytes ≤ d.iBlockCount * bsize) :
    ∃ wrote, writeData io d done offStart nBytes = some wrote ∧ WriteEnd d done offStart nBytes wrote := by
  have hring : ringDataItemSize = 32768 := rfl
  have hrange : offStart + nBytes ≤ fileMaxBlocks * bsize := hend.trans (Nat.mul_le_mul_right _ hd.2)
  obtain ⟨all, d', done', hloop, he, -⟩ := writeLoop_spec hio.1 (by omega) hrange
    (show nBytes < 0 + (nBytes + 1) by omega) (Nat.zero_le _) d done
  have hsized : WellSized d' := by
    obtain ⟨hsize, hblocks⟩ := hd
    have := he.within
    unfold WellSized
    rw [he.blocks]
    exact ⟨this.trans (max_le hsize hend), hblocks⟩
  unfold writeData
  rw [hloop, Option.map_some]
  cases all with
  | false => exact ⟨_, rfl, he.grows, hsized, he.covered, nofun⟩
  | true =>
    have hret : toInt64 nBytes = nBytes := toInt64_of_lt (by omega)
    have hwhole (h : ∀ t ∈ done, Covered offStart nBytes d.size t) : offStart + nBytes ≤ d'.size := by
      rcases Nat.eq_zero_or_pos nBytes with hz | hpos
      · have := he.grows
        omega
      · exact he.whole h rfl hpos
    refine ⟨⟨toInt64 nBytes, d', done', false⟩, rfl, he.grows, hsized, he.covered, fun h _ _ => ?_⟩
    dsimp only
    exact ⟨hret, hwhole h⟩

theorem le_of_toAllocateBlockNum (hd : WellSized d) (hle : offStart ≤ d.size) (hn : nBytes ≤ ringDataItemSize)
    (hto : 0 ≤ toAllocateBlockNum d (offStart + nBytes)) :
    offStart + nBytes ≤ (d.iBlockCount + (toAllocateBlockNum d (offStart + nBytes)).toNat) * bsize := by
  obtain ⟨hwithin, hblocks⟩ := hd
  rw [fileMaxBlocks_eq] at hblocks
  unfold ringDataItemSize at hn
  unfold toAllocateBlockNum bsize at *
  split at hto
  · next hlt =>
    rw [if_pos hlt]
    rw [Int.bmod_eq_of_le (by omega) (by omega)] at hto ⊢
    omega
  · next hlt =>
    rw [if_neg hlt]
    omega

theorem WriteEnd.of_blocks {n : ℕ} {wrote : Wrote}
    (h : WriteEnd { d with iBlockCount := n } done offStart nBytes wrote) : WriteEnd d done offStart nBytes wrote :=
  ⟨h.grows, h.sized, h.covered, h.whole⟩

theorem writeInode_spec (done : Finset ℕ) (offStart : ℕ) (hio : HasItems io) (hd : WellSized d)
    (hn : nBytes ≤ ringDataItemSize) :
    ∃ wrote, writeInode io d done offStart nBytes = some wrote ∧ WriteEnd d done offStart nBytes wrote := by
  have hring : ringDataItemSize = 32768 := rfl
  have hmax := fileMaxBlocks_mul
  have hsize := hd.le
  have hmore (n : ℕ) : d.size ≤ (d.iBlockCount + n) * bsize :=
    hd.1.trans (Nat.mul_le_mul_right _ (Nat.le_add_right ..))
  unfold writeInode
  split
  · exact ⟨_, rfl, writeEnd_failed hd (by decide)⟩
  · next hle =>
    have hle := not_lt.1 hle
    rw [Nat.mod_eq_of_lt (show offStart + nBytes < 2 ^ 64 by omega)]
    dsimp only
    split
    · next hneg => exact ⟨_, rfl, writeEnd_failed hd hneg⟩
    · next hneg =>
      have hend := le_of_toAllocateBlockNum hd hle hn (not_lt.1 hneg)
      split
      · next hzero =>
        rw [hzero] at hend
        exact writeData_spec hio hd hle hn hend
      · split
        · split
          · next hfits =>
            have hsized : WellSized ⟨d.size, d.iBlockCount + (toAllocateBlockNum d (offStart + nBytes)).toNat⟩ :=
              ⟨hmore _, hfits⟩
            obtain ⟨wrote, hwrote, he⟩ := writeData_spec hio hsized hle hn hend
            exact ⟨wrote, hwrote, he.of_blocks⟩
          · exact ⟨_, rfl, writeEnd_failed hd (by decide)⟩
        · split
          · next hfits =>
            have hsized : WellSized { d with iBlockCount := d.iBlockCount + _ } := ⟨hmore _, hfits.le⟩
            exact ⟨_, rfl, le_rfl, hsized, fun h => h, nofun⟩
          · exact ⟨_, rfl, writeEnd_failed hd (by decide)⟩
        · exact ⟨_, rfl, writeEnd_failed hd (by decide)⟩
        · next halloc => exact absurd halloc hio.2.1

/-! ## The handlers -/

@[simp] theorem finish_fileObj : c.finish.fileObj = c.fileObj := by
  unfold Call.finish Call.submitFsReqCompletion
  dsimp only
  split <;> split <;> rfl

@[simp] theorem finish_inodeData : c.finish.inodeData = c.inodeData := by
  unfold Call.finish Call.submitFsReqCompletion
  dsimp only
  split <;> split <;> rfl

@[simp] theorem finish_req : c.finish.req = c.req := by
  unfold Call.finish Call.submitFsReqCompletion
  dsimp only
  split <;> split <;> rfl

/-- A call that waits or fails leaves the file and the offset alone. -/
structure Untouched (c c' : Call) : Prop where
  fileObj : c'.fileObj = c.fileObj
  inodeData : c'.inodeData = c.inodeData
  req : ∃ state, c'.req = { c.req with state } ∧ (state = .start → c.req.state = .start)

theorem untouched_finish : Untouched c c.finish := by
  refine ⟨finish_fileObj, finish_inodeData, c.req.state, ?_, fun h => h⟩
  rw [finish_req]

theorem untouched_setState {state : RwState} (h : state ≠ .start) : Untouched c (c.setState state) :=
  ⟨rfl, rfl, state, rfl, fun hs => absurd hs h⟩

theorem Untouched.finish (h : Untouched c c') : Untouched c c'.finish := by
  refine ⟨finish_fileObj.trans h.fileObj, finish_inodeData.trans h.inodeData, ?_⟩
  rw [finish_req]
  exact h.req

theorem updateInode_untouched (hio : HasItems io) : ∃ c', c.updateInode io = some c' ∧ Untouched c c' := by
  unfold Call.updateInode
  split
  · split
    · exact ⟨_, rfl, untouched_setState (by decide)⟩
    · split
      · exact ⟨_, rfl, (untouched_setState (by decide)).finish⟩
      · refine ⟨_, rfl, Untouched.finish ⟨rfl, rfl, c.req.state, rfl, fun h => h⟩⟩
      · next hinode => exact absurd hinode hio.2.2
  · exact ⟨_, rfl, untouched_finish⟩

/-- What a call leaves: the offset is within the file, only a read or a write from its start changes
it, and the pieces that a suspended write has done are covered by the size. -/
structure Moved (o : FileObj) (d : Dinode) (q : RwReq) (c : Call) : Prop where
  ip : c.fileObj.ip = o.ip
  fd : c.req.fd = q.fd
  grows : d.size ≤ c.inodeData.size
  sized : WellSized c.inodeData
  off : c.fileObj.off ≤ c.inodeData.size
  stays : q.op = .pread ∨ q.op = .pwrite ∨ q.state ≠ .start → c.fileObj = o
  midway : c.req.op = .write → c.req.state = .start →
    q.op = .write ∧ q.state = .start ∧ c.req.count = q.count ∧
      ∀ t ∈ c.req.blockIoDone, Covered c.fileObj.off q.count.toNat c.inodeData.size t

theorem Moved.untouched (h : Moved o d q c) (hu : Untouched c c') : Moved o d q c' := by
  obtain ⟨state, hreq, hstate⟩ := hu.req
  refine ⟨by rw [hu.fileObj]; exact h.ip, by rw [hreq]; exact h.fd, by rw [hu.inodeData]; exact h.grows,
    by rw [hu.inodeData]; exact h.sized, by rw [hu.fileObj, hu.inodeData]; exact h.off,
    fun hs => hu.fileObj.trans (h.stays hs), fun hop hs => ?_⟩
  rw [hreq] at hop hs ⊢
  rw [hu.fileObj, hu.inodeData]
  exact h.midway hop (hstate hs)

theorem u64AddInt_of_le {a : ℕ} {b : ℤ} {size : ℕ} (hb : 0 ≤ b) (hle : (a + b : ℤ) ≤ size)
    (hsize : size < 2 ^ 64) : u64AddInt a b ≤ size := by
  unfold u64AddInt
  omega

theorem lt_of_wellSized (hd : WellSized d) : d.size < 2 ^ 63 := by
  have := hd.le
  rw [fileMaxBlocks_mul] at this
  omega

theorem fetchData_moved {moves : Bool} (hio : HasItems io) (hd : WellSized d) (hoff : o.off ≤ d.size)
    (hread : q.op = .read ∨ q.op = .pread) (hmoves : moves = true → q.op = .read ∧ q.state = .start ∧ offStart = o.off)
    (hle : offStart ≤ d.size) (hsum : offStart + q.count.toNat < 2 ^ 64) :
    ∃ c, (Call.enter o d q).fetchData io offStart moves = some c ∧ Moved o d q c := by
  obtain ⟨nRead, done', pending, hinode, hpos, hwithin⟩ :=
    readInode_spec q.blockIoDone hio hd hle hsum
  have hlt : d.size < 2 ^ 64 := (lt_of_wellSized hd).trans (by decide)
  have hop (hw : q.op = .write) : False := by
    rcases hread with h | h <;> cases h.symm.trans hw
  refine ⟨_, Option.map_eq_some_iff.2 ⟨_, hinode, rfl⟩, ?_⟩
  dsimp only
  rw [if_neg (not_lt.2 hpos)]
  split
  · refine Moved.untouched ?_ untouched_finish
    exact ⟨rfl, rfl, le_rfl, hd, hoff, fun _ => rfl, fun hw => (hop hw).elim⟩
  · refine Moved.untouched (Moved.untouched ?_ (untouched_setState (by decide))) untouched_finish
    cases moves with
    | false => exact ⟨rfl, rfl, le_rfl, hd, hoff, fun _ => rfl, fun hw => (hop hw).elim⟩
    | true =>
      obtain ⟨hop', hs, rfl⟩ := hmoves rfl
      refine ⟨rfl, rfl, le_rfl, hd, u64AddInt_of_le hpos hwithin hlt, ?_, fun hw => (hop hw).elim⟩
      rintro (h | h | h)
      · cases hop'.symm.trans h
      · cases hop'.symm.trans h
      · exact absurd hs h

theorem modify_moved (offStart : ℕ) (moves : Bool) (hio : HasItems io) (hd : WellSized d) (hoff : o.off ≤ d.size)
    (hs : q.state = .start) (hcount : q.count.toNat ≤ ringDataItemSize)
      (hop : (q.op = .write ∧ moves = true ∧ offStart = o.off ∧
      ∀ t ∈ q.blockIoDone, Covered o.off q.count.toNat d.size t) ∨ (q.op = .pwrite ∧ moves = false)) :
    ∃ c, (Call.enter o d q).modify io offStart moves = some c ∧ Moved o d q c := by
  obtain ⟨wrote, hwrote, he⟩ := writeInode_spec q.blockIoDone offStart hio hd hcount
  have hlt : wrote.inodeData.size < 2 ^ 64 := (lt_of_wellSized he.sized).trans (by decide)
  refine ⟨_, Option.map_eq_some_iff.2 ⟨wrote, hwrote, rfl⟩, ?_⟩
  have hstart : Moved o d q { Call.enter o d q with
      inodeData := wrote.inodeData, req := { q with blockIoDone := wrote.done }, pending := wrote.pending } := by
    refine ⟨rfl, rfl, he.grows, he.sized, hoff.trans he.grows, fun _ => rfl, fun hw _ => ?_⟩
    rcases hop with ⟨hop, -, rfl, hcov⟩ | ⟨hop, -⟩
    · exact ⟨hop, hs, rfl, he.covered hcov⟩
    · cases hop.symm.trans hw
  split
  · exact hstart.untouched (untouched_setState (by decide))
  · next hret =>
    split
    · exact hstart.untouched ⟨rfl, rfl, q.state, rfl, fun h => h⟩
    · next hp =>
      rcases hop with ⟨hop, rfl, rfl, hcov⟩ | ⟨hop, rfl⟩
      · obtain ⟨hnum, hwhole⟩ := he.whole hcov (not_lt.1 hret) (by simpa using hp)
        have hoff' : u64AddInt o.off wrote.ret ≤ wrote.inodeData.size :=
          u64AddInt_of_le (not_lt.1 hret) (by rw [hnum]; omega) hlt
        refine ⟨rfl, rfl, he.grows, he.sized, hoff', ?_, nofun⟩
        rintro (h | h | h)
        · cases hop.symm.trans h
        · cases hop.symm.trans h
        · exact absurd hs h
      · exact hstart.untouched (untouched_setState (by decide))

theorem processReq_moved {s : Files} {r : ℕ} (hio : HasItems io) (hd : WellSized (s.inodeData o.ip))
    (hoff : o.off ≤ (s.inodeData o.ip).size) (hmeets : q.state = .start → MeetsStart s r q o)
    (hmid : q.op = .write → q.state = .start → ∀ t ∈ q.blockIoDone,
      Covered o.off q.count.toNat (s.inodeData o.ip).size t) :
    ∃ c, (Call.enter o (s.inodeData o.ip) q).processReq io = some c ∧ Moved o (s.inodeData o.ip) q c := by
  have hstays (hs : q.state ≠ .start) : Moved o (s.inodeData o.ip) q (Call.enter o (s.inodeData o.ip) q) :=
    ⟨rfl, rfl, le_rfl, hd, hoff, fun _ => rfl, fun _ h => absurd h hs⟩
  have hring : ringDataItemSize = 32768 := rfl
  have hlt := lt_of_wellSized hd
  -- a request that is turned down, or has failed, leaves the file alone
  have hfailed : Moved o (s.inodeData o.ip) q ((Call.enter o (s.inodeData o.ip) q).setState .retErr) :=
    ⟨rfl, rfl, le_rfl, hd, hoff, fun _ => rfl, nofun⟩
  have hthen {c : Call} (h : Moved o (s.inodeData o.ip) q c) :
    ∃ c', c.updateInode io = some c' ∧ Moved o (s.inodeData o.ip) q c' := by
    obtain ⟨c', hc', hu⟩ := updateInode_untouched (c := c) hio
    exact ⟨c', hc', h.untouched hu⟩
  by_cases hs : q.state = .start
  · have hmeets := hmeets hs
    unfold MeetsStart at hmeets
    cases hop : q.op with
    | read =>
      rw [processRead_start hop hs]
      split
      · exact ⟨_, rfl, hfailed⟩
      · exact fetchData_moved hio hd hoff (.inl hop) (fun _ => ⟨hop, hs, rfl⟩) hoff (by omega)
    | pread =>
      rw [hop] at hmeets
      rw [processPread_start hop hs]
      split
      · exact ⟨_, rfl, hfailed.untouched untouched_finish⟩
      · next hle =>
        have hsum : q.offset.toNat + q.count.toNat < 2 ^ 64 := hmeets.resolve_right hle
        rw [Nat.mod_eq_of_lt hsum] at hle
        exact fetchData_moved hio hd hoff (.inr hop) (nofun) (by omega) hsum
    | write =>
      rw [hop] at hmeets
      rw [processWrite_start hop hs]
      obtain ⟨c1, hmodify, hmoved⟩ := modify_moved o.off true hio hd hoff hs hmeets.1
        (.inl ⟨hop, rfl, rfl, hmid hop hs⟩)
      rw [hmodify]
      exact hthen hmoved
    | pwrite =>
      rw [processPwrite_start hop hs]
      split
      · exact ⟨_, rfl, hfailed⟩
      · next hcount =>
        obtain ⟨c1, hmodify, hmoved⟩ := modify_moved q.offset.toNat false hio hd hoff hs (by omega) (.inr ⟨hop, rfl⟩)
        rw [hmodify]
        exact hthen hmoved
  · cases hop : q.op with
    | read =>
      rw [processReq_other_read (.inl hop) hs]
      exact ⟨_, rfl, (hstays hs).untouched untouched_finish⟩
    | pread =>
      rw [processReq_other_read (.inr hop) hs]
      exact ⟨_, rfl, (hstays hs).untouched untouched_finish⟩
    | write =>
      rw [processReq_other_write (.inl hop) hs]
      exact hthen (hstays hs)
    | pwrite =>
      rw [processReq_other_write (.inr hop) hs]
      exact hthen (hstays hs)

/-! ## Runs -/

/-- What holds in every state of a run: the sizes are within the blocks, the offsets within the
files, and the parts that a suspended write has written are covered by the size. -/
structure Sound (s : Files) : Prop where
  sized : ∀ ino, WellSized (s.inodeData ino)
  offs : ∀ fd o, s.fds fd = some o → o.off ≤ (s.inodeData o.ip).size
  fresh : ∀ fd o, s.fds fd = some o → fd < s.fdIncr
  known : ∀ r q, s.reqs r = some q → ∃ o, s.fds q.fd = some o
  midway : ∀ r q o, s.reqs r = some q → q.op = .write → q.state = .start → s.fds q.fd = some o →
    ∀ t ∈ q.blockIoDone, Covered o.off q.count.toNat (s.inodeData o.ip).size t

variable {inodeData : ℕ → Dinode}

theorem sound_start (h : ∀ ino, WellSized (inodeData ino)) : Sound (Files.start inodeData) := by
  refine ⟨h, fun _ _ h => ?_, fun _ _ h => ?_, fun _ _ h => ?_, fun _ _ _ h => ?_⟩ <;> cases h

variable {s s' : Files} {l : Files.Label}

theorem Sound.setFd (h : Sound s) {fd : ℕ} {o o' : FileObj} (ho : s.fds fd = some o) (hip : o'.ip = o.ip)
    (hoff : o'.off ≤ (s.inodeData o.ip).size) (hmid : o' = o ∨ ¬ Midway s fd none) :
      Sound { s with fds := update s.fds fd (some o') } := by
  have hcases {fd' : ℕ} {o1 : FileObj} (h1 : update s.fds fd (some o') fd' = some o1) :
    (fd' = fd ∧ o1 = o') ∨ s.fds fd' = some o1 := by
    rcases eq_or_ne fd' fd with rfl | hne
    · rw [update_self] at h1
      exact .inl ⟨rfl, (Option.some.inj h1).symm⟩
    · rw [update_of_ne hne] at h1
      exact .inr h1
  refine ⟨h.sized, fun fd' o1 h1 => ?_, fun fd' o1 h1 => ?_, fun r q hr => ?_, fun r q o1 hr hop hs h1 t ht => ?_⟩
  · rcases hcases h1 with ⟨rfl, rfl⟩ | h1
    · rw [hip]
      exact hoff
    · exact h.offs fd' o1 h1
  · rcases hcases h1 with ⟨rfl, rfl⟩ | h1
    · exact h.fresh _ o ho
    · exact h.fresh fd' o1 h1
  · obtain ⟨o1, h1⟩ := h.known r q hr
    rcases eq_or_ne q.fd fd with heq | hne
    · exact ⟨o', by dsimp only; rw [heq, update_self]⟩
    · exact ⟨o1, by dsimp only; rw [update_of_ne hne, h1]⟩
  · rcases hcases h1 with ⟨heq, rfl⟩ | h1
    · rcases hmid with rfl | hmid
      · exact h.midway r q _ hr hop hs (heq ▸ ho) t ht
      · exact absurd ⟨r, q, by simp, hr, hop, heq, hs, t, ht⟩ hmid
    · exact h.midway r q o1 hr hop hs h1 t ht

theorem size_le_update {ip : ℕ} {d : Dinode} (h : (inodeData ip).size ≤ d.size) (ino : ℕ) :
    (inodeData ino).size ≤ (update inodeData ip d ino).size := by
  rcases eq_or_ne ino ip with rfl | hne
  · rwa [update_self]
  · rw [update_of_ne hne]

theorem Sound.afterCall (h : Sound s) {r : ℕ} (hr : s.reqs r = some q) (ho : s.fds q.fd = some o)
    (hmoved : Moved o (s.inodeData o.ip) q c) (hmid : c.fileObj = o ∨ ¬ Midway s q.fd (some r)) :
      Sound (s.afterCall r c) := by
  have hsize (ino : ℕ) : (s.inodeData ino).size ≤ ((s.afterCall r c).inodeData ino).size := by
    refine size_le_update ?_ ino
    rw [hmoved.ip]
    exact hmoved.grows
  have hself : (s.afterCall r c).inodeData o.ip = c.inodeData := by
    unfold Files.afterCall
    rw [hmoved.ip]
    exact update_self ..
  have hfds {fd' : ℕ} {o1 : FileObj} (h1 : (s.afterCall r c).fds fd' = some o1) :
    (fd' = q.fd ∧ o1 = c.fileObj) ∨ s.fds fd' = some o1 := by
    unfold Files.afterCall at h1
    rw [hmoved.fd] at h1
    dsimp only at h1
    rcases eq_or_ne fd' q.fd with rfl | hne
    · rw [update_self] at h1
      exact .inl ⟨rfl, (Option.some.inj h1).symm⟩
    · rw [update_of_ne hne] at h1
      exact .inr h1
  have hfdSelf : (s.afterCall r c).fds q.fd = some c.fileObj := by
    unfold Files.afterCall
    rw [hmoved.fd]
    exact update_self ..
  have hreqs {r' : ℕ} {q' : RwReq} (h1 : (s.afterCall r c).reqs r' = some q') :
    (r' = r ∧ q' = c.req) ∨ (r' ≠ r ∧ s.reqs r' = some q') := by
    unfold Files.afterCall at h1
    dsimp only at h1
    rcases eq_or_ne r' r with rfl | hne
    · rw [update_self] at h1
      split at h1
      · exact .inl ⟨rfl, (Option.some.inj h1).symm⟩
      · cases h1
    · rw [update_of_ne hne] at h1
      exact .inr ⟨hne, h1⟩
  refine ⟨fun ino => ?_, fun fd' o1 h1 => ?_, fun fd' o1 h1 => ?_, fun r' q' hr' => ?_,
    fun r' q' o1 hr' hop hs h1 t ht => ?_⟩
  · rcases eq_or_ne ino o.ip with rfl | hne
    · rw [hself]
      exact hmoved.sized
    · unfold Files.afterCall
      rw [hmoved.ip]
      dsimp only
      rw [update_of_ne hne]
      exact h.sized ino
  · rcases hfds h1 with ⟨rfl, rfl⟩ | h1
    · rw [hmoved.ip, hself]
      exact hmoved.off
    · exact (h.offs fd' o1 h1).trans (hsize _)
  · rcases hfds h1 with ⟨rfl, rfl⟩ | h1
    · exact h.fresh _ o ho
    · exact h.fresh fd' o1 h1
  · have hknown : ∃ o1, s.fds q'.fd = some o1 := by
      rcases hreqs hr' with ⟨rfl, rfl⟩ | ⟨-, hr'⟩
      · exact ⟨o, by rw [hmoved.fd]; exact ho⟩
      · exact h.known r' q' hr'
    obtain ⟨o1, h1⟩ := hknown
    rcases eq_or_ne q'.fd q.fd with heq | hne
    · exact ⟨c.fileObj, heq ▸ hfdSelf⟩
    · refine ⟨o1, ?_⟩
      unfold Files.afterCall
      rw [hmoved.fd]
      dsimp only
      rw [update_of_ne hne]
      exact h1
  · rcases hreqs hr' with ⟨rfl, rfl⟩ | ⟨hne, hr'⟩
    · rw [hmoved.fd, hfdSelf] at h1
      cases h1
      obtain ⟨-, -, hcount, hcov⟩ := hmoved.midway hop hs
      rw [hcount, hmoved.ip, hself]
      exact hcov t ht
    · rcases hfds h1 with ⟨heq, rfl⟩ | h1
      · rcases hmid with hstay | hmid
        · rw [hstay]
          exact (h.midway r' q' o hr' hop hs (heq ▸ ho) t ht).mono (hsize _)
        · exact absurd ⟨r', q', fun he => hne (Option.some.inj he).symm, hr', hop, heq, hs, t, ht⟩ hmid
      · exact (h.midway r' q' o1 hr' hop hs h1 t ht).mono (hsize _)

theorem processLseek_off {fileSize : ℕ} {whence offset : ℤ} (hoff : o.off ≤ fileSize)
    (h : ∀ off, seekOff o fileSize whence offset = some off → off ≤ fileSize) :
      (processLseek o fileSize whence offset).fileObj.off ≤ fileSize ∧
    (processLseek o fileSize whence offset).fileObj.ip = o.ip ∧
    ((processLseek o fileSize whence offset).error = true → (processLseek o fileSize whence offset).fileObj = o) ∧
    (seekOff o fileSize whence offset = none → (processLseek o fileSize whence offset).fileObj = o) := by
  unfold processLseek
  cases hseek : seekOff o fileSize whence offset with
  | none => exact ⟨hoff, rfl, fun _ => rfl, fun _ => rfl⟩
  | some off =>
    have hle := h off hseek
    have hno : ¬ ((some off).isNone = true ∨ fileSize < { o with off := (some off).getD o.off }.off) := by
      rintro (hn | hlt)
      · cases hn
      · exact absurd hle (not_le.2 hlt)
    rw [if_neg hno]
    refine ⟨hle, rfl, fun he => ?_, fun hn => ?_⟩
    · cases he
    · cases hn

theorem step_lseek {fd : ℕ} {whence offset : ℤ} (ho : s.fds fd = some o) :
    Files.step (.lseek fd whence offset) s = some { s with
      fds := update s.fds fd (some (processLseek o (s.inodeData o.ip).size whence offset).fileObj) } := by
  unfold Files.step
  dsimp only
  rw [ho]

theorem step_processReq {r : ℕ} (hr : s.reqs r = some q) (ho : s.fds q.fd = some o) : Files.step (.processReq r io) s =
      ((Call.enter o (s.inodeData o.ip) q).processReq io).map (s.afterCall r) := by
  unfold Files.step
  dsimp only
  rw [hr]
  dsimp only
  rw [ho]

theorem allocateFd_off (ino openFlags : ℕ) : (allocateFd ino d openFlags).off = 0 := by
  have hnew : ¬ (0 &&& oAppend ≠ 0) := by decide
  exact if_neg hnew

theorem Sound.openFile (h : Sound s) (ino openFlags : ℕ) : ∃ s', Files.step (.openFile ino openFlags) s = some s' ∧
    Sound s' := by
  have hold {fd : ℕ} {o : FileObj} (ho : s.fds fd = some o) : fd ≠ s.fdIncr := (h.fresh fd o ho).ne
  have hcases {fd : ℕ} {o : FileObj} (h1 : update s.fds s.fdIncr
    (some (allocateFd ino (s.inodeData ino) openFlags)) fd = some o) :
      (fd = s.fdIncr ∧ o.off = 0) ∨ s.fds fd = some o := by
    rcases eq_or_ne fd s.fdIncr with rfl | hne
    · rw [update_self] at h1
      cases h1
      exact .inl ⟨rfl, allocateFd_off ..⟩
    · rw [update_of_ne hne] at h1
      exact .inr h1
  refine ⟨_, rfl, h.sized, fun fd o h1 => ?_, fun fd o h1 => ?_, fun r q hr => ?_, fun r q o hr hop hs h1 t ht => ?_⟩
  · rcases hcases h1 with ⟨-, hzero⟩ | h1
    · rw [hzero]
      exact Nat.zero_le _
    · exact h.offs fd o h1
  · rcases hcases h1 with ⟨rfl, -⟩ | h1
    · exact Nat.lt_succ_self _
    · exact (h.fresh fd o h1).trans (Nat.lt_succ_self _)
  · obtain ⟨o, ho⟩ := h.known r q hr
    exact ⟨o, by dsimp only; rw [update_of_ne (hold ho), ho]⟩
  · rcases hcases h1 with ⟨heq, -⟩ | h1
    · obtain ⟨o', ho'⟩ := h.known r q hr
      exact absurd heq (hold ho')
    · exact h.midway r q o hr hop hs h1 t ht

theorem Sound.accept (h : Sound s) (op : RwOp) (fd : ℕ) (count offset : UInt64) :
    ∃ s', Files.step (.accept op fd count offset) s = some s' ∧ Sound s' := by
  unfold Files.step
  dsimp only
  cases ho : s.fds fd with
  | none => exact ⟨s, rfl, h⟩
  | some o =>
    have hcases {r : ℕ} {q : RwReq} (h1 : update s.reqs s.nextReq (some ⟨op, fd, count, offset, .start, ∅⟩) r =
      some q) :
        q = ⟨op, fd, count, offset, .start, ∅⟩ ∨ s.reqs r = some q := by
      rcases eq_or_ne r s.nextReq with rfl | hne
      · rw [update_self] at h1
        exact .inl (Option.some.inj h1).symm
      · rw [update_of_ne hne] at h1
        exact .inr h1
    refine ⟨_, rfl, h.sized, h.offs, h.fresh, fun r q hr => ?_, fun r q o hr hop hs h1 t ht => ?_⟩
    · rcases hcases hr with rfl | hr
      · exact ⟨o, ho⟩
      · exact h.known r q hr
    · rcases hcases hr with rfl | hr
      · exact absurd ht (Finset.notMem_empty t)
      · exact h.midway r q o hr hop hs h1 t ht

theorem Sound.step (h : Sound s) (hmeets : Meets l s) : ∃ s', Files.step l s = some s' ∧ Sound s' := by
  cases l with
  | openFile ino openFlags => exact h.openFile ino openFlags
  | accept op fd count offset => exact h.accept op fd count offset
  | lseek fd whence offset =>
    cases ho : s.fds fd with
    | none =>
      refine ⟨s, ?_, h⟩
      unfold Files.step
      dsimp only
      rw [ho]
    | some o =>
      obtain ⟨hoff, hip, -, hnone⟩ := processLseek_off (h.offs fd o ho) fun off hs => (hmeets o off ho hs).1
      refine ⟨_, step_lseek ho, h.setFd ho hip hoff ?_⟩
      cases hseek : seekOff o (s.inodeData o.ip).size whence offset with
      | none => exact .inl (hnone hseek)
      | some off => exact .inr (hmeets o off ho hseek).2
  | processReq r io =>
    obtain ⟨hio, hmeets⟩ := hmeets
    cases hr : s.reqs r with
    | none =>
      refine ⟨s, ?_, h⟩
      unfold Files.step
      dsimp only
      rw [hr]
    | some q =>
      obtain ⟨o, ho⟩ := h.known r q hr
      have hmeets := hmeets q o hr ho
      obtain ⟨c, hc, hmoved⟩ := processReq_moved hio (h.sized o.ip) (h.offs _ o ho) hmeets fun hop hs =>
        h.midway r q o hr hop hs ho
      refine ⟨_, by rw [step_processReq hr ho, hc]; rfl, h.afterCall hr ho hmoved ?_⟩
      by_cases hs : q.state = .start
      · have hm := hmeets hs
        unfold MeetsStart at hm
        cases hop : q.op with
        | read =>
          rw [hop] at hm
          exact .inr hm
        | pread => exact .inl (hmoved.stays (.inl hop))
        | write =>
          rw [hop] at hm
          exact .inr hm.2.1
        | pwrite => exact .inl (hmoved.stays (.inr (.inl hop)))
      · exact .inl (hmoved.stays (.inr (.inr hs)))

/-! ## What a client sees -/

/-- The offset from which a request that starts will read, if it reads. -/
def readsAt (o : FileObj) (d : Dinode) (q : RwReq) : Option ℕ :=
  if q.state = .start then
    match q.op with
    | .read => if ringDataItemSize < q.count.toNat then none else some o.off
    | .pread => if d.size < (q.offset.toNat + q.count.toNat) % 2 ^ 64 then none else some q.offset.toNat
    | .write => none
    | .pwrite => none
  else none

/-- What POSIX asks of a step: a seek that fails leaves the descriptor as it is; a write of a
descriptor that appends starts at the end of the file; a read starts within the file; and a pread
whose end is not a 64-bit number fails. -/
structure Posix (l : Files.Label) (s s' : Files) : Prop where
  seeks : ∀ fd whence offset o, l = .lseek fd whence offset → s.fds fd = some o →
    (processLseek o (s.inodeData o.ip).size whence offset).error = true → s'.fds fd = some o
  appends : ∀ r io q o, l = .processReq r io → s.reqs r = some q → s.fds q.fd = some o → q.op = .write →
    q.state = .start → q.blockIoDone = ∅ → o.flags &&& oAppend ≠ 0 → o.off = (s.inodeData o.ip).size
  reads : ∀ r io q o off, l = .processReq r io → s.reqs r = some q → s.fds q.fd = some o →
    readsAt o (s.inodeData o.ip) q = some off → off ≤ (s.inodeData o.ip).size
  overflows : ∀ r io q o, l = .processReq r io → s.reqs r = some q → s.fds q.fd = some o → q.op = .pread →
    q.state = .start → 2 ^ 64 ≤ q.offset.toNat + q.count.toNat →
    ∃ c, (Call.enter o (s.inodeData o.ip) q).processReq io = some c ∧ c.error = true ∧ c.completed = 1

theorem Sound.posix (h : Sound s) (hmeets : Meets l s) (hstep : Files.step l s = some s') : Posix l s s' := by
  refine ⟨?_, ?_, ?_, ?_⟩
  · rintro fd whence offset o rfl ho herr
    obtain ⟨-, -, hsame, -⟩ := processLseek_off (h.offs fd o ho) fun off hs => (hmeets o off ho hs).1
    rw [step_lseek ho] at hstep
    cases hstep
    dsimp only
    rw [update_self, hsame herr]
  · rintro r io q o rfl hr ho hop hs hdone happend
    have hm := hmeets.2 q o hr ho hs
    unfold MeetsStart at hm
    rw [hop] at hm
    exact hm.2.2 happend hdone
  · rintro r io q o off rfl hr ho hat
    unfold readsAt at hat
    split at hat
    · next hs =>
      have hm := hmeets.2 q o hr ho hs
      unfold MeetsStart at hm
      cases hop : q.op with
      | read =>
        rw [hop] at hat
        dsimp only at hat
        split at hat
        · cases hat
        · cases hat
          exact h.offs _ o ho
      | pread =>
        rw [hop] at hat hm
        dsimp only at hat
        split at hat
        · cases hat
        · next hle =>
          cases hat
          have hsum : q.offset.toNat + q.count.toNat < 2 ^ 64 := hm.resolve_right hle
          rw [Nat.mod_eq_of_lt hsum] at hle
          omega
      | write =>
        rw [hop] at hat
        cases hat
      | pwrite =>
        rw [hop] at hat
        cases hat
    · cases hat
  · rintro r io q o rfl hr ho hop hs hsum
    have hm := hmeets.2 q o hr ho hs
    unfold MeetsStart at hm
    rw [hop] at hm
    have hlt := hm.resolve_left (not_lt.2 hsum)
    exact ⟨_, (processPread_start hop hs).trans (if_pos hlt), rfl, rfl⟩

/-- In a run whose steps meet the condition every offset is within its file; and every further such
step is taken, without an exception, and does what POSIX asks. -/
theorem offsets_follow_posix {inodeData : ℕ → Dinode} {ls : List Files.Label}
    (hsized : ∀ ino, WellSized (inodeData ino))
    (hrun : run Files.step ls (Files.start inodeData) = some s)
      (hmeets : Along Files.step Meets ls (Files.start inodeData)) :
    (∀ fd o, s.fds fd = some o → o.off ≤ (s.inodeData o.ip).size) ∧ ∀ l, Meets l s → ∃ s',
      Files.step l s = some s' ∧ Posix l s s' := by
  have hsound : Sound s := by
    refine run_inv (P := Meets) (I := Sound) (fun l s s' h hm hs => ?_) hrun hmeets (sound_start hsized)
    obtain ⟨s₁, hs₁, h₁⟩ := h.step hm
    cases hs.symm.trans hs₁
    exact h₁
  refine ⟨hsound.offs, fun l hm => ?_⟩
  obtain ⟨s', hs', -⟩ := hsound.step hm
  exact ⟨s', hs', hsound.posix hm hs'⟩

theorem offsets_follow_posix_end : ∃ s, run Files.step [.openFile 5 0, .lseek 0 2 0]
    (Files.start fun _ => ⟨100, 1⟩) = some s ∧
    s.fds 0 = some ⟨5, 0, 100⟩ ∧ (∀ fd o, s.fds fd = some o → o.off ≤ (s.inodeData o.ip).size) ∧
    ∀ l, Meets l s → ∃ s', Files.step l s = some s' ∧ Posix l s s' := by
  have hrun : run Files.step [.openFile 5 0, .lseek 0 2 0] (Files.start fun _ => ⟨100, 1⟩) = some _ := rfl
  refine ⟨_, hrun, by decide +kernel, offsets_follow_posix (fun _ => ?_) hrun ?_⟩
  · exact ⟨by decide, by decide⟩
  · refine ⟨trivial, fun o off ho hs => ?_, trivial⟩
    cases ho
    cases hs
    refine ⟨by decide, ?_⟩
    rintro ⟨r', q, -, hr, -⟩
    cases hr

/-- A seek behind the end of the file fails and moves the offset all the same, and the read that
follows makes the server throw. -/
theorem lseek_moves_past_end : ∃ s, run Files.step [.openFile 5 0, .lseek 0 0 6316625920]
    (Files.start fun _ => ⟨100, 1⟩) = some s ∧
    (processLseek ⟨5, 0, 0⟩ 100 0 6316625920).error = true ∧ s.fds 0 = some ⟨5, 0, 6316625920⟩ ∧
    (run Files.step [.accept .read 0 10 0, .processReq 0 ⟨fun _ => .inMem, .full, .inMem⟩] s).isNone = true :=
  ⟨_, rfl, by decide +kernel, by decide +kernel, by decide +kernel⟩

end Ufs.Proof.FileOps
