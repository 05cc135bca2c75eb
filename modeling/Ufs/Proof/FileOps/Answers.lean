import Ufs.Proof.FileOps.Loops

/-!
# Reads, writes and seeks are answered

A handler that returns has completed its request, or the request has a read pending that was
submitted (`Answered`). The calls of a request (`Calls`) are the first one, and another one after
each call that left it with pending reads; the file and what the buffers answer may be others each
time. All of them answer if and only if the count is one that the handlers do not turn down
(`requests_answered_iff`): for such a count they return at once, and only set the state.
-/

namespace Ufs.Proof.FileOps

open Impl FileOps
open Option

variable {io : Io} {c c' : Call} {o : FileObj} {d : Dinode} {q q₀ : RwReq}

/-- The request was completed once, or it waits for reads that were submitted. -/
def Answered (c : Call) : Prop := c.completed = 1 ∨ (c.completed = 0 ∧ c.pending = true ∧ 0 < c.submitted)

/-- The calls of a request, the last of which left `c`. -/
inductive Calls (q₀ : RwReq) : Call → Prop where
  | first {o : FileObj} {d : Dinode} {io : Io} {c : Call} : (Call.enter o d q₀).processReq io = some c → Calls q₀ c
  | again {o : FileObj} {d : Dinode} {io : Io} {c c' : Call} :
      Calls q₀ c → c.completed = 0 → c.pending = true → 0 < c.submitted →
      (Call.enter o d c.req).processReq io = some c' → Calls q₀ c'

/-- The counts that a handler answers. The loop counter of a write never gets to 2³², so that such a
write does not come to the test. -/
def Answerable (op : RwOp) (count : ℕ) : Prop :=
  match op with
  | .read => count ≤ ringDataItemSize
  | .pread => True
  | .write => (0 < count ∧ count ≤ ringDataItemSize) ∨ 2 ^ 32 ≤ count
  | .pwrite => 0 < count ∧ count ≤ ringDataItemSize

instance (op : RwOp) (count : ℕ) : Decidable (Answerable op count) := by
  unfold Answerable
  cases op <;> infer_instance

/-! ## What a call leaves -/

/-- A call that does not complete its request leaves the state it had, and one of a write may have come to the inode. -/
structure Left (q : RwReq) (c : Call) : Prop where
  op : c.req.op = q.op
  count : c.req.count = q.count
  answered : Answered c
  state : c.completed = 0 → c.req.state = .start ∨
    (c.req.state = .updateInode ∧ (q.op = .write ∨ q.op = .pwrite) ∧ 0 < q.count.toNat ∧
      q.count.toNat ≤ ringDataItemSize)

theorem finish_done (h : c.req.state = .done) : c.finish = { c with completed := c.completed + 1 } := by
  unfold Call.finish
  rw [if_pos h, if_neg]
  · rfl
  · change c.req.state ≠ _
    rw [h]
    decide

theorem finish_retErr (h : c.req.state = .retErr) : c.finish =
    { c with error := true, completed := c.completed + 1 } := by
  have hdone : c.req.state ≠ .done := by
    rw [h]
    decide
  unfold Call.finish
  rw [if_neg hdone, if_pos h]
  rfl

theorem finish_other (hdone : c.req.state ≠ .done) (herr : c.req.state ≠ .retErr) : c.finish = c := by
  unfold Call.finish
  rw [if_neg hdone, if_neg herr]

section

variable (hop : c.req.op = q.op) (hcount : c.req.count = q.count) (hzero : c.completed = 0)

include hop hcount hzero

theorem left_failed : Left q (c.setState .retErr).finish := by
  rw [finish_retErr rfl]
  have hone : c.completed + 1 = 1 := by omega
  exact ⟨hop, hcount, .inl hone, fun h => absurd (hone.symm.trans h) (by decide)⟩

theorem left_done : Left q (c.setState .done).finish := by
  rw [finish_done rfl]
  have hone : c.completed + 1 = 1 := by omega
  exact ⟨hop, hcount, .inl hone, fun h => absurd (hone.symm.trans h) (by decide)⟩

end

variable {offStart : ℕ} {moves : Bool}

theorem fetchData_left (hs : q.state = .start) (h : (Call.enter o d q).fetchData io offStart moves = some c) :
    Left q c := by
  obtain ⟨⟨nRead, done, pending⟩, -, rfl⟩ := map_eq_some_iff.1 h
  dsimp only
  split
  · exact left_failed rfl rfl rfl
  · split
    · next hp =>
      rw [finish_other (fun h => by cases hs.symm.trans h) (fun h => by cases hs.symm.trans h)]
      exact ⟨rfl, rfl, .inr ⟨rfl, hp, Nat.one_pos⟩, fun _ => .inl hs⟩
    · cases moves <;> exact left_done rfl rfl rfl

theorem modify_cases (h : (Call.enter o d q).modify io offStart moves = some c) :
    c.req.op = q.op ∧ c.req.count = q.count ∧ c.completed = 0 ∧
    (c.req.state = .retErr ∨ (c.req.state = q.state ∧ c.pending = true ∧ 0 < c.submitted) ∨
      (c.req.state = .updateInode ∧ q.count.toNat < 2 ^ 32)) := by
  obtain ⟨wrote, hwrote, rfl⟩ := map_eq_some_iff.1 h
  dsimp only
  split
  · exact ⟨rfl, rfl, rfl, .inl rfl⟩
  · next hret =>
    split
    · next hp => exact ⟨rfl, rfl, rfl, .inr (.inl ⟨rfl, hp, Nat.one_pos⟩)⟩
    · next hp =>
      have hlt : q.count.toNat < 2 ^ 32 := by
        have hdata {d' : Dinode} (hd : writeData io d' q.blockIoDone offStart q.count.toNat = some wrote) :
          q.count.toNat < 2 ^ 32 := by
          obtain ⟨⟨all, d'', done⟩, hloop, rfl⟩ := map_eq_some_iff.1 hd
          cases all with
          | true => exact lt_of_writeLoop hloop
          | false => exact absurd rfl hp
        change writeInode io d q.blockIoDone offStart q.count.toNat = some wrote at hwrote
        unfold writeInode at hwrote
        dsimp only at hwrote
        split at hwrote
        · cases hwrote
          exact absurd (by decide : (-1 : ℤ) < 0) hret
        · split at hwrote
          · next hn =>
            cases hwrote
            exact absurd hn hret
          · split at hwrote
            · exact hdata hwrote
            · split at hwrote
              · split at hwrote
                · exact hdata hwrote
                · cases hwrote
                  exact absurd (by decide : (-1 : ℤ) < 0) hret
              · split at hwrote
                · cases hwrote
                  exact absurd rfl hp
                · cases hwrote
                  exact absurd (by decide : (-1 : ℤ) < 0) hret
              · cases hwrote
                exact absurd (by decide : (-1 : ℤ) < 0) hret
              · cases hwrote
      cases moves <;> exact ⟨rfl, rfl, rfl, .inr (.inr ⟨rfl, hlt⟩)⟩

variable {count : UInt64}

theorem not_turned_down (h : 0 < count.toNat ∧ count.toNat ≤ ringDataItemSize) :
    ¬ (ringDataItemSize < count.toNat ∨ count = 0) := by
  rintro (hlt | rfl)
  · omega
  · exact absurd h.1 (by decide)

theorem turned_down (h : ¬ (0 < count.toNat ∧ count.toNat ≤ ringDataItemSize)) :
    ringDataItemSize < count.toNat ∨ count = 0 := by
  by_contra hno
  obtain ⟨hle, hne⟩ := not_or.1 hno
  refine h ⟨Nat.pos_of_ne_zero fun hz => hne ?_, Nat.not_lt.1 hle⟩
  exact UInt64.toNat_inj.1 hz

theorem updateInode_left (hwrite : q.op = .write ∨ q.op = .pwrite) (hop : c.req.op = q.op)
    (hcount : c.req.count = q.count)
    (hzero : c.completed = 0) (hstate : c.req.state = .retErr ∨
      (c.req.state = .start ∧ c.pending = true ∧ 0 < c.submitted) ∨
      (c.req.state = .updateInode ∧ 0 < q.count.toNat ∧ q.count.toNat ≤ ringDataItemSize))
        (h : c.updateInode io = some c') : Left q c' := by
  unfold Call.updateInode at h
  rcases hstate with hstate | ⟨hstate, hp, hsub⟩ | ⟨hstate, hpos, hle⟩
  · rw [if_neg (by rw [hstate]; decide)] at h
    cases h
    rw [finish_retErr hstate]
    have hone : c.completed + 1 = 1 := by omega
    exact ⟨hop, hcount, .inl hone, fun h => absurd (hone.symm.trans h) (by decide)⟩
  · rw [if_neg (by rw [hstate]; decide)] at h
    cases h
    rw [finish_other (by rw [hstate]; decide) (by rw [hstate]; decide)]
    exact ⟨hop, hcount, .inr ⟨hzero, hp, hsub⟩, fun _ => .inl hstate⟩
  · have hne : ¬ (ringDataItemSize < c.req.count.toNat ∨ c.req.count = 0) := by
      rw [hcount]
      exact not_turned_down ⟨hpos, hle⟩
    rw [if_pos hstate, if_neg hne] at h
    split at h
    · cases h
      exact left_done hop hcount hzero
    · cases h
      rw [finish_other (by rw [hstate]; decide) (by rw [hstate]; decide)]
      exact ⟨hop, hcount, .inr ⟨hzero, rfl, Nat.succ_pos _⟩, fun _ => .inr ⟨hstate, hwrite, hpos, hle⟩⟩
    · cases h

theorem processReq_left (hans : Answerable q.op q.count.toNat) (hstate : q.state = .start ∨
      (q.state = .updateInode ∧ (q.op = .write ∨ q.op = .pwrite) ∧ 0 < q.count.toNat ∧
        q.count.toNat ≤ ringDataItemSize))
    (h : (Call.enter o d q).processReq io = some c) : Left q c := by
  have hwrites (hop : q.op = .write ∨ q.op = .pwrite) (hu : q.state = .updateInode ∧ (q.op = .write ∨ q.op = .pwrite) ∧
      0 < q.count.toNat ∧ q.count.toNat ≤ ringDataItemSize) (h : (Call.enter o d q).updateInode io = some c) :
        Left q c :=
    updateInode_left hop rfl rfl rfl (.inr (.inr ⟨hu.1, hu.2.2⟩)) h
  cases hop : q.op with
  | read =>
    rw [hop] at hans
    rcases hstate with hs | ⟨-, hw, -⟩
    · rw [processRead_start hop hs, if_neg (Nat.not_lt.2 hans)] at h
      exact fetchData_left hs h
    · rw [hop] at hw
      rcases hw with hw | hw <;> cases hw
  | pread =>
    rcases hstate with hs | ⟨-, hw, -⟩
    · rw [processPread_start hop hs] at h
      split at h
      · cases h
        exact left_failed rfl rfl rfl
      · exact fetchData_left hs h
    · rw [hop] at hw
      rcases hw with hw | hw <;> cases hw
  | write =>
    rw [hop] at hans
    rcases hstate with hs | hu
    · rw [processWrite_start hop hs] at h
      obtain ⟨c1, hmodify, h⟩ := bind_eq_some_iff.1 h
      obtain ⟨hop1, hcount1, hzero, hcases⟩ := modify_cases hmodify
      refine updateInode_left (.inl hop) hop1 hcount1 hzero ?_ h
      rcases hcases with hc | ⟨hc, hp⟩ | ⟨hc, hlt⟩
      · exact .inl hc
      · exact .inr (.inl ⟨hc.trans hs, hp⟩)
      · rcases hans with hans | hans
        · exact .inr (.inr ⟨hc, hans⟩)
        · omega
    · rw [processReq_other_write (.inl hop) (by rw [hu.1]; decide)] at h
      exact hwrites (.inl hop) hu h
  | pwrite =>
    rw [hop] at hans
    rcases hstate with hs | hu
    · rw [processPwrite_start hop hs, if_neg (not_turned_down hans)] at h
      obtain ⟨c1, hmodify, h⟩ := bind_eq_some_iff.1 h
      obtain ⟨hop1, hcount1, hzero, hcases⟩ := modify_cases hmodify
      refine updateInode_left (.inr hop) hop1 hcount1 hzero ?_ h
      rcases hcases with hc | ⟨hc, hp⟩ | ⟨hc, -⟩
      · exact .inl hc
      · exact .inr (.inl ⟨hc.trans hs, hp⟩)
      · exact .inr (.inr ⟨hc, hans⟩)
    · rw [processReq_other_write (.inr hop) (by rw [hu.1]; decide)] at h
      exact hwrites (.inr hop) hu h

theorem calls_left (hs : q₀.state = .start) (hans : Answerable q₀.op q₀.count.toNat) (h : Calls q₀ c) : Left q₀ c := by
  induction h with
  | first h => exact processReq_left hans (.inl hs) h
  | again _ hzero _ _ h ih =>
    rw [← ih.op, ← ih.count] at hans
    have hleft := processReq_left hans (by rw [ih.op, ih.count]; exact ih.state hzero) h
    refine ⟨hleft.op.trans ih.op, hleft.count.trans ih.count, hleft.answered, fun hz => ?_⟩
    have := hleft.state hz
    rwa [ih.op, ih.count] at this

/-! ## The counts that are turned down -/

/-- Every block is in memory. -/
def allInMem : Io := ⟨fun _ => .inMem, .full, .inMem⟩

theorem not_answered_setState (hzero : c.completed = 0) (hpending : c.pending = false) :
    ¬ Answered (c.setState .retErr) := by
  rintro (h | ⟨-, h, -⟩)
  · exact absurd (hzero.symm.trans h) (by decide)
  · cases hpending.symm.trans h

theorem modify_written (o : FileObj) (moves : Bool) {ret : ℤ} {d' : Dinode} {done' : Finset ℕ}
    (hwrote : writeInode io d q.blockIoDone offStart q.count.toNat = some ⟨ret, d', done', false⟩) (hret : ¬ ret < 0) :
    ∃ c, (Call.enter o d q).modify io offStart moves = some c ∧ c.req.state = .updateInode ∧ c.req.count = q.count ∧
      c.completed = 0 ∧ c.pending = false := by
  refine ⟨_, map_eq_some_iff.2 ⟨_, hwrote, rfl⟩, ?_⟩
  dsimp only
  rw [if_neg hret]
  cases moves <;> exact ⟨rfl, rfl, rfl, rfl⟩

theorem exists_lost_write (fd : ℕ) (offset : UInt64) (hbad : ringDataItemSize < count.toNat ∨ count = 0)
    (hlt : count.toNat < 2 ^ 32) : ∃ c, Calls ⟨.write, fd, count, offset, .start, ∅⟩ c ∧ ¬ Answered c := by
  have hmax := fileMaxBlocks_mul
  have hrange : 0 + count.toNat ≤ fileMaxBlocks * bsize := by omega
  obtain ⟨all, d', done', hloop, -, hall⟩ := writeLoop_spec (fun t =>
    (by simp [allInMem] : allInMem.data t ≠ .noItem)) hlt
    hrange (show count.toNat < 0 + (count.toNat + 1) by omega) (Nat.zero_le _) ⟨2 ^ 32, 0⟩ ∅
  cases hall fun _ => rfl
  have hdata : writeData allInMem ⟨2 ^ 32, 0⟩ ∅ 0 count.toNat = some ⟨toInt64 count.toNat, d', done', false⟩ := by
    unfold writeData
    rw [hloop]
    rfl
  have hwrote : writeInode allInMem ⟨2 ^ 32, 0⟩ ∅ 0 count.toNat = some ⟨toInt64 count.toNat, d', done', false⟩ := by
    have hn : toAllocateBlockNum ⟨2 ^ 32, 0⟩ ((0 + count.toNat) % 2 ^ 64) = 0 := by
      refine if_neg ?_
      dsimp only
      omega
    unfold writeInode
    rw [hn, if_neg (Nat.not_lt_zero _)]
    exact hdata
  have hret : ¬ toInt64 count.toNat < 0 := by
    unfold toInt64
    rw [Int.bmod_eq_of_le (by omega) (by omega)]
    omega
  obtain ⟨c, hmodify, hs, hcount, hzero, hpending⟩ := modify_written (q := ⟨.write, fd, count, offset, .start, ∅⟩)
    ⟨0, 0, 0⟩ true hwrote hret
  refine ⟨c.setState .retErr, .first ((processWrite_start rfl rfl).trans (bind_eq_some_iff.2 ⟨c, hmodify, ?_⟩)),
    not_answered_setState hzero hpending⟩
  unfold Call.updateInode
  rw [if_pos hs, hcount, if_pos hbad]

/-- A read, pread, write or pwrite of any field values is answered by all its calls if and only if
its count is answerable; an `lseek` is completed once. -/
theorem requests_answered_iff (op : RwOp) (fd : ℕ) (count offset : UInt64) :
    ((∀ c, Calls ⟨op, fd, count, offset, .start, ∅⟩ c → Answered c) ↔ Answerable op count.toNat) ∧
    ∀ o fileSize whence off, (processLseek o fileSize whence off).completed = 1 := by
  refine ⟨⟨fun h => ?_, fun hans c hc => (calls_left rfl hans hc).answered⟩, fun o fileSize whence off => ?_⟩
  · by_contra hbad
    cases op with
    | read =>
      have hcall : (Call.enter ⟨0, 0, 0⟩ ⟨0, 0⟩ ⟨.read, fd, count, offset, .start, ∅⟩).processReq allInMem = some _ :=
        (processRead_start rfl rfl).trans (if_pos (Nat.not_le.mp hbad))
      exact not_answered_setState rfl rfl (h _ (.first hcall))
    | pread => exact hbad trivial
    | write =>
      obtain ⟨hbad, hlt⟩ := not_or.mp hbad
      obtain ⟨c, hc, hno⟩ := exists_lost_write fd offset (turned_down hbad) (Nat.not_le.mp hlt)
      exact hno (h c hc)
    | pwrite =>
      have hcall : (Call.enter ⟨0, 0, 0⟩ ⟨0, 0⟩ ⟨.pwrite, fd, count, offset, .start, ∅⟩).processReq allInMem = some _ :=
        (processPwrite_start rfl rfl).trans (if_pos (turned_down hbad))
      exact not_answered_setState rfl rfl (h _ (.first hcall))
  · unfold processLseek
    dsimp only
    split <;> rfl

/-- A read of one byte too many: the handler returns, and the request is not completed and waits for nothing. -/
theorem read_not_answered : ∃ c, Calls ⟨.read, 3, 32769, 0, .start, ∅⟩ c ∧ c.completed = 0 ∧ c.pending = false ∧
    c.submitted = 0 := by
  have hcall : (Call.enter ⟨5, 0, 0⟩ ⟨100, 1⟩ ⟨.read, 3, 32769, 0, .start, ∅⟩).processReq allInMem = some _ := rfl
  exact ⟨_, .first hcall, rfl, rfl, rfl⟩

end Ufs.Proof.FileOps
