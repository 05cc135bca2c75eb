import Ufs.Impl.FileOps

/-!
# The loops of `readInode` and `writeInode`

Both loops go through a range of a file in pieces, none of which crosses a block. What their callers need:

* `readLoop_isSome`: a range within the blocks that a file can have is read without an exception;
* `writeLoop_spec`: the same for writing, and what the size of the file is after it. A piece that
was done in an earlier call is skipped; if it was then at the same place, the size covers it
(`Covered`), and when the loop has come to the end, the size covers the range;
* `lt_of_writeLoop`: a range of 2³² bytes or more is never finished.
-/

namespace Ufs.Proof.FileOps

open Impl FileOps
open Call (enter processReq)

variable {io : Io} {offStart nBytes : ℕ} {d d' : Dinode} {done done' : Finset ℕ}

theorem findExtentArrIdx_isSome {n : ℕ} (is : List (Fin nextentArr)) (blockNum : ℕ)
    (hle : blockNum ≤ n) (h : n < blockNum + (is.map fun k : Fin nextentArr => extentArrIdx2BlockAllocUnit k).sum) :
    ∃ k, findExtentArrIdx n is blockNum = some k := by
  induction is generalizing blockNum with
  | nil =>
    rw [List.map_nil, List.sum_nil] at h
    omega
  | cons i is ih =>
    rw [List.map_cons, List.sum_cons] at h
    unfold findExtentArrIdx
    dsimp only
    split
    · exact ⟨i, rfl⟩
    · exact ih _ (by omega) (by omega)

theorem fileMaxBlocks_eq : fileMaxBlocks = 1542145 := by decide

theorem fileMaxBlocks_mul : fileMaxBlocks * bsize = 6316625920 := by decide

theorem exists_extent {off : ℕ} (h : off < fileMaxBlocks * bsize) :
    ∃ k, getCurrentExtentArrIdx (blockIdx off) = some k := by
  have hblock : off / bsize < fileMaxBlocks := Nat.div_lt_of_lt_mul (by rwa [Nat.mul_comm])
  have hnat : (blockIdx off).toNat = off / bsize := by
    unfold blockIdx
    rw [UInt32.toNat_ofNat']
    exact Nat.mod_eq_of_lt (hblock.trans (by rw [fileMaxBlocks_eq]; decide))
  unfold getCurrentExtentArrIdx
  rw [hnat]
  refine findExtentArrIdx_isSome _ 0 (Nat.zero_le _) ?_
  rw [Nat.zero_add]
  exact hblock

theorem piece_bounds (off : ℕ) {n t : ℕ} (h : t < n) : 0 < min (n - t) (bsize - off % bsize) ∧
    t + min (n - t) (bsize - off % bsize) ≤ n := by
  have : off % bsize < bsize := Nat.mod_lt _ (by decide)
  omega

theorem readLoop_isSome {realBytes : ℕ} (hio : ∀ t, io.data t ≠ .noItem)
    (hrange : offStart + realBytes ≤ fileMaxBlocks * bsize) (fuel tot : ℕ) (done : Finset ℕ) (rioNum : ℕ) :
    ∃ res, readLoop io offStart realBytes fuel tot done rioNum = some res := by
  induction fuel generalizing tot done rioNum with
  | zero => exact ⟨_, rfl⟩
  | succ fuel ih =>
    unfold readLoop
    split
    · exact ⟨_, rfl⟩
    · next htot =>
      dsimp only
      split
      · exact ih ..
      · have hlt : (offStart + tot) % 2 ^ 64 < fileMaxBlocks * bsize := by
          have := Nat.mod_le (offStart + tot) (2 ^ 64)
          omega
        obtain ⟨k, hk⟩ := exists_extent hlt
        rw [hk]
        dsimp only
        cases hdata : io.data tot with
        | inMem => exact ih ..
        | pending => exact ih ..
        | noItem => exact absurd hdata (hio tot)

/-- The piece at `t` of a range, as the loop would take it, lies within the size. -/
def Covered (offStart nBytes size t : ℕ) : Prop :=
  offStart + t + min (nBytes - t) (bsize - (offStart + t) % bsize) ≤ size

theorem Covered.mono {size size' t : ℕ} (h : Covered offStart nBytes size t) (hle : size ≤ size') :
    Covered offStart nBytes size' t := le_trans h hle

/-- What a call of the loop at `ptr` leaves. -/
structure LoopEnd (offStart nBytes ptr : ℕ) (d : Dinode) (done : Finset ℕ) (all : Bool) (d' : Dinode)
    (done' : Finset ℕ) : Prop where
  blocks : d'.iBlockCount = d.iBlockCount
  grows : d.size ≤ d'.size
  within : d'.size ≤ max d.size (offStart + nBytes)
  covered : (∀ t ∈ done, Covered offStart nBytes d.size t) → ∀ t ∈ done', Covered offStart nBytes d'.size t
  whole : (∀ t ∈ done, Covered offStart nBytes d.size t) → all = true → ptr < nBytes → offStart + nBytes ≤ d'.size

theorem writeLoop_spec (hio : ∀ t, io.data t ≠ .noItem) (hlt : nBytes < 2 ^ 32)
    (hrange : offStart + nBytes ≤ fileMaxBlocks * bsize) {fuel ptr : ℕ} (hfuel : nBytes < ptr + fuel)
      (hptr : ptr ≤ nBytes)
    (d : Dinode) (done : Finset ℕ) : ∃ all d' done', writeLoop io offStart nBytes fuel ptr d done = some
      (all, d', done') ∧
      LoopEnd offStart nBytes ptr d done all d' done' ∧ ((∀ t, io.data t = .inMem) → all = true) := by
  induction fuel generalizing ptr d done with
  | zero => omega
  | succ fuel ih =>
    have hmax := fileMaxBlocks_mul
    have htot : ptr % 2 ^ 32 = ptr := Nat.mod_eq_of_lt (by omega)
    have hoff : (offStart + ptr) % 2 ^ 64 = offStart + ptr := Nat.mod_eq_of_lt (by omega)
    unfold writeLoop
    dsimp only
    rw [htot, hoff]
    split
    · exact ⟨true, d, done, rfl, ⟨rfl, le_rfl, le_max_left .., fun h => h, fun _ _ => by omega⟩, fun _ => rfl⟩
    · next hptr' =>
      obtain ⟨hpos, hend⟩ := piece_bounds (offStart + ptr) (not_le.1 hptr')
      split
      · next hmem =>
        obtain ⟨all, d', done', hloop, he, hall⟩ := ih (by omega) hend d done
        refine ⟨all, d', done', hloop, ⟨he.blocks, he.grows, he.within, he.covered, fun hcov ha _ => ?_⟩, hall⟩
        -- the last piece was done before, at the same place
        by_cases hlast : ptr + min (nBytes - ptr) (bsize - (offStart + ptr) % bsize) < nBytes
        · exact he.whole hcov ha hlast
        · have hc : offStart + ptr + min (nBytes - ptr) (bsize - (offStart + ptr) % bsize) ≤ d.size := hcov ptr hmem
          have := he.grows
          omega
      · have hin : offStart + ptr < fileMaxBlocks * bsize := by omega
        obtain ⟨k, hk⟩ := exists_extent hin
        rw [hk]
        dsimp only
        cases hdata : io.data ptr with
        | noItem => exact absurd hdata (hio ptr)
        | pending =>
          refine ⟨false, d, done, rfl, ⟨rfl, le_rfl, le_max_left .., fun h => h, nofun⟩, fun h => ?_⟩
          cases hdata.symm.trans (h ptr)
        | inMem =>
          have hsize : (offStart + ptr + min (nBytes - ptr) (bsize - (offStart + ptr) % bsize)) % 2 ^ 64 =
              offStart + ptr + min (nBytes - ptr) (bsize - (offStart + ptr) % bsize) := Nat.mod_eq_of_lt (by omega)
          obtain ⟨all, d', done', hloop, he, hall⟩ := ih (by omega) hend
            { d with size := max d.size ((offStart + ptr + min (nBytes - ptr) (bsize - (offStart + ptr) % bsize)) % 2 ^ 64) }
            (insert ptr done)
          obtain ⟨hblocks, hgrows, hwithin, hcovered, hwhole⟩ := he
          rw [hsize] at hgrows hwithin hcovered hwhole
          have hcov (h : ∀ t ∈ done, Covered offStart nBytes d.size t) : ∀ t ∈ insert ptr done, Covered offStart nBytes
              (max d.size (offStart + ptr + min (nBytes - ptr) (bsize - (offStart + ptr) % bsize))) t := by
            intro t ht
            rcases Finset.mem_insert.1 ht with rfl | ht
            · exact le_max_right ..
            · exact (h t ht).mono (le_max_left ..)
          dsimp only at hgrows hwithin
          refine ⟨all, d', done', hloop, ⟨hblocks,
            by omega, by omega, fun h => hcovered (hcov h), fun h ha _ => ?_⟩, hall⟩
          by_cases hlast : ptr + min (nBytes - ptr) (bsize - (offStart + ptr) % bsize) < nBytes
          · exact hwhole (hcov h) ha hlast
          · omega

theorem lt_of_writeLoop {fuel ptr : ℕ} (h : writeLoop io offStart nBytes fuel ptr d done = some
    (true, d', done')) : nBytes < 2 ^ 32 := by
  induction fuel generalizing ptr d done with
  | zero => cases h
  | succ fuel ih =>
    unfold writeLoop at h
    dsimp only at h
    split at h
    · omega
    · split at h
      · exact ih h
      · split at h
        · cases h
        · split at h
          · exact ih h
          · cases h
          · cases h

/-! ## The handlers at a request's start -/

section

variable {o : FileObj} {q : RwReq}

theorem processRead_start (hop : q.op = .read) (hs : q.state = .start) :
    (enter o d q).processReq io = if ringDataItemSize < q.count.toNat then some ((enter o d q).setState .retErr)
      else (enter o d q).fetchData io o.off true := by
  unfold processReq
  rw [show (enter o d q).req.op = .read from hop]
  exact if_pos hs

theorem processPread_start (hop : q.op = .pread) (hs : q.state = .start) :
    (enter o d q).processReq io = if d.size < (q.offset.toNat + q.count.toNat) % 2 ^ 64 then
      some ((enter o d q).setState .retErr).finish else (enter o d q).fetchData io q.offset.toNat false := by
  unfold processReq
  rw [show (enter o d q).req.op = .pread from hop]
  exact if_pos hs

theorem processWrite_start (hop : q.op = .write) (hs : q.state = .start) :
    (enter o d q).processReq io = ((enter o d q).modify io o.off true).bind (·.updateInode io) := by
  unfold processReq
  rw [show (enter o d q).req.op = .write from hop]
  exact if_pos hs

theorem processPwrite_start (hop : q.op = .pwrite) (hs : q.state = .start) :
    (enter o d q).processReq io = if ringDataItemSize < q.count.toNat ∨
      q.count = 0 then some ((enter o d q).setState .retErr)
      else ((enter o d q).modify io q.offset.toNat false).bind (·.updateInode io) := by
  unfold processReq
  rw [show (enter o d q).req.op = .pwrite from hop]
  exact if_pos hs

theorem processReq_other_read (hop : q.op = .read ∨ q.op = .pread) (hs : q.state ≠ .start) :
    (enter o d q).processReq io = some (enter o d q).finish := by
  unfold processReq
  rcases hop with hop | hop
  · rw [show (enter o d q).req.op = .read from hop]
    exact if_neg hs
  · rw [show (enter o d q).req.op = .pread from hop]
    exact if_neg hs

theorem processReq_other_write (hop : q.op = .write ∨ q.op = .pwrite) (hs : q.state ≠ .start) :
    (enter o d q).processReq io = (enter o d q).updateInode io := by
  unfold processReq
  rcases hop with hop | hop
  · rw [show (enter o d q).req.op = .write from hop]
    exact if_neg hs
  · rw [show (enter o d q).req.op = .pwrite from hop]
    exact if_neg hs

end

end Ufs.Proof.FileOps
