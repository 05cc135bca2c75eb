import Mathlib.Algebra.Ring.Nat
import Mathlib.Data.List.Nodup
import Ufs.Impl.LinkCounts

/-!
# What the counts in the inodes count

The entry count of a directory is the number of its entries, 16 bits of it. The link count of a
directory that has a name is one more than the number of directories that were ever made in it, 8
bits of it: nothing lowers it when one of them goes.
-/

namespace Ufs.Proof.Inodes

open Impl LinkCounts
open Function (update update_of_ne update_self update_apply)
open BitVec (ofNat_add toNat_add toNat_ofNat ofNat)
open NamedEntry (ino)
open List Option

variable {t t' : LinkCounts} {i : ℕ} {e dst : NamedEntry} {es : List NamedEntry}

/-- The counters of each inode follow its entries: one name an inode, a link for each directory ever
made in a directory, modulo the widths of the fields. -/
structure Counted (t : LinkCounts) : Prop where
  nodup : (t.dentries.map NamedEntry.ino).Nodup
  entry : ∀ e ∈ t.dentries, e.ino ≠ 0 ∧ e.ino < t.nextIno ∧ e.dir < t.nextIno
  nlink : ∀ i, i = 0 ∨ i ∈ t.dentries.map NamedEntry.ino → t.nlink i = BitVec.ofNat 8 (1 + t.made i)
  count : ∀ d < t.nextIno, t.isDir d = true → t.dentryCount d = BitVec.ofNat 16 (2 + t.dentries.countP (·.dir = d))
  made : ∀ i, t.nextIno ≤ i ∨ t.isDir i = false → t.made i = 0
  root : 0 < t.nextIno
  live : ∀ i, t.live i = true → i < t.nextIno

/-- The number of entries of directory `d`. -/
def entriesOf (es : List NamedEntry) (d : ℕ) : ℕ := es.countP (·.dir = d)

variable {c : ℕ → BitVec 16}

theorem Counted.entries (h : Counted t) (es : List NamedEntry) (hnd : (es.map ino).Nodup)
    (hes : ∀ x ∈ es, x ∈ t.dentries ∨ x.ino ≠ 0 ∧ x.ino < t.nextIno ∧ x.dir < t.nextIno ∧
      t.nlink x.ino = ofNat 8 (1 + t.made x.ino))
    (hcount : ∀ j, c j + ofNat 16 (entriesOf t.dentries j) = t.dentryCount j + ofNat 16 (entriesOf es j)) :
    Counted { t with dentries := es, dentryCount := c } := by
  refine ⟨hnd, fun x hx => ?_, fun j hj => ?_, fun j hlt hdir => ?_, h.made, h.root, h.live⟩
  · rcases hes x hx with hx | ⟨h0, hlt, hd, -⟩
    · exact h.entry x hx
    · exact ⟨h0, hlt, hd⟩
  · rcases hj with hj | hj
    · exact h.nlink j (.inl hj)
    · obtain ⟨x, hx, rfl⟩ := List.mem_map.1 hj
      rcases hes x hx with hx | ⟨-, -, -, hl⟩
      · exact h.nlink x.ino (.inr (List.mem_map_of_mem hx))
      · exact hl
  · have hj := congrArg BitVec.toNat (hcount j)
    rw [h.count j hlt hdir] at hj
    have hc := (c j).isLt
    apply BitVec.eq_of_toNat_eq
    simp only [toNat_add, toNat_ofNat, entriesOf] at hj ⊢
    omega

theorem ino_notMem_erase (hnd : (t.dentries.map ino).Nodup) (he : e ∈ t.dentries) :
    e.ino ∉ (t.dentries.erase e).map ino := by
  have hperm := (perm_cons_erase he).map ino
  exact (nodup_cons.1 (hperm.nodup_iff.1 hnd)).1

theorem entriesOf_cons (e : NamedEntry) (es : List NamedEntry) (j : ℕ) :
    entriesOf (e :: es) j = entriesOf es j + if e.dir = j then 1 else 0 := by simp [entriesOf, countP_cons]

theorem entriesOf_erase (he : e ∈ es) (j : ℕ) : entriesOf es j = entriesOf (es.erase e) j + if e.dir =
    j then 1 else 0 := by
  rw [← entriesOf_cons]
  exact (perm_cons_erase he).countP_eq _

theorem adjust_toNat {d j m n : ℕ} {delta : BitVec 16}
    (h : (delta.toNat + m) % 2 ^ 16 = (n + if d = j then 0 else delta.toNat) % 2 ^ 16 ) :
    update c d (c d + delta) j + ofNat 16 m = c j + ofNat 16 n := by
  apply BitVec.eq_of_toNat_eq
  rcases eq_or_ne j d with rfl | hne
  · simp only [update_self, toNat_add, toNat_ofNat, if_true] at h ⊢
    omega
  · simp only [update_of_ne hne, toNat_add, toNat_ofNat, if_neg hne.symm] at h ⊢
    omega

theorem Counted.remove (h : Counted t) (he : e ∈ t.dentries) :
    Counted ({ t with dentries := t.dentries.erase e }.adjustDentryCount e.dir (-1)) := by
  refine h.entries _ ((erase_sublist.map _).nodup h.nodup) (fun x hx => .inl (mem_of_mem_erase hx)) fun j => ?_
  have herase := entriesOf_erase he j
  refine adjust_toNat ?_
  split_ifs at herase ⊢ <;> simp <;> omega

theorem Counted.link (h : Counted t) (he : e.ino ∉ t.dentries.map ino)
    (hnew : e.ino ≠ 0 ∧ e.ino < t.nextIno ∧ e.dir < t.nextIno ∧ t.nlink e.ino = ofNat 8 (1 + t.made e.ino)) :
    Counted ({ t with dentries := e :: t.dentries }.adjustDentryCount e.dir 1) := by
  refine h.entries _ (nodup_cons.2 ⟨he, h.nodup⟩) (fun x hx => ?_) fun j => ?_
  · rcases mem_cons.1 hx with rfl | hx
    · exact .inr hnew
    · exact .inl hx
  · have hcons := entriesOf_cons e t.dentries j
    refine adjust_toNat ?_
    split_ifs at hcons ⊢ <;> simp <;> omega

theorem Counted.ownerUnlinkInode (h : Counted t) (hi : i ∉ t.dentries.map ino) (h0 : i ≠ 0) :
    Counted (t.ownerUnlinkInode i) := by
  refine ⟨h.nodup, h.entry, fun j hj => ?_, h.count, h.made, h.root, fun j hj => h.live j ?_⟩
  · have hne : j ≠ i := by
      rintro rfl
      exact hj.elim h0 hi
    exact (update_of_ne hne ..).trans (h.nlink j hj)
  · unfold LinkCounts.ownerUnlinkInode at hj
    dsimp only at hj
    split_ifs at hj
    · rw [update_apply] at hj
      split_ifs at hj
      exact hj
    · exact hj

/-! ## Steps -/

theorem mem_of_lookup {dir name : ℕ} (h : t.lookup dir name = some e) :
    e ∈ t.dentries ∧ e.dir = dir ∧ e.name = name := by
  have hp := List.find?_some h
  simp only [decide_eq_true_eq] at hp
  exact ⟨List.mem_of_find?_eq_some h, hp⟩

section

variable (h : Counted t)

include h

theorem Counted.unlink (he : e ∈ t.dentries) : Counted (t.unlink e) :=
  (h.remove he).ownerUnlinkInode (ino_notMem_erase h.nodup he) (h.entry e he).1

theorem Counted.newInode (isDir : Bool) : Counted { t with
    isDir := update t.isDir t.nextIno isDir
    nlink := update t.nlink t.nextIno 1
    dentryCount := update t.dentryCount t.nextIno (if isDir then 2 else 0)
    live := update t.live t.nextIno true
    nextIno := t.nextIno + 1 } := by
  refine ⟨h.nodup, fun e he => ?_, fun j hj => ?_, fun d hlt hdir => ?_, fun j hj => ?_, Nat.succ_pos _, fun j hj => ?_⟩
  · obtain ⟨h0, h1, h2⟩ := h.entry e he
    exact ⟨h0, Nat.lt_succ_of_lt h1, Nat.lt_succ_of_lt h2⟩
  · have hne : j ≠ t.nextIno := by
      rcases hj with rfl | hj
      · exact Nat.ne_of_lt h.root
      · obtain ⟨e, he, rfl⟩ := List.mem_map.1 hj
        exact Nat.ne_of_lt (h.entry e he).2.1
    exact (update_of_ne hne ..).trans (h.nlink j hj)
  · dsimp only at hlt hdir ⊢
    rcases eq_or_ne d t.nextIno with rfl | hne
    · -- no entry is in a directory that is new
      have hzero : t.dentries.countP (·.dir = t.nextIno) = 0 := by
        rw [countP_eq_zero]
        intro e he hd
        have hlt := (h.entry e he).2.2
        simp only [decide_eq_true_eq] at hd
        omega
      rw [update_self] at hdir ⊢
      rw [hzero, hdir]
      rfl
    · rw [update_of_ne hne] at hdir ⊢
      exact h.count d (by omega) hdir
  · dsimp only at hj
    rcases eq_or_ne j t.nextIno with rfl | hne
    · exact h.made _ (.inl (Nat.le_refl _))
    · rw [update_of_ne hne] at hj
      exact h.made j (hj.imp_left fun hle => by omega)
  · rcases eq_or_ne j t.nextIno with rfl | hne
    · exact Nat.lt_succ_self _
    · exact Nat.lt_succ_of_lt (h.live j ((update_of_ne hne ..).symm.trans hj))

theorem Counted.mkdir {dir : ℕ} (hlt : dir < t.nextIno) (hdir : t.isDir dir = true) :
    Counted { t.adjustNlink dir 1 with made := update t.made dir (t.made dir + 1) } := by
  refine ⟨h.nodup, h.entry, fun j hj => ?_, h.count, fun j hj => ?_, h.root, h.live⟩
  · have hold := h.nlink j hj
    change update t.nlink dir (t.nlink dir + 1) j = ofNat 8 (1 + update t.made dir (t.made dir + 1) j)
    rcases eq_or_ne j dir with rfl | hne
    · rw [update_self, update_self, hold, ← Nat.add_assoc, ofNat_add (1 + t.made j) 1]
      rfl
    · rw [update_of_ne hne, update_of_ne hne, hold]
  · have hne : j ≠ dir := by
      rintro rfl
      rcases hj with hj | hj
      · exact absurd hj (Nat.not_le.2 hlt)
      · exact absurd (hdir.symm.trans hj) nofun
    exact (update_of_ne hne ..).trans (h.made j hj)

theorem Counted.create {dir name : ℕ} {isDir : Bool} (hlt : dir < t.nextIno) (hdir : t.isDir dir = true) :
    Counted (t.create dir name isDir) := by
  have hname : t.nextIno ∉ t.dentries.map ino := by
    rw [List.mem_map]
    rintro ⟨e, he, heq⟩
    exact Nat.ne_of_lt (h.entry e he).2.1 heq
  have hnlink : (ofNat 8 1) = ofNat 8 (1 + t.made t.nextIno) := by
    rw [h.made _ (.inl (Nat.le_refl _))]
  have hlink := (h.newInode isDir).link (e := ⟨dir, name, t.nextIno⟩) hname
    ⟨Nat.ne_of_gt h.root, Nat.lt_succ_self _, Nat.lt_succ_of_lt hlt, (update_self ..).trans hnlink⟩
  cases isDir with
  | false => exact hlink
  | true =>
    refine hlink.mkdir (Nat.lt_succ_of_lt hlt) ?_
    exact (update_of_ne (Nat.ne_of_lt hlt) ..).trans hdir

theorem Counted.rename (he : e ∈ t.dentries) {dstDir dstName : ℕ} (hlt : dstDir < t.nextIno)
    (hne : (e.dir, e.name) ≠ (dstDir, dstName)) : Counted (t.rename e dstDir dstName) := by
  have hnew (es : List NamedEntry) : (NamedEntry.mk dstDir dstName e.ino :: es).erase e =
    ⟨dstDir, dstName, e.ino⟩ :: es.erase e := by
    refine erase_cons_tail fun hbeq => hne ?_
    rw [← beq_iff_eq.1 hbeq]
  obtain ⟨h0, hino, -⟩ := h.entry e he
  have hentry : e.ino ≠ 0 ∧ e.ino < t.nextIno ∧ dstDir < t.nextIno ∧ t.nlink e.ino = ofNat 8 (1 + t.made e.ino) :=
    ⟨h0, hino, hlt, h.nlink e.ino (.inr (List.mem_map_of_mem he))⟩
  have hmoved {es : List NamedEntry} {c : ℕ → BitVec 16} (hsub : es.Sublist t.dentries) (he : e ∈ es)
      (hcount : ∀ j, c j + ofNat 16 (entriesOf t.dentries j) =
        t.dentryCount j + ofNat 16 (entriesOf (⟨dstDir, dstName, e.ino⟩ :: es.erase e) j)) :
      Counted { t with dentries := (NamedEntry.mk dstDir dstName e.ino :: es).erase e, dentryCount := c } := by
    rw [hnew]
    have hperm := (perm_cons_erase he).map ino
    refine h.entries _ (hperm.nodup_iff.1 ((hsub.map _).nodup h.nodup)) (fun x hx => ?_) hcount
    rcases mem_cons.1 hx with rfl | hx
    · exact .inr hentry
    · exact .inl (hsub.subset (mem_of_mem_erase hx))
  unfold LinkCounts.rename
  cases hl : t.lookup dstDir dstName with
  | none =>
    refine hmoved (.refl _) he fun j => ?_
    have herase := entriesOf_erase he j
    have hcons := entriesOf_cons ⟨dstDir, dstName, e.ino⟩ (t.dentries.erase e) j
    refine (adjust_toNat (n := entriesOf (t.dentries.erase e) j) ?_).trans (adjust_toNat ?_)
    · split_ifs at herase ⊢ <;> simp <;> omega
    · split_ifs at hcons ⊢ <;> simp <;> omega
  | some dst =>
    obtain ⟨hdst, rfl, rfl⟩ := mem_of_lookup hl
    have hmem : e ∈ t.dentries.erase dst := (mem_erase_of_ne (by rintro rfl; exact hne rfl)).2 he
    refine (hmoved erase_sublist hmem fun j => ?_).ownerUnlinkInode ?_ (h.entry dst hdst).1
    · have hdstErase := entriesOf_erase hdst j
      have herase := entriesOf_erase hmem j
      have hcons := entriesOf_cons ⟨dst.dir, dst.name, e.ino⟩ ((t.dentries.erase dst).erase e) j
      refine adjust_toNat ?_
      split_ifs at hdstErase herase hcons ⊢ <;> simp <;> omega
    · rw [hnew]
      have hperm := (perm_cons_erase hmem).map ino
      exact fun hin => ino_notMem_erase h.nodup hdst (hperm.mem_iff.2 hin)

end

theorem Counted.step {l : LinkCounts.Label} (h : Counted t) (hstep : LinkCounts.step l t = some t') : Counted t' := by
  cases l with
  | create dir name isDir =>
    obtain ⟨⟨⟨hl, hd⟩, -⟩, hstep⟩ := ite_none_right_eq_some.1 hstep
    cases hstep
    exact h.create (h.live dir hl) hd
  | unlink dir name =>
    obtain ⟨e, he, hstep⟩ := bind_eq_some_iff.1 hstep
    obtain ⟨-, hstep⟩ := ite_none_right_eq_some.1 hstep
    cases hstep
    exact h.unlink (mem_of_lookup he).1
  | rename dir name dstDir dstName =>
    obtain ⟨e, he, hstep⟩ := bind_eq_some_iff.1 hstep
    obtain ⟨⟨⟨hl, -⟩, hne, -⟩, hstep⟩ := ite_none_right_eq_some.1 hstep
    cases hstep
    obtain ⟨hmem, rfl, rfl⟩ := mem_of_lookup he
    exact h.rename hmem (h.live dstDir hl) hne

end Ufs.Proof.Inodes
