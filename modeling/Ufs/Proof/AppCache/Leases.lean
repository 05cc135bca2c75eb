import Ufs.Impl.Lease

/-!
# The lease table and the leases

The maps of the table and the contexts on the heap agree (`Table`) as long as write leases are
granted where no lease is, the last read lease of an inode stays, and write leases stay.
-/

namespace Ufs.Proof.AppCache

open Impl LeaseMng
open Function (update update_apply update_self update_of_ne)
open Option

variable {m m' : LeaseMng} {ino : ℕ} {pid : ℤ}

/-- The entry for a process in the map of an inode. -/
def reads (m : LeaseMng) (ino : ℕ) (pid : ℤ) : Option ℕ := (m.readLeaseRecordsMap ino).bind (· pid)

/-- A lease of a type on an inode is live. -/
def HasLease (m : LeaseMng) (ino : ℕ) (typ : FsProcLeaseType) : Prop :=
    ∃ p c, m.ctx p = some c ∧ c.ino = ino ∧ c.type = typ

/-- The maps have the live leases, and no write lease is beside another one. -/
structure Table (m : LeaseMng) : Prop where
  write (ino p : ℕ) : m.writeLeaseRecordMap ino = some p ↔ ∃ c, m.ctx p = some c ∧ c.ino = ino ∧
    c.type = .writeExclusive
  read (ino p : ℕ) (pid : ℤ) : reads m ino pid = some p ↔ ∃ c, m.ctx p = some c ∧ c.ino = ino ∧ c.pid = pid ∧
    c.type = .readShare
  nonempty (ino : ℕ) : m.readLeaseRecordsMap ino ≠ none → HasLease m ino .readShare
  exclusive (ino : ℕ) : m.writeLeaseRecordMap ino ≠ none → m.readLeaseRecordsMap ino = none
  typed (p : ℕ) (c : LeaseCtx) : m.ctx p = some c → 0 < c.pid ∧ c.type ≠ .unknown
  fresh (p : ℕ) : m.nextCtx ≤ p → m.ctx p = none

/-- A process has a number, a write lease is granted where there is no lease and never revoked, and
a read lease that is revoked is not the last one of its inode. -/
def Careful : Label → LeaseMng → Prop
  | .initLeaseRecord ino pid typ _, m => 0 < pid ∧ (typ = .writeExclusive → ∀ typ, ¬ HasLease m ino typ)
  | .tryExtendLease _ _, _ => True
  | .tryInvalidateLease p, m => ∀ c, m.ctx p = some c → c.type = .readShare ∧
      ∃ p' c', p' ≠ p ∧ m.ctx p' = some c' ∧ c'.ino = c.ino ∧ c'.type = .readShare

variable {typ : FsProcLeaseType}

theorem HasLease.keep (h : HasLease m ino typ) (hctx : ∀ p c, m.ctx p = some c → m'.ctx p = some c) :
    HasLease m' ino typ := by
  obtain ⟨p, c, hp, hc⟩ := h
  exact ⟨p, c, hctx p c hp, hc⟩

/-- What an `initLeaseRecord` that is carried out has checked. -/
theorem initLeaseRecord_cases {now : ℕ} (h : m.initLeaseRecord ino pid typ now = some m') (hpid : 0 < pid) :
    m.writeLeaseRecordMap ino = none ∧ reads m ino pid = none ∧ m' = m.addRecord ino pid typ now := by
  obtain ⟨⟨b, t⟩, hquery, h⟩ := bind_eq_some_iff.1 h
  obtain ⟨r, hquery', h⟩ := bind_eq_some_iff.1 h
  obtain ⟨hchecked, h⟩ := ite_none_right_eq_some.1 h
  unfold queryValidExistingLease at hquery
  unfold queryValidExistingLeaseForApp at hquery'
  unfold reads
  grind

theorem Table.initLeaseRecord (h : Table m) {now : ℕ} (hs : m.initLeaseRecord ino pid typ now = some m')
    (hc : Careful (.initLeaseRecord ino pid typ now) m) : Table m' := by
  obtain ⟨hpid, hfree⟩ := hc
  obtain ⟨hw, hr, rfl⟩ := initLeaseRecord_cases hs hpid
  have hnext := h.fresh _ le_rfl
  have hkeep (p : ℕ) (c : LeaseCtx) (hp : m.ctx p = some c) :
    update m.ctx m.nextCtx (some ⟨ino, pid, now, typ⟩) p = some c := by
    grind [update_apply]
  obtain ⟨hwrite, hread, hne, hex, htyped, hfresh⟩ := h
  cases typ with
  | unknown => exact ⟨hwrite, hread, hne, hex, htyped, hfresh⟩
  | readShare =>
    have hreads (ino' : ℕ) (pid' : ℤ) : reads (m.addRecord ino pid .readShare now) ino' pid' =
        if ino' = ino ∧ pid' = pid then some m.nextCtx else reads m ino' pid' := by
      unfold reads at hr ⊢
      rcases eq_or_ne ino' ino with rfl | hne
      · cases hmap : m.readLeaseRecordsMap ino' <;> simp_all [addRecord, emplace, update_apply]
      · simp [addRecord, hne]
    refine ⟨fun ino' p => ?_, fun ino' p pid' => ?_, fun ino' hsome => ?_, fun ino' hsome => ?_, fun p c hp => ?_,
      fun p hle => ?_⟩
    · simp only [addRecord, update_apply]
      grind
    · rw [hreads]
      simp only [addRecord, update_apply]
      grind
    · rcases eq_or_ne ino' ino with rfl | hino
      · exact ⟨m.nextCtx, ⟨ino', pid, now, .readShare⟩, update_self .., rfl, rfl⟩
      · exact (hne ino' (by simpa [addRecord, hino] using hsome)).keep hkeep
    · have hino : ino' ≠ ino := fun heq => hsome (heq ▸ hw)
      exact (update_of_ne hino ..).trans (hex ino' hsome)
    · simp only [addRecord, update_apply] at hp
      grind
    · simp only [addRecord, update_apply] at hle ⊢
      grind
  | writeExclusive =>
    have hnone : m.readLeaseRecordsMap ino = none := by
      by_contra hsome
      exact hfree rfl _ (hne ino hsome)
    have hmade (ino' : ℕ) : (m.addRecord ino pid .writeExclusive now).writeLeaseRecordMap ino' =
        if ino' = ino then some m.nextCtx else m.writeLeaseRecordMap ino' := by
      simp [addRecord, emplace, hw, update_apply]
    refine ⟨fun ino' p => ?_, fun ino' p pid' => ?_, fun ino' hsome => ?_, fun ino' hsome => ?_, fun p c hp => ?_,
      fun p hle => ?_⟩
    · rw [hmade]
      simp only [addRecord, update_apply]
      grind [HasLease]
    · rw [show reads (m.addRecord ino pid .writeExclusive now) ino' pid' = reads m ino' pid' from rfl]
      simp only [addRecord, update_apply]
      grind
    · exact (hne ino' hsome).keep hkeep
    · rw [hmade] at hsome
      change m.readLeaseRecordsMap ino' = none
      grind
    · simp only [addRecord, update_apply] at hp
      grind
    · simp only [addRecord, update_apply] at hle ⊢
      grind

theorem Table.tryExtendLease (h : Table m) {p now : ℕ} (hs : m.tryExtendLease p now = some m') : Table m' := by
  obtain ⟨c, hp, rfl⟩ := map_eq_some_iff.1 hs
  obtain ⟨hwrite, hread, hne, hex, htyped, hfresh⟩ := h
  refine ⟨fun ino' p => ?_, fun ino' p pid' => (hread ino' p pid').trans ?_, fun ino' hsome => ?_, hex,
    fun p c hp => ?_, fun p hle => ?_⟩
  · simp only [update_apply]
    grind
  · simp only [update_apply]
    grind
  · simp only [update_apply, HasLease] at hsome hne ⊢
    grind
  · simp only [update_apply] at hp
    grind
  · simp only [update_apply] at hle ⊢
    grind

theorem Table.tryInvalidateLease (h : Table m) {p : ℕ} (hs : m.tryInvalidateLease p = some m')
    (hc : Careful (.tryInvalidateLease p) m) :
    Table m' := by
  obtain ⟨c, hp, hs⟩ := bind_eq_some_iff.1 hs
  obtain ⟨htype, p1, c1, hne1, hp1, hino, htype1⟩ := hc c hp
  rw [htype] at hs
  obtain ⟨rmap, hmap, rfl⟩ := map_eq_some_iff.1 hs
  obtain ⟨hwrite, hread, hne, hex, htyped, hfresh⟩ := h
  have hown := (hread c.ino p c.pid).2 ⟨c, hp, rfl, rfl, htype⟩
  refine ⟨fun ino' p => ?_, fun ino' p' pid' => ?_, fun ino' hsome => ?_, fun ino' hsome => ?_, fun p c hp => ?_,
    fun p hle => ?_⟩
  · simp only [update_apply]
    grind
  · have hold := hread ino' p' pid'
    simp only [reads, update_apply] at hown hold ⊢
    grind
  · simp only [update_apply, HasLease] at hsome hne ⊢
    grind
  · simp only [update_apply] at hsome ⊢
    grind
  · simp only [update_apply] at hp
    grind
  · simp only [update_apply] at hle ⊢
    grind

theorem table_init : Table LeaseMng.init :=
  ⟨fun _ _ => by simp [LeaseMng.init], fun _ _ _ => by simp [LeaseMng.init, reads], fun _ h => absurd rfl h, fun _ h => absurd rfl h,
    nofun, fun _ _ => rfl⟩

theorem Table.step (l : Label) (h : Table m) (hc : Careful l m) (hs : LeaseMng.step l m = some m') : Table m' := by
  cases l with
  | initLeaseRecord ino pid typ now => exact h.initLeaseRecord hs hc
  | tryExtendLease p now => exact h.tryExtendLease hs
  | tryInvalidateLease p => exact h.tryInvalidateLease hs hc

theorem Table.write_alone (h : Table m) {p p' : ℕ} {c c' : LeaseCtx} (hp : m.ctx p = some c) (hp' : m.ctx p' = some c')
    (htype : c.type = .writeExclusive) (hino : c'.ino = c.ino) : p' = p := by
  have hsome := (h.write c.ino p).2 ⟨c, hp, rfl, htype⟩
  cases htype' : c'.type with
  | unknown => exact absurd htype' (h.typed p' c' hp').2
  | readShare =>
    have hreads := (h.read c.ino p' c'.pid).2 ⟨c', hp', hino, rfl, htype'⟩
    rw [reads, h.exclusive c.ino (by rw [hsome]; nofun)] at hreads
    cases hreads
  | writeExclusive =>
    rw [(h.write c.ino p').2 ⟨c', hp', hino, htype'⟩] at hsome
    exact Option.some.inj hsome

theorem Table.hasWrite (h : Table m) : HasLease m ino .writeExclusive ↔ m.writeLeaseRecordMap ino ≠ none := by
  refine ⟨fun ⟨p, c, hp, hino, htype⟩ hnone => ?_, fun hsome => ?_⟩
  · rw [(h.write ino p).2 ⟨c, hp, hino, htype⟩] at hnone
    cases hnone
  · obtain ⟨p, hp⟩ := ne_none_iff_exists'.1 hsome
    exact ⟨p, (h.write ino p).1 hp⟩

theorem Table.hasRead (h : Table m) : HasLease m ino .readShare ↔ m.readLeaseRecordsMap ino ≠ none := by
  refine ⟨fun ⟨p, c, hp, hino, htype⟩ hnone => ?_, h.nonempty ino⟩
  have hreads := (h.read ino p c.pid).2 ⟨c, hp, hino, rfl, htype⟩
  rw [reads, hnone] at hreads
  cases hreads

theorem Table.query (h : Table m) : ∃ found typ, m.queryValidExistingLease ino = some (found, typ) ∧
    (typ = .writeExclusive ↔ HasLease m ino .writeExclusive) ∧ (typ = .readShare ↔ HasLease m ino .readShare) := by
  have hex := h.exclusive ino
  rw [h.hasWrite, h.hasRead]
  unfold queryValidExistingLease
  cases hw : m.writeLeaseRecordMap ino <;> cases hr : m.readLeaseRecordsMap ino <;> simp_all

theorem Table.queryForApp (h : Table m) : ∃ r, m.queryValidExistingLeaseForApp ino pid = some r ∧
    ∀ p, r = some p ↔ ∃ c, m.ctx p = some c ∧ c.ino = ino ∧ c.pid = pid := by
  unfold queryValidExistingLeaseForApp
  cases hw : m.writeLeaseRecordMap ino with
  | some p =>
    obtain ⟨c, hp, hino, htype⟩ := (h.write ino p).1 hw
    have halone (p' : ℕ) (c' : LeaseCtx) (hp' : m.ctx p' = some c') (hino' : c'.ino = ino) :=
      h.write_alone hp hp' htype (by omega)
    have hpos := (h.typed p c hp).1
    refine ⟨if c.pid = pid then some p else none, ?_, fun p' => by grind⟩
    rw [h.exclusive ino (by rw [hw]; nofun)]
    by_cases hpid : 0 < pid
    · simp [hpid, hp]
    · simp [hpid, show c.pid ≠ pid by omega]
  | none =>
    have hreads (p : ℕ) : (∃ c, m.ctx p = some c ∧ c.ino = ino ∧ c.pid = pid) ↔ reads m ino pid = some p := by
      rw [h.read]
      refine exists_congr fun c => ⟨fun ⟨hp, hino, hpid⟩ => ⟨hp, hino, hpid, ?_⟩, fun ⟨hp, hino, hpid, _⟩ =>
        ⟨hp, hino, hpid⟩⟩
      cases htype : c.type with
      | unknown => exact absurd htype (h.typed p c hp).2
      | readShare => rfl
      | writeExclusive => exact nomatch hw.symm.trans ((h.write ino p).2 ⟨c, hp, hino, htype⟩)
    cases hr : m.readLeaseRecordsMap ino with
    | none => exact ⟨none, rfl, fun p => by rw [hreads, reads, hr]; simp⟩
    | some rmap =>
      refine ⟨_, rfl, fun p => ?_⟩
      have hpos (hp : reads m ino pid = some p) : 0 < pid := by
        obtain ⟨c, hc, -, rfl, -⟩ := (h.read ino p pid).1 hp
        exact (h.typed p c hc).1
      rw [hreads]
      rw [reads, hr, bind_some] at hpos ⊢
      grind

/-- After a run of careful calls the queries report the leases that are live, and nothing is beside a write lease. -/
theorem lease_table_exact (ls : List Label) (hrun : run LeaseMng.step ls init = some m)
    (hc : Along LeaseMng.step Careful ls init) :
    (∀ ino, ∃ found typ, m.queryValidExistingLease ino = some (found, typ) ∧
      (typ = .writeExclusive ↔ HasLease m ino .writeExclusive) ∧ (typ = .readShare ↔ HasLease m ino .readShare)) ∧
    (∀ ino pid, ∃ r, m.queryValidExistingLeaseForApp ino pid = some r ∧ ∀ p, r = some p ↔ ∃ c, m.ctx p = some c ∧
      c.ino = ino ∧ c.pid = pid) ∧
    ∀ p p' c c', m.ctx p = some c → m.ctx p' = some c' → c.type = .writeExclusive → c'.ino = c.ino → p' = p := by
  have h : Table m := run_inv (P := Careful) (I := Table) (fun l _ _ hi hp => Table.step l hi hp) hrun hc table_init
  exact ⟨fun _ => h.query, fun _ _ => h.queryForApp, fun _ _ _ _ => h.write_alone⟩

/-- Two processes read a file, one of them ends its lease, and it writes another file. -/
theorem lease_table_exact_two : ∃ m, run LeaseMng.step [.initLeaseRecord 1 7 .readShare 0,
    .initLeaseRecord 1 8 .readShare 0,
    .tryInvalidateLease 0, .initLeaseRecord 2 7 .writeExclusive 3] init = some m ∧
    ∃ r, m.queryValidExistingLeaseForApp 2 7 = some r ∧ ∀ p, r = some p ↔ ∃ c, m.ctx p = some c ∧ c.ino = 2 ∧
      c.pid = 7 := by
  refine ⟨_, rfl, (lease_table_exact [.initLeaseRecord 1 7 .readShare 0, .initLeaseRecord 1 8 .readShare 0,
    .tryInvalidateLease 0,
    .initLeaseRecord 2 7 .writeExclusive 3] rfl ⟨⟨by decide, nofun⟩, ⟨by decide, nofun⟩, ?_, ⟨by decide, ?_⟩,
      trivial⟩).2.1 2 7⟩
  · rintro c hp
    cases hp
    exact ⟨rfl, 1, ⟨1, 8, 0, .readShare⟩, by decide, rfl, rfl, rfl⟩
  · rintro - typ ⟨p, c, hp, hino, -⟩
    rcases p with - | - | p <;> cases hp
    cases hino

/-- A write lease that is revoked stays in the map, and so does the map of an inode without its last
reader. A write lease is granted beside a read lease, and the next query throws. -/
theorem leases_not_exact : (∃ m, run LeaseMng.step [.initLeaseRecord 5 7 .writeExclusive 0,
    .tryInvalidateLease 0] init = some m ∧
      m.ctx 0 = none ∧ m.writeLeaseRecordMap 5 = some 0 ∧ m.queryValidExistingLease 5 = some (true, .writeExclusive)) ∧
    (∃ m, run LeaseMng.step [.initLeaseRecord 5 7 .readShare 0, .tryInvalidateLease 0] init = some m ∧
      (∀ p, m.ctx p = none) ∧ m.queryValidExistingLease 5 = some (true, .readShare)) ∧
    ∃ m, run LeaseMng.step [.initLeaseRecord 5 7 .readShare 0, .initLeaseRecord 5 8 .writeExclusive 0] init = some m ∧
      m.queryValidExistingLease 5 = none :=
  ⟨⟨_, rfl, rfl, rfl, rfl⟩, ⟨_, rfl, fun p => by cases p <;> rfl, rfl⟩, ⟨_, rfl, rfl⟩⟩

end Ufs.Proof.AppCache
