import Ufs.Impl.Checkpoint
import Ufs.Impl.JournalManager
import Ufs.Proof.Checkpoint.System
import Ufs.Proof.Manager.Refine

/-!
# The managers' journal is that of the system

`Sys` has of a journal manager what the shared `JSuper` and the checkpoint see of it. `Follows` says
so: the `JSuper` is the same, each worker is in the phase that its manager is in, and the superblock
write in progress is the one that a manager waits for. Every step of a manager is then a step of the
system or none (`step_follows`), as long as the checkpoint around it goes on in order (`Ordered`): the
managers alone do not wait for the images to be written. What a worker records when it prepares is
what `CheckpointInput` carries to the release (`prepare_nUsed`).
-/

namespace Ufs.Proof.Checkpoint

open Impl Journal
open Function (update)
open JournalManager (jblocksRequired)

variable {N : ℕ} {J J' : Journals N} {s s' : Sys N} {w : Fin N} {m m' : JournalManager} {js js' : JSuper}

/-- Where a manager is in a checkpoint: it has recorded the size of the ring until it has released
as many blocks, and has then still to set the stamp. -/
def phaseOf (m : JournalManager) : Phase :=
  match m.now with
  | some (.release k _) => .prepared k
  | some (.setLast _) => .released
  | _ => m.nUsed.elim .idle .prepared

/-- The manager is not between the release and the stamp of a checkpoint. -/
def plain : Option Running → Bool
  | some (.release _ _) | some (.setLast _) => false
  | _ => true

/-- The system has the journal, the phases and the superblock write of the managers. -/
structure Follows (J : Journals N) (s : Sys N) : Prop where
  js : s.hist.js = J.js
  phase : ∀ w, s.phase w = phaseOf (J.mgrs w)
  write : ∀ w old, (J.mgrs w).jsuperWrite = some old → ∃ p, s.hist.pending = some p ∧ p.old = old
  one : ∀ w v, (J.mgrs w).jsuperWrite.isSome → (J.mgrs v).jsuperWrite.isSome → w = v
  busy : ∀ w, (J.mgrs w).jsuperWrite.isSome → J.js.writeInProgress = true
  ended : ∀ w, plain (J.mgrs w).now = false → (J.mgrs w).nUsed = none

/-- What a step of a manager asks of the checkpoint around it: workers prepare before the images are
written and release after, the stamps rise, and none is told of a failure. An entry has a body. -/
def Ordered (w : Fin N) (a : JournalAct) (J : Journals N) (s : Sys N) : Prop :=
  match a, (J.mgrs w).now with
  | .prepareForCheckpointing, _ => s.written = false
  | .onCheckpointFailure, _ => False
  | .advance, some (.release _ _) => s.written = true
  | .advance, some (.setLast ts) => s.clock < ts
  | .advance, some .tryNextTransaction => ∀ je ∈ (J.mgrs w).jeQueue.head?,
      ∃ e, (J.mgrs w).entries[je]? = some e ∧ 0 < e.bodySize
  | _, _ => True

/-! ## What the managers do to the `JSuper` -/

theorem phaseOf_plain (h : plain m.now = true) : phaseOf m = m.nUsed.elim .idle .prepared := by
  unfold phaseOf
  split
  · simp_all [plain]
  · simp_all [plain]
  · rfl

/-- A step that has nothing to do with a checkpoint or a superblock write. -/
structure Ordinary (m m' : JournalManager) : Prop where
  nUsed : m'.nUsed = m.nUsed
  write : m'.jsuperWrite = m.jsuperWrite
  plain : plain m'.now = true

theorem Ordinary.phase (h : Ordinary m m') (hm : Checkpoint.plain m.now = true) : phaseOf m' = phaseOf m := by
  rw [phaseOf_plain hm, phaseOf_plain h.plain, h.nUsed]

theorem releasePinnedMem_control (je : ℕ) : (m.releasePinnedMem je).nUsed = m.nUsed ∧
    (m.releasePinnedMem je).jsuperWrite = m.jsuperWrite := by
  unfold JournalManager.releasePinnedMem
  split <;> exact ⟨rfl, rfl⟩

theorem finish_ordinary (je : ℕ) (e : ManagedEntry) (success : Bool) : Ordinary m (m.finish je e success) := by
  obtain ⟨h1, h2⟩ := releasePinnedMem_control (m := m) je
  unfold JournalManager.finish
  split <;> exact ⟨h1, h2, rfl⟩

theorem processJournalEntry_ordinary (je : ℕ) : Ordinary m (m.processJournalEntry je) := by
  unfold JournalManager.processJournalEntry
  split
  · exact ⟨rfl, rfl, rfl⟩
  · split
    case h_4 => split <;> exact ⟨rfl, rfl, rfl⟩
    all_goals first | exact finish_ordinary .. | exact ⟨rfl, rfl, rfl⟩

theorem two_le_jblocksRequired {b : ℕ} (h : 0 < b) : 2 ≤ jblocksRequired b := by
  unfold jblocksRequired bsize
  omega

/-- `tryNextTransaction` asks the `JSuper` for the blocks of one entry, or for nothing. -/
theorem tryNextTransaction_acquires (js : JSuper)
    (hbody : ∀ je ∈ m.jeQueue.head?, ∃ e, m.entries[je]? = some e ∧ 0 < e.bodySize) :
    Ordinary m (m.tryNextTransaction js).2 ∧ ((m.tryNextTransaction js).1 = js ∨
      ∃ n, 2 ≤ n ∧ n ≤ maxBlocks ∧ (m.tryNextTransaction js).1 = (js.acquireNextNSlots n).2) := by
  unfold JournalManager.tryNextTransaction
  split
  · exact ⟨⟨rfl, rfl, rfl⟩, .inl rfl⟩
  rename_i je hje
  split
  · exact ⟨⟨rfl, rfl, rfl⟩, .inl rfl⟩
  obtain ⟨e, he, hpos⟩ := hbody je hje
  have hsize : (((m.modify je fun e => { e with startBlock := 0, nblocks := 0 }).entries[je]?).map
      ManagedEntry.bodySize).getD 0 = e.bodySize := by
    simp [JournalManager.modify, he]
  simp only [hsize]
  split
  · exact ⟨⟨rfl, rfl, rfl⟩, .inl rfl⟩
  rename_i hle
  have hn := two_le_jblocksRequired hpos
  split
  · exact ⟨⟨rfl, rfl, rfl⟩, .inr ⟨_, hn, Nat.le_of_not_lt hle, rfl⟩⟩
  split
  · exact ⟨⟨rfl, rfl, rfl⟩, .inr ⟨_, hn, Nat.le_of_not_lt hle, rfl⟩⟩
  · exact ⟨⟨rfl, rfl, rfl⟩, .inr ⟨_, hn, Nat.le_of_not_lt hle, rfl⟩⟩

theorem writeInProgress_acquire (n : ℕ) : (js.acquireNextNSlots n).2.writeInProgress = js.writeInProgress := by
  by_cases hg : (js.acquireNextNSlots n).1.Granted
  · rw [(JSuper.acquire_eq hg).2]
    show (JSuper.unsafeEnsureNextContiguousRegion _).2.writeInProgress = _
    unfold JSuper.unsafeEnsureNextContiguousRegion
    split
    · rfl
    · split <;> rfl
  · rw [(JSuper.acquire_refused hg).1]

theorem acquire_js (h : Hist) (n : ℕ) : (h.acquire n).js = (h.js.acquireNextNSlots n).2 ∧
    (h.acquire n).pending = h.pending := by
  unfold Hist.acquire
  dsimp only
  split <;> exact ⟨rfl, rfl⟩

/-! ## The steps of the system -/

theorem step_acquire (w : Fin N) {n : ℕ} (h2 : 2 ≤ n) (hmax : n ≤ maxBlocks) :
    ∃ s', Sys.step (.acquireNextNSlots w n) s = some s' ∧ s'.hist = s.hist.acquire n ∧ s'.phase = s.phase := by
  simp only [Sys.step, h2, hmax, and_self, if_true]
  split <;> exact ⟨_, rfl, rfl, rfl⟩

theorem Follows.ended_update (h : Follows J s) (hm : plain m'.now = false → m'.nUsed = none) (v : Fin N)
    (hv : plain (Function.update J.mgrs w m' v).now = false) : (Function.update J.mgrs w m' v).nUsed = none := by
  by_cases hvw : v = w
  · subst hvw
    rw [Function.update_self] at hv ⊢
    exact hm hv
  · rw [Function.update_of_ne hvw] at hv ⊢
    exact h.ended v hv

theorem Follows.phase_same (h : Follows J s) (hphase : phaseOf m' = phaseOf (J.mgrs w)) (v : Fin N) :
    s.phase v = phaseOf (Function.update J.mgrs w m' v) := by
  by_cases hv : v = w
  · subst hv
    rw [Function.update_self, hphase]
    exact h.phase v
  · rw [Function.update_of_ne hv]
    exact h.phase v

/-- A step of manager `w` that does not touch the superblock write. -/
theorem Follows.update (h : Follows J s) (hjs : s'.hist.js = js')
    (hphase : s'.phase = Function.update s.phase w (phaseOf m')) (hpending : s'.hist.pending = s.hist.pending)
    (hbusy : js'.writeInProgress = J.js.writeInProgress) (hwrite : m'.jsuperWrite = (J.mgrs w).jsuperWrite)
    (hended : plain m'.now = false → m'.nUsed = none) : Follows ⟨js', Function.update J.mgrs w m'⟩ s' := by
  have hsame : ∀ v, (Function.update J.mgrs w m' v).jsuperWrite = (J.mgrs v).jsuperWrite := by
    intro v
    by_cases hv : v = w
    · subst hv
      simpa using hwrite
    · simp [hv]
  constructor
  · exact hjs
  · intro v
    rw [hphase]
    by_cases hv : v = w
    · subst hv
      simp
    · simp [hv, h.phase v]
  · intro v old hv
    rw [hpending]
    exact h.write v old (by rw [← hsame v]; exact hv)
  · intro v u hv hu
    exact h.one v u (by rw [← hsame v]; exact hv) (by rw [← hsame u]; exact hu)
  · intro v hv
    rw [hbusy]
    exact h.busy v (by rw [← hsame v]; exact hv)
  · exact h.ended_update hended

/-- A step of manager `w` that the system does not see. -/
theorem Follows.stutter (h : Follows J s) (hphase : phaseOf m' = phaseOf (J.mgrs w))
    (hwrite : m'.jsuperWrite = (J.mgrs w).jsuperWrite) (hended : plain m'.now = false → m'.nUsed = none) :
    Follows ⟨J.js, Function.update J.mgrs w m'⟩ s := by
  apply h.update h.js ?_ rfl rfl hwrite hended
  rw [hphase, ← h.phase w, Function.update_eq_self]

theorem Follows.ordinary (h : Follows J s) (hm : Ordinary (J.mgrs w) m') (hp : plain (J.mgrs w).now = true) :
    Follows ⟨J.js, Function.update J.mgrs w m'⟩ s :=
  h.stutter (hm.phase hp) hm.write fun hf => Bool.noConfusion (hm.plain.symm.trans hf)

/-- Manager `w` calls `writeJSuper`: the system starts the write unless one is in progress. -/
theorem Follows.writeJSuper (h : Follows J s) (f : Option Running) (hp : plain (J.mgrs w).now = true)
    (hf : plain f = true) :
    ∃ s', Sys.step .trySetWriteInProgress s = some s' ∧
      Follows ⟨((J.mgrs w).writeJSuper J.js).1,
        Function.update J.mgrs w (((J.mgrs w).writeJSuper J.js).2.run f)⟩ s' := by
  cases hw : J.js.writeInProgress with
  | true =>
    have hw' : s.hist.js.writeInProgress = true := by rw [h.js, hw]
    refine ⟨s, ?_, ?_⟩
    · simp only [Sys.step, Hist.step, JSuper.trySetWriteInProgress, hw', if_true, Option.map_some]
      rfl
    · simp only [JournalManager.writeJSuper, JSuper.trySetWriteInProgress, hw, if_true]
      exact h.ordinary ⟨rfl, rfl, hf⟩ hp
  | false =>
    have hnone : ∀ v, ¬ (J.mgrs v).jsuperWrite.isSome := fun v hv => by
      have := h.busy v hv
      rw [hw] at this
      cases this
    have hw' : s.hist.js.writeInProgress = false := by rw [h.js, hw]
    refine ⟨s.setHist s.hist.startWrite, ?_, ?_⟩
    · simp only [Sys.step, Hist.step_startWrite hw', Option.map_some]
    · simp only [JournalManager.writeJSuper, JSuper.trySetWriteInProgress, hw, Bool.false_eq_true, if_false]
      have hwrites : ∀ v, (Function.update J.mgrs w
          (JournalManager.run { J.mgrs w with jsuperWrite := some J.js.nblocksUnaccounted } f) v).jsuperWrite.isSome →
          v = w := by
        intro v hv
        by_contra hne
        rw [Function.update_of_ne hne] at hv
        exact hnone v hv
      constructor
      · show { s.hist.js with writeInProgress := true } = _
        rw [h.js]
      · exact h.phase_same ((phaseOf_plain hf).trans (phaseOf_plain hp).symm)
      · intro v old hv
        obtain rfl := hwrites v (by rw [hv]; rfl)
        dsimp only at hv
        rw [Function.update_self] at hv
        cases hv
        exact ⟨_, rfl, by rw [← h.js]⟩
      · intro v u hv hu
        rw [hwrites v hv, hwrites u hu]
      · intro v _
        rfl
      · exact h.ended_update fun hn => Bool.noConfusion (hf.symm.trans hn)

/-- The completion of the superblock write that manager `w` waits for. -/
theorem Follows.jsuperWriteComplete (h : Follows J s) {old : ℕ} (hw : (J.mgrs w).jsuperWrite = some old)
    (m' : JournalManager) (hm : m'.jsuperWrite = none) (hphase : phaseOf m' = phaseOf (J.mgrs w))
    (hended : plain m'.now = false → m'.nUsed = none) :
    ∃ s', Sys.step .onWriteComplete s = some s' ∧
      Follows ⟨J.js.onWriteComplete old, Function.update J.mgrs w m'⟩ s' := by
  obtain ⟨p, hp, rfl⟩ := h.write w old hw
  have hnone : ∀ v, ¬ (Function.update J.mgrs w m' v).jsuperWrite.isSome := by
    intro v hv
    by_cases hne : v = w
    · subst hne
      simp [hm] at hv
    · rw [Function.update_of_ne hne] at hv
      exact hne (h.one v w hv (by rw [hw]; rfl))
  refine ⟨s.setHist (s.hist.endWrite p), ?_, ?_⟩
  · simp only [Sys.step, Hist.step_endWrite hp, Option.map_some]
  constructor
  · show s.hist.js.onWriteComplete p.old = _
    rw [h.js]
  · exact h.phase_same hphase
  · intro v old hv
    exact absurd (by rw [hv]; rfl) (hnone v)
  · intro v u hv
    exact absurd hv (hnone v)
  · intro v hv
    exact absurd hv (hnone v)
  · exact h.ended_update hended

/-! ## The managers and the system -/

/-- A manager goes on: it asks for blocks, starts a write of the superblock, or gives blocks back and
sets the stamp at the end of a checkpoint. -/
theorem advance_follows (h : Follows J s) {f : Running} (hn : (J.mgrs w).now = some f)
    (ho : Ordered w .advance J s) :
    ∃ s', (s' = s ∨ ∃ b, Sys.step b s = some s') ∧
      Follows ⟨((J.mgrs w).advanceRunning J.js f).1,
        Function.update J.mgrs w ((J.mgrs w).advanceRunning J.js f).2⟩ s' := by
  have hplain : plain (some f) = true → plain (J.mgrs w).now = true := fun hf => by rw [hn, hf]
  cases f with
  | tryNextTransaction =>
    simp only [Ordered, hn] at ho
    obtain ⟨hord, hjs | ⟨n, h2, hmax, hjs⟩⟩ := tryNextTransaction_acquires J.js ho
    · refine ⟨s, .inl rfl, ?_⟩
      show Follows ⟨((J.mgrs w).tryNextTransaction J.js).1, _⟩ s
      rw [hjs]
      exact h.ordinary hord (hplain rfl)
    · obtain ⟨s', hstep, hhist, hphase⟩ := step_acquire (s := s) w h2 hmax
      refine ⟨s', .inr ⟨_, hstep⟩, h.update ?_ ?_ ?_ ?_ hord.write ?_⟩
      · rw [hhist, (acquire_js _ _).1, h.js]
        exact hjs.symm
      · rw [hphase]
        show s.phase = Function.update s.phase w (phaseOf ((J.mgrs w).tryNextTransaction J.js).2)
        rw [hord.phase (hplain rfl), ← h.phase w, Function.update_eq_self]
      · rw [hhist, (acquire_js _ _).2]
      · show ((J.mgrs w).tryNextTransaction J.js).1.writeInProgress = _
        rw [hjs, writeInProgress_acquire]
      · exact fun hf => Bool.noConfusion (hord.plain.symm.trans hf)
  | slotAcquired je startIdx n writeJsuper =>
    cases writeJsuper with
    | true =>
      obtain ⟨s', hstep, hf⟩ := h.writeJSuper (some (.slotAcquired je startIdx n false)) (hplain rfl) rfl
      exact ⟨s', .inr ⟨_, hstep⟩, hf⟩
    | false => exact ⟨s, .inl rfl, h.ordinary ⟨rfl, rfl, rfl⟩ (hplain rfl)⟩
  | processJournalEntry je =>
    exact ⟨s, .inl rfl, h.ordinary (processJournalEntry_ordinary je) (hplain rfl)⟩
  | writeJSuper =>
    obtain ⟨s', hstep, hf⟩ := h.writeJSuper none (hplain rfl) rfl
    exact ⟨s', .inr ⟨_, hstep⟩, hf⟩
  | release k ts =>
    simp only [Ordered, hn] at ho
    have hphase : s.phase w = .prepared k := by rw [h.phase w, phaseOf, hn]
    refine ⟨s.releaseSlots w k, .inr ⟨.releaseFirstNSlots w, ?_⟩, h.update ?_ rfl rfl rfl rfl ?_⟩
    · simp only [Sys.step, hphase, ho, if_true]
    · show s.hist.js.releaseFirstNSlots k = _
      rw [h.js]
      rfl
    · exact fun _ => h.ended w (by rw [hn]; rfl)
  | setLast ts =>
    simp only [Ordered, hn] at ho
    have hphase : s.phase w = .released := by rw [h.phase w, phaseOf, hn]
    have hused : (J.mgrs w).nUsed = none := h.ended w (by rw [hn]; rfl)
    refine ⟨s.setStamp w ts, .inr ⟨.setLastCheckpoint w ts, ?_⟩, h.update ?_ ?_ rfl rfl rfl ?_⟩
    · simp only [Sys.step, hphase, ho, and_self, if_true]
    · show s.hist.js.setLastCheckpoint ts = _
      rw [h.js]
      rfl
    · show Function.update s.phase w .idle = Function.update s.phase w ((J.mgrs w).nUsed.elim .idle .prepared)
      rw [hused]
      rfl
    · exact fun _ => hused

theorem writeComplete_ordinary (je : ℕ) (error : Bool) : Ordinary m (m.writeComplete je error) := by
  unfold JournalManager.writeComplete
  dsimp only
  split
  · exact ⟨rfl, rfl, rfl⟩
  · split <;> exact ⟨rfl, rfl, rfl⟩

theorem plain_of_none (h : m.now = none) : plain m.now = true := by
  rw [h]
  rfl

/-- Every step of a manager is a step of the system, or one that the system does not see. -/
theorem step_follows {a : JournalAct} (h : Follows J s) (hstep : Journals.step (w, a) J = some J')
    (ho : Ordered w a J s) : ∃ s', (s' = s ∨ ∃ b, Sys.step b s = some s') ∧ Follows J' s' := by
  obtain ⟨⟨js', m'⟩, hm, rfl⟩ := Option.map_eq_some_iff.1 hstep
  dsimp only at hm ⊢
  cases a with
  | submitJournalEntry bodySize cb =>
    simp only [JournalManager.step, Option.ite_none_right_eq_some, Option.some.injEq] at hm
    obtain ⟨hc, hm⟩ := hm
    cases hm
    exact ⟨s, .inl rfl, h.ordinary ⟨rfl, rfl, rfl⟩ (plain_of_none (Manager.callable_now hc))⟩
  | advance =>
    simp only [JournalManager.step] at hm
    split at hm
    case h_1 f _ hn =>
      have hfollows := advance_follows h hn ho
      rw [Option.some.inj hm] at hfollows
      exact hfollows
    case h_2 i ws hn _ =>
      cases hm
      refine ⟨s, .inl rfl, h.ordinary ?_ (plain_of_none hn)⟩
      unfold JournalManager.jsuperLoop
      split
      · refine ⟨rfl, rfl, ?_⟩
        show plain (if _ then _ else _) = true
        split <;> rfl
      · exact ⟨rfl, rfl, rfl⟩
    case h_3 => cases hm
  | callbackReturns =>
    simp only [JournalManager.step] at hm
    split at hm
    case h_1 ws hn _ =>
      cases hm
      exact ⟨s, .inl rfl, h.ordinary ⟨rfl, rfl, rfl⟩ (plain_of_none hn)⟩
    case h_2 => cases hm
  | writeComplete je error =>
    simp only [JournalManager.step, Option.ite_none_right_eq_some, Option.some.injEq] at hm
    obtain ⟨⟨hi, -⟩, hm⟩ := hm
    cases hm
    exact ⟨s, .inl rfl, h.ordinary (writeComplete_ordinary je error) (plain_of_none (Manager.idle_now hi))⟩
  | jsuperWriteComplete =>
    simp only [JournalManager.step] at hm
    split at hm
    case h_1 old hi hw =>
      cases hm
      obtain ⟨s', hs, hf⟩ := h.jsuperWriteComplete hw
        { J.mgrs w with jsuperWrite := none, waiting := [.jsuperLoop 0] } rfl rfl (h.ended w)
      exact ⟨s', .inr ⟨_, hs⟩, hf⟩
    case h_2 => cases hm
  | prepareForCheckpointing =>
    simp only [JournalManager.step, Option.ite_none_right_eq_some, Option.some.injEq] at hm
    obtain ⟨⟨hi, hu⟩, hm⟩ := hm
    cases hm
    have hp := plain_of_none (Manager.idle_now hi)
    have hphase : s.phase w = .idle := by rw [h.phase w, phaseOf_plain hp, hu]; rfl
    refine ⟨s.prepare w, .inr ⟨.prepareForCheckpointing w, ?_⟩, h.update h.js ?_ rfl rfl rfl ?_⟩
    · simp only [Sys.step, hphase, show s.written = false from ho, and_self, if_true]
    · have hprepared := phaseOf_plain (m := { J.mgrs w with nUsed := some J.js.size }) hp
      rw [hprepared, ← h.js]
      rfl
    · exact fun hf => Bool.noConfusion (hp.symm.trans hf)
  | onCheckpointSuccess ts =>
    simp only [JournalManager.step] at hm
    split at hm
    case h_1 k hi hu =>
      cases hm
      have hp := plain_of_none (Manager.idle_now hi)
      refine ⟨s, .inl rfl, h.stutter ?_ rfl fun _ => rfl⟩
      rw [phaseOf_plain hp, hu]
      rfl
    case h_2 => cases hm
  | onCheckpointFailure => exact absurd ho (by simp [Ordered])

/-- The steps of the system that are not a manager's: those of the device, and of an entry's blocks. -/
def Beside : Act N → Prop
  | .serializeBody .. | .bodyWritten _ | .commitWritten _ | .success _ | .imagesWritten | .jsuperDurable => True
  | _ => False

theorem beside_follows {b : Act N} (h : Follows J s) (hb : Beside b) (hstep : Sys.step b s = some s') :
    Follows J s' := by
  have hsame : s'.hist.js = s.hist.js ∧ s'.hist.pending = s.hist.pending ∧ s'.phase = s.phase := by
    cases b with
    | serializeBody i now bitmaps =>
      simp only [Sys.step, Option.ite_none_right_eq_some, Sys.onEntry_eq_some] at hstep
      obtain ⟨-, e, -, -, rfl⟩ := hstep
      exact ⟨rfl, rfl, rfl⟩
    | bodyWritten i | commitWritten i | success i =>
      obtain ⟨e, -, -, rfl⟩ := Sys.onEntry_eq_some.1 hstep
      exact ⟨rfl, rfl, rfl⟩
    | imagesWritten =>
      simp only [Sys.step, Option.ite_none_right_eq_some, Option.some.injEq] at hstep
      obtain ⟨-, rfl⟩ := hstep
      exact ⟨rfl, rfl, rfl⟩
    | jsuperDurable =>
      simp only [Sys.step, Hist.step, Option.map_map, Option.map_eq_some_iff] at hstep
      obtain ⟨p, -, rfl⟩ := hstep
      exact ⟨rfl, rfl, rfl⟩
    | _ => exact absurd hb id
  obtain ⟨hjs, hpending, hphase⟩ := hsame
  refine ⟨hjs.trans h.js, ?_, ?_, h.one, h.busy, h.ended⟩
  · intro v
    rw [hphase]
    exact h.phase v
  · intro v old hv
    rw [hpending]
    exact h.write v old hv

/-- Before each step of the run the device can go on until the step is in order. -/
def Permits : List (Fin N × JournalAct) → Journals N → Sys N → Prop
  | [], _, _ => True
  | a :: as, J, s => ∃ bs s₁, (∀ b ∈ bs, Beside b) ∧ run Sys.step bs s = some s₁ ∧ Ordered a.1 a.2 J s₁ ∧
      ∀ J' s', Journals.step a J = some J' → Follows J' s' → Permits as J' s'

/-- Every run of the managers in which checkpoints go on in order is one of the system. -/
theorem run_follows {as : List (Fin N × JournalAct)} (h : Follows J s) (hp : Permits as J s)
    (hrun : run Journals.step as J = some J') : ∃ bs s', run Sys.step bs s = some s' ∧ Follows J' s' := by
  induction as generalizing J s with
  | nil =>
    cases hrun
    exact ⟨[], s, rfl, h⟩
  | cons a as ih =>
    obtain ⟨J₁, hstep, hrest⟩ := run_cons_eq_some.1 hrun
    obtain ⟨bs, s₁, hbeside, hbs, hord, hnext⟩ := hp
    have h₁ : Follows J s₁ := run_inv (P := fun b _ => Beside b) (fun b s s' hf hb hs => beside_follows hf hb hs) hbs
      (along_of_mem (fun b hb _ => hbeside b hb) s) h
    obtain ⟨s₂, hmove, h₂⟩ := step_follows h₁ hstep hord
    obtain ⟨cs, s', hcs, h'⟩ := ih h₂ (hnext J₁ s₂ hstep h₂) hrest
    rcases hmove with rfl | ⟨b, hb⟩
    · exact ⟨bs ++ cs, s', by rw [run_append, hbs]; exact hcs, h'⟩
    · refine ⟨bs ++ b :: cs, s', ?_, h'⟩
      rw [run_append, hbs]
      exact run_cons_eq_some.2 ⟨s₂, hb, hcs⟩

/-- All managers at start-up, and the system with the same superblock. -/
theorem start_follows (d : JSuperOnDisk) (flush : Bool) :
    Follows (Journals.start (.ofDisk d) flush) (Sys.start (Hist.start d) : Sys N) where
  js := rfl
  phase _ := rfl
  write _ _ h := by cases h
  one _ _ h := Bool.noConfusion h
  busy _ h := Bool.noConfusion h
  ended _ _ := rfl

/-- The number of blocks that a worker will release is the one in its checkpoint input. -/
theorem prepare_nUsed {δ : Type*} {k : CheckpointWorker δ} {ci : CheckpointInput δ}
    (hsize : k.size = s.hist.js.size) (h : k.prepareForCheckpointing.1 = some ci) :
    (s.prepare w).phase w = .prepared ci.nUsed := by
  have hci : ci.nUsed = k.size := by
    unfold CheckpointWorker.prepareForCheckpointing at h
    dsimp only at h
    split at h
    · cases h
    split at h
    · cases h
    · cases h
      rfl
  rw [hci, hsize]
  exact Function.update_self ..

end Ufs.Proof.Checkpoint
