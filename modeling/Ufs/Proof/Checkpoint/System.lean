import Ufs.Impl.CheckpointRuns
import Ufs.Proof.Journal.Slots

/-!
# The steps of workers that share a journal

`Sys.step_cases` says what each step of the system does, one case for each kind.
-/

namespace Ufs.Impl

open Function (update)
open Option

@[simp] theorem Phase.due_prepared (k : ℕ) : (Phase.prepared k).due = k := rfl
@[simp] theorem Phase.due_idle : Phase.idle.due = 0 := rfl
@[simp] theorem Phase.due_released : Phase.released.due = 0 := rfl

namespace Sys

variable {N : ℕ}

/-- The blocks that the workers are still going to release. -/
def due (s : Sys N) : ℕ := ∑ w, (s.phase w).due

/-- The entry `i` is `e`, and its commit record is on the device where it was written. -/
def Committed (s : Sys N) (i : ℕ) (e : SysEntry N) : Prop :=
  s.entries[i]? = some e ∧ s.device e.commitBlock = some i

theorem onEntry_eq_some {s s' : Sys N} {i : ℕ} {st : EntryState} {f : SysEntry N → Sys N} :
    s.onEntry i st f = some s' ↔ ∃ e, s.entries[i]? = some e ∧ e.state = st ∧ s' = f e := by
  simp only [onEntry, bind_eq_some_iff, ite_none_right_eq_some, Option.some.injEq]
  exact ⟨fun ⟨e, h1, h2, h3⟩ => ⟨e, h1, h2, h3.symm⟩, fun ⟨e, h1, h2, h3⟩ => ⟨e, h1, h2, h3.symm⟩⟩

/-- The three steps of a write of the superblock. -/
def IsWrite (op : Op) : Prop := op = .trySetWriteInProgress ∨ op = .jsuperDurable ∨ op = .onWriteComplete

/-- The steps of an entry after its slot was granted: which state it is in before, and what
becomes of it. -/
def EntryStep (a : Act N) (s s' : Sys N) (i : ℕ) (e e' : SysEntry N) : Prop :=
  (∃ now bitmaps, a = .serializeBody i now bitmaps ∧ e.state = .acquired ∧ s.clock < now ∧
    e' = { e with ustimeSerialized := now, state := .serialized, bitmaps } ∧
    s' = { s.setEntry i e' with clock := now }) ∨
  (a = .bodyWritten i ∧ e.state = .serialized ∧ e' = { e with state := .bodyWritten } ∧
    s' = { s.setEntry i e' with
      device := fun b => if e.startBlock ≤ b ∧ b < e.commitBlock then none else s.device b }) ∨
  (a = .commitWritten i ∧ e.state = .bodyWritten ∧ e' = { e with state := .commitWritten } ∧
    s' = { s.setEntry i e' with device := update s.device e.commitBlock (some i) }) ∨
  (a = .success i ∧ e.state = .commitWritten ∧ e' = { e with state := .succeeded } ∧ s' = s.setEntry i e')

theorem step_cases {a : Act N} {s s' : Sys N} (he : step a s = some s') :
    (∃ w n, a = .acquireNextNSlots w n ∧ 2 ≤ n ∧ n ≤ maxBlocks ∧ (¬ (s.hist.js.acquireNextNSlots n).1.Granted ∧ s' = s ∨
        (s.hist.js.acquireNextNSlots n).1.Granted ∧ s' = { s.setHist (s.hist.acquire n) with
            entries := s.entries ++ [s.newEntry w n s.hist.js.djsuper.head] })) ∨
    (∃ i e e', s.entries[i]? = some e ∧ EntryStep a s s' i e e') ∨
    (∃ w, a = .prepareForCheckpointing w ∧ s.phase w = .idle ∧ s.written = false ∧ s' = s.prepare w) ∨
    (a = .imagesWritten ∧ (∀ w, s.phase w ≠ .idle) ∧ s.written = false ∧ s' = s.writeImages) ∨
    (∃ w k, a = .releaseFirstNSlots w ∧ s.phase w = .prepared k ∧ s.written = true ∧ s' = s.releaseSlots w k) ∨
    (∃ w now, a = .setLastCheckpoint w now ∧ s.phase w = .released ∧ s.clock < now ∧ s' = s.setStamp w now) ∨
    (∃ op h, IsWrite op ∧ s.hist.step op = some h ∧ s' = s.setHist h ∧
      ((∀ w n, a ≠ .acquireNextNSlots w n) ∧ (∀ w, a ≠ .prepareForCheckpointing w) ∧ ∀ w,
        a ≠ .releaseFirstNSlots w)) := by
  cases a with
  | acquireNextNSlots w n =>
    left
    simp only [step] at he
    split at he
    case isFalse => cases he
    rename_i hn
    refine ⟨w, n, rfl, hn.1, hn.2, ?_⟩
    by_cases hg : (s.hist.js.acquireNextNSlots n).1.Granted
    · rw [(JSuper.acquire_eq hg).1] at he
      cases he
      exact .inr ⟨hg, rfl⟩
    · rw [(JSuper.acquire_refused hg).2, Hist.acquire_of_refused hg] at he
      cases he
      exact .inl ⟨hg, rfl⟩
  | serializeBody i now bitmaps =>
    simp only [step] at he
    split at he
    case isFalse => cases he
    obtain ⟨e, h1, h2, rfl⟩ := onEntry_eq_some.1 he
    exact .inr (.inl ⟨i, e, _, h1, .inl ⟨now, bitmaps, rfl, h2, ‹_›, rfl, rfl⟩⟩)
  | bodyWritten i =>
    obtain ⟨e, h1, h2, rfl⟩ := onEntry_eq_some.1 he
    exact .inr (.inl ⟨i, e, _, h1, .inr (.inl ⟨rfl, h2, rfl, rfl⟩)⟩)
  | commitWritten i =>
    obtain ⟨e, h1, h2, rfl⟩ := onEntry_eq_some.1 he
    exact .inr (.inl ⟨i, e, _, h1, .inr (.inr (.inl ⟨rfl, h2, rfl, rfl⟩))⟩)
  | success i =>
    obtain ⟨e, h1, h2, rfl⟩ := onEntry_eq_some.1 he
    exact .inr (.inl ⟨i, e, _, h1, .inr (.inr (.inr ⟨rfl, h2, rfl, rfl⟩))⟩)
  | prepareForCheckpointing w =>
    simp only [step, ite_none_right_eq_some, Option.some.injEq] at he
    obtain ⟨⟨h1, h2⟩, rfl⟩ := he
    exact .inr (.inr (.inl ⟨w, rfl, h1, h2, rfl⟩))
  | imagesWritten =>
    simp only [step, ite_none_right_eq_some, Option.some.injEq] at he
    obtain ⟨⟨h1, h2⟩, rfl⟩ := he
    exact .inr (.inr (.inr (.inl ⟨rfl, h1, h2, rfl⟩)))
  | releaseFirstNSlots w =>
    simp only [step] at he
    split at he
    case h_2 => cases he
    simp only [ite_none_right_eq_some, Option.some.injEq] at he
    obtain ⟨h1, rfl⟩ := he
    exact .inr (.inr (.inr (.inr (.inl ⟨w, _, rfl, ‹_›, h1, rfl⟩))))
  | setLastCheckpoint w now =>
    simp only [step, ite_none_right_eq_some, Option.some.injEq] at he
    obtain ⟨⟨h1, h2⟩, rfl⟩ := he
    exact .inr (.inr (.inr (.inr (.inr (.inl ⟨w, now, rfl, h1, h2, rfl⟩)))))
  | trySetWriteInProgress =>
    obtain ⟨h, h1, rfl⟩ := map_eq_some_iff.1 he
    exact .inr (.inr (.inr (.inr (.inr (.inr ⟨_, h, .inl rfl, h1, rfl, by simp, by simp, by simp⟩)))))
  | jsuperDurable =>
    obtain ⟨h, h1, rfl⟩ := map_eq_some_iff.1 he
    exact .inr (.inr (.inr (.inr (.inr (.inr ⟨_, h, .inr (.inl rfl), h1, rfl, by simp, by simp, by simp⟩)))))
  | onWriteComplete =>
    obtain ⟨h, h1, rfl⟩ := map_eq_some_iff.1 he
    exact .inr (.inr (.inr (.inr (.inr (.inr ⟨_, h, .inr (.inr rfl), h1, rfl, by simp, by simp, by simp⟩)))))

end Sys

end Ufs.Impl
