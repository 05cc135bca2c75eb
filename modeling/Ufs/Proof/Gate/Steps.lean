import Ufs.Impl.FsProc

/-!
# What a step of the workers does

Every step sets the thread of one worker, or puts a message into a ring, or both, after it may have
taken one from a ring or handed an input over. `Advances` are the ways in which
`checkpointAllJournals` goes on, `Handles` what the messages do, and `Steps` the steps
(`step_steps`), by cases on which the invariants of the gate are proved.
-/

namespace Ufs.Proof.Gate

open Impl FsProc

variable {N : ℕ}

/-! ## The updates -/

section

variable {s : FsProc N} {w : Fin N}

theorem thread_setThread (t : ThreadState N) (v : Fin N) : ((s.setThread w t).workers v).thread = if v =
    w then t else (s.workers v).thread := by
  by_cases hv : v = w
  · subst hv
    simp [setThread, setWorker]
  · simp [setThread, setWorker, hv]

@[simp] theorem ring_setThread (t : ThreadState N) (v : Fin N) :
    ((s.setThread w t).workers v).ring = (s.workers v).ring := by
  by_cases hv : v = w
  · subst hv
    simp [setThread, setWorker]
  · simp [setThread, setWorker, hv]

@[simp] theorem thread_setRing (ring : List (FsProcMessage N)) (v : Fin N) :
    ((s.setRing w ring).workers v).thread = (s.workers v).thread := by
  by_cases hv : v = w
  · subst hv
    simp [setRing, setWorker]
  · simp [setRing, setWorker, hv]

theorem ring_setRing (ring : List (FsProcMessage N)) (v : Fin N) :
    ((s.setRing w ring).workers v).ring = if v = w then ring else (s.workers v).ring := by
  by_cases hv : v = w
  · subst hv
    simp [setRing, setWorker]
  · simp [setRing, setWorker, hv]

@[simp] theorem thread_sendMessage (m : FsProcMessage N) (v : Fin N) :
    ((s.sendMessage w m).workers v).thread = (s.workers v).thread := thread_setRing ..

@[simp] theorem thread_prepare (ok : Bool) (v : Fin N) : ((s.prepareForCheckpointing w ok).2.workers v).thread =
    (s.workers v).thread := by
  unfold prepareForCheckpointing
  split
  · by_cases hv : v = w
    · subst hv
      simp [setWorker]
    · simp [setWorker, hv]
  · rfl

@[simp] theorem ring_prepare (ok : Bool) (v : Fin N) : ((s.prepareForCheckpointing w ok).2.workers v).ring =
    (s.workers v).ring := by
  unfold prepareForCheckpointing
  split
  · by_cases hv : v = w
    · subst hv
      simp [setWorker]
    · simp [setWorker, hv]
  · rfl

@[simp] theorem flag_prepare (ok : Bool) : (s.prepareForCheckpointing w ok).2.inGlobalCheckpointing =
    s.inGlobalCheckpointing := by
  unfold prepareForCheckpointing
  split <;> rfl

end

/-! ## The steps -/

/-- The frame is not the one that `checkpointAllJournals` returns from. -/
def Stays (f : CheckpointFrame N) : Prop := ∀ i success, f.loc = .notify i success → i < N

/-- How `checkpointAllJournals` of `w` goes on in the frame `f`. -/
inductive Advances (s : FsProc N) (w : Fin N) (ok : Bool) (f : CheckpointFrame N) : FsProc N → Prop
  | goOn (loc : CheckpointLoc) : Stays f → (∀ i, loc = .wait i → ∃ i', f.loc = .wait i') →
      Advances s w ok f (s.setThread w (.checkpointAllJournals { f with loc }))
  | send (v : Fin N) (m : FsProcMessage N) (loc : CheckpointLoc) : Stays f → (∀ i, loc ≠ .wait i) →
      m ≠ .assignCheckpointToWorker →
      Advances s w ok f ((s.sendMessage v m).setThread w (.checkpointAllJournals { f with loc }))
  | prepareSelf : Stays f → Advances s w ok f ((s.prepareForCheckpointing w ok).2.setThread w
      (.checkpointAllJournals { CheckpointFrame.complete f w (s.prepareForCheckpointing w ok).1 with loc := .wait 0 }))
  | leave (i : ℕ) (success : Bool) : f.loc = .notify i success → ¬ i < N →
      Advances s w ok f (s.setThread w .eventLoop)

/-- What worker `w` does with a message, one constructor for each kind. -/
inductive Handles (s : FsProc N) (w : Fin N) (ok : Bool) : FsProcMessage N → FsProc N → Prop
  | refuse (p : Fin N) : s.inGlobalCheckpointing = true → Handles s w ok (.proposeCheckpoint p) s
  | grant (p : Fin N) : s.inGlobalCheckpointing = false → Handles s w ok (.proposeCheckpoint p)
      ({ s with inGlobalCheckpointing := true }.sendMessage p .assignCheckpointToWorker)
  | takeUp : Handles s w ok .assignCheckpointToWorker (s.performCheckpointing w true)
  | prepare (ctx : Fin N) (f : CheckpointFrame N) : (s.workers ctx).thread = .checkpointAllJournals f →
      Handles s w ok (.prepareForCheckpointing ctx) ((s.prepareForCheckpointing w ok).2.setThread ctx
        (.checkpointAllJournals (CheckpointFrame.complete f w (s.prepareForCheckpointing w ok).1)))
  | complete (ci : ℕ) (success : Bool) : Handles s w ok (.checkpointingComplete (some ci) success) s

/-- What a step does, one constructor for each way it can go. -/
inductive Steps [NeZero N] (s : FsProc N) : Move N → FsProc N → Prop
  | submit (w : Fin N) (numUsed capacity : ℕ) : Steps s (.submitJournalEntry w numUsed capacity) s
  | propose (w : Fin N) (numUsed capacity : ℕ) : (s.workers w).thread = .eventLoop →
      Steps s (.submitJournalEntry w numUsed capacity) (s.setThread w .propose)
  | client (w : Fin N) : (s.workers w).thread = .eventLoop →
      Steps s (.appChkpt w) (s.performCheckpointing w false)
  | message (w : Fin N) (ok : Bool) {m : FsProcMessage N} {ring : List (FsProcMessage N)} {s' : FsProc N} :
      (s.workers w).thread = .eventLoop → (s.workers w).ring = m :: ring →
      Handles (s.setRing w ring) w ok m s' → Steps s (.processMessage w ok) s'
  | proposal (w : Fin N) (ok : Bool) : (s.workers w).thread = .propose →
      Steps s (.resume w ok) ((s.sendMessage 0 (.proposeCheckpoint w)).setThread w .eventLoop)
  | advance (w : Fin N) (ok : Bool) {f : CheckpointFrame N} {s' : FsProc N} :
      (s.workers w).thread = .checkpointAllJournals f → Advances s w ok f s' → Steps s (.resume w ok) s'

section

variable {s s' : FsProc N} {w : Fin N} {ok : Bool}

theorem advance_advances {f : CheckpointFrame N} (h : s.advance w ok f = some s') : Advances s w ok f s' := by
  unfold advance at h
  cases hl : f.loc with
  | sendPrepare i =>
    have hstays : Stays f := fun _ _ hc => by rw [hl] at hc; cases hc
    simp only [hl] at h
    split at h
    · split at h
      · cases h
        exact .goOn _ hstays nofun
      · cases h
        exact .send _ _ _ hstays nofun nofun
    · cases h
      exact .goOn _ hstays nofun
  | prepareSelf =>
    simp only [hl] at h
    cases h
    exact .prepareSelf fun _ _ hc => by rw [hl] at hc; cases hc
  | wait i =>
    have hstays : Stays f := fun _ _ hc => by rw [hl] at hc; cases hc
    simp only [hl] at h
    split at h
    · split at h
      · cases h
        exact .goOn _ hstays fun _ _ => ⟨i, hl⟩
      · cases h
    · split at h
      · cases h
        exact .goOn _ hstays nofun
      · cases h
        exact .goOn _ hstays nofun
  | write =>
    simp only [hl] at h
    cases h
    exact .goOn _ (fun _ _ hc => by rw [hl] at hc; cases hc) nofun
  | notify i success =>
    simp only [hl] at h
    by_cases hi : i < N
    · have hstays : Stays f := fun _ _ hc => by rw [hl] at hc; cases hc; exact hi
      rw [dif_pos hi] at h
      split at h
      · cases h
        exact .goOn _ hstays nofun
      · cases h
        exact .send _ _ _ hstays nofun nofun
    · rw [dif_neg hi] at h
      split at h
      · cases h
        exact .leave i success hl hi
      · cases h

theorem processFsProcMessage_handles {m : FsProcMessage N} (h : s.processFsProcMessage w ok m = some s') :
    Handles s w ok m s' := by
  cases m with
  | proposeCheckpoint p =>
    simp only [processFsProcMessage] at h
    split at h
    · rename_i hg
      cases h
      exact .refuse p hg
    · rename_i hg
      cases h
      exact .grant p (Bool.not_eq_true _ ▸ hg)
  | assignCheckpointToWorker =>
    cases h
    exact .takeUp
  | prepareForCheckpointing ctx =>
    simp only [processFsProcMessage] at h
    split at h
    · rename_i f hf
      cases h
      rw [thread_prepare] at hf
      exact .prepare ctx f hf
    · cases h
  | checkpointingComplete ci success =>
    cases ci with
    | none => cases h
    | some ci =>
      cases h
      exact .complete ci success

theorem step_steps [NeZero N] {m : Move N} (h : step m s = some s') : Steps s m s' := by
  cases m with
  | submitJournalEntry w numUsed capacity =>
    simp only [step] at h
    split at h
    · rename_i ht
      split at h
      · cases h
        exact .propose w numUsed capacity ht
      · cases h
        exact .submit w numUsed capacity
    · cases h
  | appChkpt w =>
    simp only [step] at h
    split at h
    · rename_i ht
      cases h
      exact .client w ht
    · cases h
  | processMessage w ok =>
    simp only [step] at h
    split at h
    · rename_i m ring ht hr
      exact .message w ok ht hr (processFsProcMessage_handles h)
    · cases h
  | resume w ok =>
    simp only [step] at h
    split at h
    · cases h
    · rename_i ht
      cases h
      exact .proposal w ok ht
    · rename_i f hf
      exact .advance w ok hf (advance_advances h)

end

end Ufs.Proof.Gate
