import Ufs.Proof.Recovery.Walk

/-!
# The entries that the iterator returns

`Calls` is a sequence of calls of `getNextEntry`, with the read that the last one issued complete
before the next, and `Finds` is what is found from place to place of the region. A sequence of calls
returns what is found on the way (`Calls.finds`), and gets to each entry that is found after blocks
to skip only (`calls_entry`), and to the end of the region (`calls_end`).
-/

namespace Ufs.Proof.Recovery

open Impl JournalIterator

/-- Calls of `getNextEntry` that return the entries `es`. -/
inductive Calls (dev : Device) : JournalIterator → List JournalEntry → JournalIterator → Prop
  | refl (it : JournalIterator) : Calls dev it [] it
  | entry {it it' it'' : JournalIterator} {je : JournalEntry} {es : List JournalEntry} :
      it.onReadComplete.getNextEntry dev = .entry je it' → Calls dev it' es it'' → Calls dev it (je :: es) it''
  | null {it it' it'' : JournalIterator} {es : List JournalEntry} :
      it.onReadComplete.getNextEntry dev = .null it' → Calls dev it' es it'' → Calls dev it es it''

/-- The entries `es` are found from `j` to `j'`. -/
inductive Finds (dev : Device) (B : ℕ) : JSuper → List JournalEntry → JSuper → Prop
  | refl (j : JSuper) : Finds dev B j [] j
  | skip {j j' : JSuper} {k : ℕ} {es : List JournalEntry} : j.djsuper.nUsed ≠ 0 → found dev B j = .skip k →
      Finds dev B (j.releaseFirstNSlots k) es j' → Finds dev B j es j'
  | entry {j j' : JSuper} {k : ℕ} {je : JournalEntry} {es : List JournalEntry} : j.djsuper.nUsed ≠ 0 →
      found dev B j = .entry je k → Finds dev B (j.releaseFirstNSlots k) es j' → Finds dev B j (je :: es) j'

/-- The entries that repeated calls return until the iterator is empty. -/
def Collects (dev : Device) (it : JournalIterator) (es : List JournalEntry) : Prop :=
  ∃ it', Calls dev it es it' ∧ it'.jsuper.djsuper.nUsed = 0

section

variable {dev : Device} {B : ℕ} {j j' j'' : JSuper} {es es' : List JournalEntry}

theorem Skips.finds (hs : Skips dev B j j') (hf : Finds dev B j' es j'') : Finds dev B j es j'' := by
  induction hs with
  | refl => exact hf
  | skip hn h _ ih => exact .skip hn h (ih hf)

/-! What is found up to the end of the region, by what is at the tail. -/

theorem Finds.moves (hf : Finds dev B j es j') (h0 : j'.djsuper.nUsed = 0) (hn : j.djsuper.nUsed ≠ 0) :
    ∃ k, found dev B j = .skip k ∨ ∃ je, found dev B j = .entry je k := by
  cases hf with
  | refl => exact absurd h0 hn
  | skip _ h _ => exact ⟨_, .inl h⟩
  | entry _ h _ => exact ⟨_, .inr ⟨_, h⟩⟩

theorem Finds.of_skip {k : ℕ} (hf : Finds dev B j es j') (h0 : j'.djsuper.nUsed = 0) (hn : j.djsuper.nUsed ≠ 0)
    (h : found dev B j = .skip k) : Finds dev B (j.releaseFirstNSlots k) es j' := by
  cases hf with
  | refl => exact absurd h0 hn
  | skip _ h' hf =>
    rw [h] at h'
    cases h'
    exact hf
  | entry _ h' => rw [h] at h'; cases h'

theorem Finds.of_entry {k : ℕ} {je : JournalEntry} (hf : Finds dev B j es j') (h0 : j'.djsuper.nUsed = 0)
    (hn : j.djsuper.nUsed ≠ 0) (h : found dev B j = .entry je k) :
      ∃ rest, es = je :: rest ∧ Finds dev B (j.releaseFirstNSlots k) rest j' := by
  cases hf with
  | refl => exact absurd h0 hn
  | skip _ h' => rw [h] at h'; cases h'
  | entry _ h' hf =>
    rw [h] at h'
    cases h'
    exact ⟨_, rfl, hf⟩

theorem Finds.eq_of_end (hf : Finds dev B j es j') (hf' : Finds dev B j es' j'') (h0 : j'.djsuper.nUsed = 0)
    (h0' : j''.djsuper.nUsed = 0) : es = es' := by
  induction hf generalizing es' with
  | refl =>
    cases hf' with
    | refl => rfl
    | skip hn => exact absurd h0 hn
    | entry hn => exact absurd h0 hn
  | skip hn h _ ih => exact ih (hf'.of_skip h0' hn h) h0
  | entry hn h _ ih =>
    obtain ⟨rest, rfl, hrest⟩ := hf'.of_entry h0' hn h
    rw [ih hrest h0]

theorem Skips.finds_of (hs : Skips dev B j j') (hf : Finds dev B j es j'') (h0 : j''.djsuper.nUsed = 0) :
    Finds dev B j' es j'' := by
  induction hs with
  | refl => exact hf
  | skip hn h _ ih => exact ih (hf.of_skip h0 hn h)

/-- There is nothing to skip at the cursor. -/
def Stops (dev : Device) (B : ℕ) (j : JSuper) : Prop := j.djsuper.nUsed = 0 ∨ ∀ k, found dev B j ≠ .skip k

theorem Skips.of_stops (hs : Skips dev B j j') (hs' : Skips dev B j j'') (h : Stops dev B j'') :
    Skips dev B j' j'' := by
  induction hs with
  | refl => exact hs'
  | skip hn hf _ ih =>
    cases hs' with
    | refl => exact absurd hf (h.resolve_left hn _)
    | skip _ hf' hs' =>
      rw [hf] at hf'
      cases hf'
      exact ih hs'

theorem Skips.eq_of_stops (hs : Skips dev B j j') (h : Stops dev B j) : j' = j := by
  cases hs with
  | refl => rfl
  | skip hn hf => exact absurd hf (h.resolve_left hn _)

end

section

variable {dev : Device} {it it' it'' : JournalIterator} {es es' : List JournalEntry}

theorem Calls.trans (hc : Calls dev it es it') (hc' : Calls dev it' es' it'') : Calls dev it (es ++ es') it'' := by
  induction hc with
  | refl => exact hc'
  | entry h _ ih => exact .entry h (ih hc')
  | null h _ ih => exact .null h (ih hc')

theorem Good.onReadComplete (h : Good dev it) : Good dev it.onReadComplete := ⟨h.inRing, h.buffered⟩

theorem Calls.finds (hc : Calls dev it es it') (h : Good dev it) (hB : 0 < it.devBufBlocks) :
    Finds dev it.devBufBlocks it.jsuper es it'.jsuper := by
  induction hc with
  | refl => exact .refl _
  | entry hr _ ih =>
    have ha := answers_getNextEntry h.onReadComplete hB rfl
    rw [hr] at ha
    obtain ⟨hm, -, -, j, k, hs, hn, hf, hj⟩ := ha
    have hfinds := ih hm.good (by rw [hm.devBufBlocks]; exact hB)
    rw [hm.devBufBlocks, hj] at hfinds
    exact hs.finds (.entry hn hf hfinds)
  | null hr _ ih =>
    have ha := answers_getNextEntry h.onReadComplete hB rfl
    rw [hr] at ha
    obtain ⟨hm, hs, -⟩ := ha
    have hfinds := ih hm.good (by rw [hm.devBufBlocks]; exact hB)
    rw [hm.devBufBlocks] at hfinds
    exact hs.finds hfinds

/-- What one or two calls get to: an entry, a place with less of the region left, or what ends the
process. -/
inductive Advances (dev : Device) (it : JournalIterator) : Prop
  | entry {je : JournalEntry} {it' : JournalIterator} {j : JSuper} {k : ℕ} : Calls dev it [je] it' →
      Moved dev it it' → Skips dev it.devBufBlocks it.jsuper j → j.djsuper.nUsed ≠ 0 →
      found dev it.devBufBlocks j = .entry je k → it'.jsuper = j.releaseFirstNSlots k → Advances dev it
  | null {it' : JournalIterator} : Calls dev it [] it' → Moved dev it it' →
      Skips dev it.devBufBlocks it.jsuper it'.jsuper →
      it'.jsuper.djsuper.nUsed < it.jsuper.djsuper.nUsed → Advances dev it
  | fails {j : JSuper} : Skips dev it.devBufBlocks it.jsuper j → j.djsuper.nUsed ≠ 0 →
      found dev it.devBufBlocks j = .terminate ∨ found dev it.devBufBlocks j = .outOfBounds → Advances dev it

theorem advances_or_fills (h : Good dev it) (hB : 0 < it.devBufBlocks) (hn : it.jsuper.djsuper.nUsed ≠ 0) :
    Advances dev it ∨ ∃ it', it.onReadComplete.getNextEntry dev = .null it' ∧ Moved dev it it' ∧
      it'.jsuper = it.jsuper ∧ Full dev it' ∧ it.cursor dev = .refill := by
  have ha := answers_getNextEntry h.onReadComplete hB rfl
  cases hr : it.onReadComplete.getNextEntry dev with
  | entry je it' =>
    rw [hr] at ha
    obtain ⟨hm, -, -, j, k, hs, hj, hf, he⟩ := ha
    exact .inl (.entry (.entry hr (.refl _)) ⟨hm.good, hm.devBufBlocks⟩ hs hj hf he)
  | null it' =>
    rw [hr] at ha
    obtain ⟨hm, hs, ⟨h0, -, -⟩ | href⟩ := ha
    · exact .inl (.null (.null hr (.refl _)) ⟨hm.good, hm.devBufBlocks⟩ hs (by omega))
    · rcases href.progress with hlt | ⟨he, hc⟩
      · exact .inl (.null (.null hr (.refl _)) ⟨hm.good, hm.devBufBlocks⟩ hs hlt)
      · exact .inr ⟨it', rfl, ⟨hm.good, hm.devBufBlocks⟩, he, href.full, hc⟩
  | terminate =>
    rw [hr] at ha
    obtain ⟨j, hs, hj, hf⟩ := ha
    exact .inl (.fails hs hj (.inl hf))
  | outOfBounds =>
    rw [hr] at ha
    obtain ⟨j, hs, hj, hf⟩ := ha
    exact .inl (.fails hs hj (.inr hf))

theorem Advances.after {it' : JournalIterator} (hr : it.onReadComplete.getNextEntry dev = .null it')
    (hm : Moved dev it it') (hj : it'.jsuper = it.jsuper) (ha : Advances dev it') : Advances dev it := by
  cases ha with
  | entry hc hm' hs hn hf he =>
    rw [hm.devBufBlocks, hj] at hs
    rw [hm.devBufBlocks] at hf
    exact .entry (.null hr hc) ⟨hm'.good, hm'.devBufBlocks.trans hm.devBufBlocks⟩ hs hn hf he
  | null hc hm' hs hlt =>
    rw [hm.devBufBlocks, hj] at hs
    exact .null (.null hr hc) ⟨hm'.good, hm'.devBufBlocks.trans hm.devBufBlocks⟩ hs (hj ▸ hlt)
  | fails hs hn hf =>
    rw [hm.devBufBlocks, hj] at hs
    rw [hm.devBufBlocks] at hf
    exact .fails hs hn hf

theorem advances (h : Good dev it) (hB : 0 < it.devBufBlocks) (hn : it.jsuper.djsuper.nUsed ≠ 0)
    (hf : found dev it.devBufBlocks it.jsuper ≠ .refill) : Advances dev it := by
  obtain ha | ⟨it', hr, hm, hj, hfull, -⟩ := advances_or_fills h hB hn
  · exact ha
  -- All that a read gives is in the buffer now, and it does.
  · have hB' : 0 < it'.devBufBlocks := by rw [hm.devBufBlocks]; exact hB
    obtain ha | ⟨_, -, -, -, -, hc⟩ := advances_or_fills hm.good hB' (hj ▸ hn)
    · exact ha.after hr hm hj
    · rw [hfull.cursor_eq] at hc
      rw [← hm.devBufBlocks, ← hj] at hf
      exact absurd hc hf

theorem calls_entry {j : JSuper} {je : JournalEntry} {k : ℕ} (h : Good dev it) (hB : 0 < it.devBufBlocks)
    (hs : Skips dev it.devBufBlocks it.jsuper j) (hn : j.djsuper.nUsed ≠ 0)
      (hf : found dev it.devBufBlocks j = .entry je k) :
    ∃ it', Calls dev it [je] it' ∧ Moved dev it it' ∧ it'.jsuper = j.releaseFirstNSlots k := by
  have hstops : Stops dev it.devBufBlocks j := .inr fun k => by rw [hf]; nofun
  induction hN : it.jsuper.djsuper.nUsed using Nat.strong_induction_on generalizing it with
  | _ N ih =>
    have hle := (hs.inRing h.inRing).2
    have hfound : found dev it.devBufBlocks it.jsuper ≠ .refill := by
      cases hs with
      | refl => rw [hf]; nofun
      | skip _ hf' => rw [hf']; nofun
    cases advances h hB (by omega) hfound with
    | entry hc hm hs' hn' hf' he =>
      have hj := (hs'.of_stops hs hstops).eq_of_stops (.inr fun k => by rw [hf']; nofun)
      rw [hj, hf'] at hf
      cases hf
      exact ⟨_, hc, hm, hj ▸ he⟩
    | @null it1 hc hm hs' hlt =>
      have hs1 := hs'.of_stops hs hstops
      rw [← hm.devBufBlocks] at hs1 hf hstops
      obtain ⟨it2, hc2, hm2, he⟩ := ih _ (by omega) hm.good (by rw [hm.devBufBlocks]; exact hB) hs1 hf hstops rfl
      exact ⟨it2, hc.trans hc2, ⟨hm2.good, hm2.devBufBlocks.trans hm.devBufBlocks⟩, he⟩
    | fails hs' hn' hf' =>
      have hj := (hs'.of_stops hs hstops).eq_of_stops (.inr fun k => by rcases hf' with h | h <;> rw [h] <;> nofun)
      rw [hj] at hf
      rcases hf' with h | h <;> · rw [h] at hf; cases hf

theorem calls_end {j : JSuper} (h : Good dev it) (hB : 0 < it.devBufBlocks)
    (hs : Skips dev it.devBufBlocks it.jsuper j) (h0 : j.djsuper.nUsed = 0) :
    ∃ it', Calls dev it [] it' ∧ it'.jsuper.djsuper.nUsed = 0 := by
  induction hN : it.jsuper.djsuper.nUsed using Nat.strong_induction_on generalizing it with
  | _ N ih =>
    by_cases hn : it.jsuper.djsuper.nUsed = 0
    · exact ⟨it, .refl _, hn⟩
    have hfound : found dev it.devBufBlocks it.jsuper ≠ .refill := by
      cases hs with
      | refl => exact absurd h0 hn
      | skip _ hf' => rw [hf']; nofun
    cases advances h hB hn hfound with
    | entry hc hm hs' hn' hf' he =>
      have hj := (hs'.of_stops hs (.inl h0)).eq_of_stops (.inr fun k => by rw [hf']; nofun)
      exact absurd (hj ▸ h0) hn'
    | @null it1 hc hm hs' hlt =>
      have hs1 := hs'.of_stops hs (.inl h0)
      rw [← hm.devBufBlocks] at hs1
      obtain ⟨it2, hc2, he⟩ := ih _ (by omega) hm.good (by rw [hm.devBufBlocks]; exact hB) hs1 rfl
      exact ⟨it2, hc.trans hc2, he⟩
    | fails hs' hn' hf' =>
      have hj := (hs'.of_stops hs (.inl h0)).eq_of_stops (.inr fun k => by rcases hf' with h | h <;> rw [h] <;> nofun)
      exact absurd (hj ▸ h0) hn'

end

section

variable {dev : Device}

theorem Finds.cases_skips {B : ℕ} {j j' : JSuper} {es : List JournalEntry} (hf : Finds dev B j es j') :
    es = [] ∧ Skips dev B j j' ∨
      ∃ j₁ je k rest, es = je :: rest ∧ Skips dev B j j₁ ∧ j₁.djsuper.nUsed ≠ 0 ∧ found dev B j₁ = .entry je k ∧
        Finds dev B (j₁.releaseFirstNSlots k) rest j' := by
  induction hf with
  | refl => exact .inl ⟨rfl, .refl _⟩
  | skip hn h _ ih =>
    obtain ⟨rfl, hs⟩ | ⟨j₁, je, k, rest, rfl, hs, hj⟩ := ih
    · exact .inl ⟨rfl, .skip hn h hs⟩
    · exact .inr ⟨j₁, je, k, rest, rfl, .skip hn h hs, hj⟩
  | entry hn h hf => exact .inr ⟨_, _, _, _, rfl, .refl _, hn, h, hf⟩

theorem collects_of_finds {it : JournalIterator} {j : JSuper} (es : List JournalEntry)
    (h : Good dev it) (hB : 0 < it.devBufBlocks) (hf : Finds dev it.devBufBlocks it.jsuper es j)
    (h0 : j.djsuper.nUsed = 0) : Collects dev it es := by
  induction es generalizing it with
  | nil =>
    obtain ⟨-, hs⟩ | ⟨_, _, _, _, he, -⟩ := hf.cases_skips
    · exact calls_end h hB hs h0
    · cases he
  | cons je es ih =>
    obtain ⟨he, -⟩ | ⟨j1, _, k, _, he, hs, hn, hfound, hrest⟩ := hf.cases_skips
    · cases he
    · cases he
      obtain ⟨it1, hc, hm, hj⟩ := calls_entry h hB hs hn hfound
      rw [← hm.devBufBlocks, ← hj] at hrest
      obtain ⟨it2, hc2, h02⟩ := ih hm.good (by rw [hm.devBufBlocks]; exact hB) hrest
      exact ⟨it2, hc.trans hc2, h02⟩

/-- The entries returned until the iterator is empty are those that are found up to the end of the
region. -/
theorem collects_iff {it : JournalIterator} {es : List JournalEntry} (h : Good dev it) (hB : 0 < it.devBufBlocks) :
    Collects dev it es ↔ ∃ j, Finds dev it.devBufBlocks it.jsuper es j ∧ j.djsuper.nUsed = 0 := by
  constructor
  · rintro ⟨it', hc, h0⟩
    exact ⟨it'.jsuper, hc.finds h hB, h0⟩
  · rintro ⟨j, hf, h0⟩
    exact collects_of_finds es h hB hf h0

theorem good_ofJSuper {j : JSuper} (h : InRing j) (B : ℕ) : Good dev (.ofJSuper j B) :=
  ⟨h, 0, Nat.zero_le _, rfl⟩

end

end Ufs.Proof.Recovery
