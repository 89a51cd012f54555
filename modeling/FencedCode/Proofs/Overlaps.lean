import FencedCode.Proofs.Ranges
import FencedCode.Proofs.Survivors

namespace FencedCode

namespace DecorationSet

variable {ds : DecorationSet} {es : List Edit} {len : Nat}

/-- No decoration is empty, and each ends before the next starts. -/
structure InLine (ds : DecorationSet) : Prop where
  nonempty : ∀ d ∈ ds, d.start < d.stop
  ordered : ds.Pairwise fun d e => d.stop ≤ e.start

theorem WellFormed.inLine (h : WellFormed len ds) : ds.InLine :=
  ⟨fun d hd => (h.bounds d hd).1, h.ordered⟩

theorem inLine_iff : ds.InLine ↔ ds.Sorted ∧ ds.Pairwise Decoration.Apart := by
  constructor
  · intro h
    refine ⟨⟨h.nonempty, h.ordered.imp_of_mem fun {d e} hd _ hle => ?_⟩, h.ordered.imp .inl⟩
    have := h.nonempty d hd
    simp only [Decoration.before, Bool.or_eq_true, decide_eq_true_eq]
    omega
  · rintro ⟨hs, hapart⟩
    refine ⟨hs.nonempty, (hs.ordered.and hapart).imp_of_mem fun {d e} hd he h => ?_⟩
    obtain ⟨hbefore, hde⟩ := h
    have := hs.nonempty d hd
    have := hs.nonempty e he
    simp only [Decoration.before, Bool.or_eq_true, Bool.and_eq_true, decide_eq_true_eq,
      beq_iff_eq] at hbefore
    -- were the second to end first, it would start first
    rcases hde with hle | hle <;> omega

theorem InLine.map (h : ds.InLine) {e : Edit} (he : e.Ordered) : (ds.map e).InLine :=
  ⟨nonempty_map h.nonempty e, ordered_map he h.nonempty h.ordered⟩

theorem InLine.followAll (h : ds.InLine) (he : ∀ e ∈ es, e.Ordered) :
    (ds.followAll es).1.InLine := by
  induction es generalizing ds with
  | nil => exact h
  | cons e es ih =>
    rw [followAll_cons]
    apply ih (h.map (he e List.mem_cons_self))
    exact fun e' he' => he e' (List.mem_cons_of_mem e he')

theorem InLine.overlapping_eq (h : ds.InLine) (lo hi : Nat) :
    ds.overlapping lo hi = ds.filter fun d => lo < d.stop && d.start < hi :=
  overlapping_eq_filter h.nonempty h.ordered lo hi

/-- The answer is a plain selection. Of decorations that are not empty, in order and apart, edits
leave such decorations, and whatever stretch is asked for, also an empty one or one with its ends in
the wrong order, just those are given that end behind the start of it and start before its end. -/
theorem inRange_followAll (hs : ds.Sorted) (hd : ds.Pairwise Decoration.Apart)
    (he : ∀ e ∈ es, e.Ordered) :
    let ds' := (ds.followAll es).1
    (ds'.Sorted ∧ ds'.Pairwise Decoration.Apart) ∧
      (∀ r : Interval, ds'.inRange r = ds'.filter fun d => r.lo < d.stop && d.start < r.hi) ∧
      ∀ lo hi, ds'.overlapping lo hi = ds'.filter fun d => lo < d.stop && d.start < hi := by
  intro ds'
  have hline : ds'.InLine := (inLine_iff.2 ⟨hs, hd⟩).followAll he
  refine ⟨inLine_iff.1 hline, fun r => ?_, hline.overlapping_eq⟩
  rw [inRange_eq_overlapping]
  exact hline.overlapping_eq r.lo r.hi

/-- Behind the first of three words something longer is put, and something before the last: what
touches the first two words is asked for, a place in the second, the gap behind it, and two places
in the first the wrong way round. -/
theorem inRange_followAll_threeWords :
    let ds := (threeWords.followAll [⟨3, 4, 6⟩, ⟨9, 9, 10⟩]).1
    ds = [⟨0, 3, "a"⟩, ⟨6, 8, "b"⟩, ⟨10, 11, "c"⟩] ∧
      ds.inRange (.between 2 7) = [⟨0, 3, "a"⟩, ⟨6, 8, "b"⟩] ∧
      ds.inRange (.between 7 7) = [⟨6, 8, "b"⟩] ∧ ds.inRange (.between 8 10) = [] ∧
      ds.overlapping 2 1 = [⟨0, 3, "a"⟩] := by
  intro ds
  have hsorted : threeWords.Sorted := ⟨by decide, by decide⟩
  have hapart : threeWords.Pairwise Decoration.Apart := by
    unfold Decoration.Apart
    decide
  have hedits : ∀ e ∈ [⟨3, 4, 6⟩, ⟨9, 9, 10⟩], Edit.Ordered e := by
    unfold Edit.Ordered
    decide
  obtain ⟨-, hranges, hends⟩ := inRange_followAll hsorted hapart hedits
  have hds : ds = [⟨0, 3, "a"⟩, ⟨6, 8, "b"⟩, ⟨10, 11, "c"⟩] := by decide
  refine ⟨hds, ?_, ?_, ?_, ?_⟩
  · rw [hranges]
    decide
  · rw [hranges]
    decide
  · rw [hranges]
    decide
  · rw [hends]
    decide

end DecorationSet

/-- The decorations of a session are never empty, in order and apart, whatever has happened. -/
theorem Session.sorted_run {σ : Type} (backend : Backend σ) (aliases : Aliases) (theme : String)
    (t : Text) (changes : List (Change σ)) :
    let ds : DecorationSet := ((start backend aliases theme t).run changes).highlighter.decorations
    ds.Sorted ∧ ds.Pairwise Decoration.Apart := by
  intro ds
  obtain ⟨t', -, hsound⟩ := (sound_start backend aliases theme t).run changes
  exact DecorationSet.inLine_iff.1 hsound.wellFormed.inLine

end FencedCode
