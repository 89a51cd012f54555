import FencedCode.Proofs.Interval

namespace FencedCode

namespace Interval

variable {start stop pos : Nat} {cut r : Interval} {cuts : List Interval}

theorem mem_carve_nil : r ∈ carve start stop [] ↔ start < stop ∧ r = between start stop := by
  unfold carve
  split_ifs with h <;> simp [h]

/-- A piece ends at the first cut, or else the walk goes on behind this cut. -/
theorem mem_carve_cons : r ∈ carve start stop (cut :: cuts) ↔
    start < cut.lo ∧ r = between start cut.lo ∨
      cut.hi < stop ∧ r ∈ carve (max start cut.hi) stop cuts := by
  rw [carve, List.mem_append]
  refine or_congr ?_ ?_
  · split_ifs with h <;> simp [h]
  · split_ifs with h
    · simp [not_lt.2 h]
    · simp [not_le.1 h]

theorem carve_nonempty (hr : r ∈ carve start stop cuts) : r.lo < r.hi := by
  have hpiece : ∀ {a b : Nat}, a < b → (between a b).lo < (between a b).hi := by
    intro a b hab
    simp only [between_lo, between_hi]
    omega
  induction cuts generalizing start with
  | nil =>
    obtain ⟨h, rfl⟩ := mem_carve_nil.1 hr
    exact hpiece h
  | cons cut cuts ih =>
    rcases mem_carve_cons.1 hr with ⟨h, rfl⟩ | ⟨-, hr⟩
    · exact hpiece h
    · exact ih hr

theorem pairwise_piece {p : Prop} [Decidable p] (r : Interval) {R : Interval → Interval → Prop} :
    (if p then [r] else []).Pairwise R := by
  split_ifs
  · exact List.pairwise_singleton R r
  · exact .nil

theorem carve_ordered (hs : start ≤ stop) (hc : ∀ cut ∈ cuts, cut.lo ≤ stop) :
    (carve start stop cuts).Pairwise fun r s => r.hi ≤ s.lo := by
  induction cuts generalizing start with
  | nil =>
    unfold carve
    exact pairwise_piece _
  | cons cut cuts ih =>
    obtain ⟨hcut, hcuts⟩ := List.forall_mem_cons.1 hc
    unfold carve
    refine List.pairwise_append.2 ⟨pairwise_piece _, ?_, fun r hr s hs' => ?_⟩
    · split_ifs with h
      · exact .nil
      · exact ih (by omega) hcuts
    · -- the first piece ends where the cut begins, and the others lie behind the cut
      split_ifs at hr hs' with h1 h2
      · cases hs'
      · obtain rfl := List.mem_singleton.1 hr
        have := (carve_le _ cuts (by omega) hcuts s hs').1
        have := cut.lo_le_hi
        simp only [between_hi]
        omega
      all_goals cases hr

theorem not_covered_of_covered_carve (hs : start ≤ stop) (hc : ∀ cut ∈ cuts, cut.lo ≤ stop)
    (ho : cuts.Pairwise fun r s => r.hi ≤ s.lo) (h : Covered (carve start stop cuts) pos) :
    ¬ Covered cuts pos := by
  obtain ⟨r, hr, hlo, hhi⟩ := h
  induction cuts generalizing start with
  | nil =>
    rintro ⟨c, hc, -⟩
    cases hc
  | cons cut cuts ih =>
    obtain ⟨hcut, hcuts⟩ := List.forall_mem_cons.1 hc
    obtain ⟨hbehind, ho⟩ := List.pairwise_cons.1 ho
    rintro ⟨c, hmem, hclo, hchi⟩
    rcases mem_carve_cons.1 hr with ⟨h, rfl⟩ | ⟨h, hr⟩
    · -- the piece ends before the first cut begins, and the other cuts begin later still
      simp only [between_hi] at hhi
      rcases List.mem_cons.1 hmem with rfl | hmem
      · omega
      · have := hbehind c hmem
        have := cut.lo_le_hi
        omega
    · rcases List.mem_cons.1 hmem with rfl | hmem
      · have := (carve_le _ cuts (by omega) hcuts r hr).1
        omega
      · exact ih (by omega) hcuts ho hr ⟨c, hmem, hclo, hchi⟩

theorem cuts_ordered (covered : List Interval) (r : Interval) :
    ((normalize covered).filter (·.intersects r)).Pairwise fun r s => r.hi ≤ s.lo :=
  ((normalize_pairwise covered).imp Nat.le_of_lt).filter _

/-- What is left of one list by another: intervals that are not empty, each of which ends at or
before the start of the next, and in which a byte lies if it lies in the one list and not in the
other. -/
theorem subtract_exact (rs covered : List Interval) :
    (∀ r ∈ subtract rs covered, r.lo < r.hi) ∧
      ((subtract rs covered).Pairwise fun r s => r.hi ≤ s.lo) ∧
        ∀ pos, Covered (subtract rs covered) pos ↔ Covered rs pos ∧ ¬ Covered covered pos := by
  refine ⟨fun r hr => ?_, ?_, fun pos => ⟨fun h => ?_, fun h => covered_subtract h.1 h.2⟩⟩
  · obtain ⟨s, -, hr⟩ := List.mem_flatMap.1 hr
    exact carve_nonempty hr
  · refine List.pairwise_flatMap.2 ⟨fun s _ => ?_, ?_⟩
    · exact carve_ordered s.lo_le_hi (cuts_le covered s)
    · -- the intervals themselves lie one behind the other, and the pieces within them
      refine (normalize_pairwise rs).imp fun {s t} hst a ha b hb => ?_
      have := carve_le s.lo _ s.lo_le_hi (cuts_le covered s) a ha
      have := carve_le t.lo _ t.lo_le_hi (cuts_le covered t) b hb
      omega
  · obtain ⟨r, hr, hlo, hhi⟩ := h
    obtain ⟨s, hs, hr⟩ := List.mem_flatMap.1 hr
    have hle := carve_le s.lo _ s.lo_le_hi (cuts_le covered s) r hr
    refine ⟨covered_normalize.1 ⟨s, hs, by omega⟩, fun hc => ?_⟩
    obtain ⟨c, hc, hclo, hchi⟩ := covered_normalize.2 hc
    -- a cut that has a byte of the interval meets it
    have hmeets : c.intersects s := intersects_iff_le.2 (by omega)
    exact not_covered_of_covered_carve s.lo_le_hi (cuts_le covered s) (cuts_ordered covered s)
      ⟨r, hr, hlo, hhi⟩ ⟨c, List.mem_filter.2 ⟨hc, hmeets⟩, hclo, hchi⟩

/-- Cuts over either end, inside, side by side, empty, and behind. -/
example : subtract [between 10 30, between 12 20, between 40 40]
    [between 28 50, between 18 18, between 20 22, between 5 12, between 22 24, between 60 70] =
      [between 12 18, between 18 20, between 24 28] := by cbv

end Interval

end FencedCode
