import FencedCode.Proofs.Interval
import FencedCode.Proofs.Sorting

namespace FencedCode

namespace Interval

variable {rs ss : List Interval} {r : Interval}

/-- Each interval ends before the next begins. -/
abbrev Spaced (rs : List Interval) : Prop := rs.Pairwise fun r s => r.hi < s.lo

theorem Spaced.eq_of_mem_iff {rs ss : List Interval} (hr : Spaced rs) (hs : Spaced ss)
    (h : ∀ i, i ∈ rs ↔ i ∈ ss) : rs = ss := by
  have hirrefl : Std.Irrefl fun r s : Interval => r.hi < s.lo :=
    ⟨fun r hlt => absurd r.lo_le_hi hlt.not_ge⟩
  have hanti : Std.Antisymm fun r s : Interval => r.hi < s.lo := by
    refine ⟨fun r s h1 h2 => ?_⟩
    have := r.lo_le_hi
    have := s.lo_le_hi
    omega
  exact List.Pairwise.eq_of_mem_iff hr hs h

/-- The interval is a whole stretch of what the list makes up: it goes from one gap between covered
bytes to the next. -/
structure Stretch (rs : List Interval) (r : Interval) : Prop where
  touched : Touched rs r.lo
  covered : ∀ pos, r.lo ≤ pos → pos < r.hi → Covered rs pos
  front : ∀ pos, pos + 1 = r.lo → ¬ Covered rs pos
  back : ¬ Covered rs r.hi

/-- Lists that make up the same offsets and bytes have the same stretches. -/
theorem Stretch.congr (ht : ∀ pos, Touched rs pos ↔ Touched ss pos)
    (hc : ∀ pos, Covered rs pos ↔ Covered ss pos) (h : Stretch rs r) : Stretch ss r where
  touched := (ht r.lo).1 h.touched
  covered := fun pos hlo hhi => (hc pos).1 (h.covered pos hlo hhi)
  front := fun pos hpos => mt (hc pos).2 (h.front pos hpos)
  back := mt (hc r.hi).2 h.back

theorem Stretch.exists_lo_eq (h : Stretch rs r) : ∃ s ∈ rs, s.lo = r.lo := by
  obtain ⟨s, hs, hlo, hhi⟩ := h.touched
  refine ⟨s, hs, hlo.antisymm ?_⟩
  -- otherwise the interval would have the byte in front
  by_contra! hlt
  exact h.front (r.lo - 1) (by omega) ⟨s, hs, by omega, by omega⟩

theorem Stretch.exists_hi_eq (h : Stretch rs r) : ∃ s ∈ rs, s.hi = r.hi := by
  have hlast : ∀ s ∈ rs, s.lo ≤ r.hi → s.hi ≤ r.hi := by
    intro s hs hlo
    by_contra! hlt
    exact h.back ⟨s, hs, hlo, hlt⟩
  rcases r.lo_le_hi.eq_or_lt with heq | hlt
  · obtain ⟨s, hs, hlo, hhi⟩ := h.touched
    exact ⟨s, hs, (hlast s hs (heq ▸ hlo)).antisymm (heq ▸ hhi)⟩
  · obtain ⟨s, hs, hlo, hhi⟩ := h.covered (r.hi - 1) (by omega) (by omega)
    exact ⟨s, hs, (hlast s hs (by omega)).antisymm (by omega)⟩

theorem Stretch.eq_of_lo_eq {s : Interval} (hr : Stretch rs r) (hs : Stretch rs s)
    (hlo : s.lo = r.lo) : s = r := by
  have := r.lo_le_hi
  have := s.lo_le_hi
  have hhi : s.hi = r.hi := by
    -- the byte behind the shorter one would lie in the longer one
    rcases lt_trichotomy s.hi r.hi with hlt | heq | hlt
    · exact absurd (hr.covered s.hi (by omega) hlt) hs.back
    · exact heq
    · exact absurd (hs.covered r.hi (by omega) hlt) hr.back
  cases r
  cases s
  simp_all

theorem Spaced.stretch (h : Spaced rs) (hr : r ∈ rs) : Stretch rs r := by
  have hle := r.lo_le_hi
  have happart : ∀ s ∈ rs, s = r ∨ s.hi < r.lo ∨ r.hi < s.lo := fun s hs =>
    pairwise_trichotomy h hs hr
  constructor
  · exact ⟨r, hr, le_rfl, hle⟩
  · exact fun pos hlo hhi => ⟨r, hr, hlo, hhi⟩
  · rintro pos hpos ⟨s, hs, hlo, hhi⟩
    rcases happart s hs with rfl | hlt | hlt <;> omega
  · rintro ⟨s, hs, hlo, hhi⟩
    rcases happart s hs with rfl | hlt | hlt <;> omega

/-- Spaced intervals are the stretches of what they make up. -/
theorem Spaced.mem_iff_stretch (h : Spaced rs) : r ∈ rs ↔ Stretch rs r := by
  refine ⟨h.stretch, fun hr => ?_⟩
  obtain ⟨s, hs, hlo⟩ := hr.exists_lo_eq
  rwa [← hr.eq_of_lo_eq (h.stretch hs) hlo]

/-- Spaced intervals are determined by the offsets and the bytes that they make up. Offsets alone
would not do: they do not tell intervals side by side, such as 0 to 1 and 2 to 3, from one that
holds both. -/
theorem Spaced.eq_of_touched_of_covered (hr : Spaced rs) (hs : Spaced ss)
    (ht : ∀ pos, Touched rs pos ↔ Touched ss pos) (hc : ∀ pos, Covered rs pos ↔ Covered ss pos) :
    rs = ss := by
  refine hr.eq_of_mem_iff hs fun i => ?_
  rw [hr.mem_iff_stretch, hs.mem_iff_stretch]
  exact ⟨.congr ht hc, .congr (fun pos => (ht pos).symm) fun pos => (hc pos).symm⟩

theorem mem_normalize : r ∈ normalize rs ↔ Stretch rs r := by
  have hs : Spaced (normalize rs) := normalize_pairwise rs
  rw [hs.mem_iff_stretch]
  exact ⟨.congr (fun _ => touched_normalize) fun _ => covered_normalize,
    .congr (fun _ => touched_normalize.symm) fun _ => covered_normalize.symm⟩

theorem ends_of_mem_normalize (h : r ∈ normalize rs) :
    (∃ s ∈ rs, s.lo = r.lo) ∧ ∃ s ∈ rs, s.hi = r.hi := by
  have hr := mem_normalize.1 h
  exact ⟨hr.exists_lo_eq, hr.exists_hi_eq⟩

theorem Spaced.normalize_eq (h : Spaced rs) : normalize rs = rs :=
  Spaced.eq_of_touched_of_covered (normalize_pairwise rs) h (fun _ => touched_normalize)
    fun _ => covered_normalize

/-- Two lists have the same canonical form if they make up the same offsets and bytes, and only
then. -/
theorem normalize_eq_iff : normalize rs = normalize ss ↔
    (∀ pos, Touched rs pos ↔ Touched ss pos) ∧ ∀ pos, Covered rs pos ↔ Covered ss pos := by
  constructor
  · intro h
    constructor <;> intro pos
    · rw [← touched_normalize, h, touched_normalize]
    · rw [← covered_normalize, h, covered_normalize]
  · rintro ⟨ht, hc⟩
    exact Spaced.eq_of_touched_of_covered (normalize_pairwise rs) (normalize_pairwise ss)
      (fun _ => touched_normalize.trans ((ht _).trans touched_normalize.symm))
      fun _ => covered_normalize.trans ((hc _).trans covered_normalize.symm)

theorem normalize_perm (h : ss.Perm rs) : normalize ss = normalize rs := by
  apply normalize_eq_iff.2
  constructor <;> intro pos
  · simp only [Touched, h.mem_iff]
  · simp only [Covered, h.mem_iff]

/-- For every list of intervals: in canonical form they are in order and each ends before the next
begins, so no two meet. They touch the same offsets as before, each begins where one of the list
began and ends where one of it ended, and neither the order of the list nor that it has been brought
into canonical form already makes a difference. -/
theorem normalize_canonical (rs : List Interval) :
    (normalize rs).Pairwise (fun r s => r.hi < s.lo) ∧
      (∀ pos, (normalize rs).any (·.touches pos) = rs.any (·.touches pos)) ∧
      (∀ r ∈ normalize rs, (∃ s ∈ rs, s.lo = r.lo) ∧ ∃ s ∈ rs, s.hi = r.hi) ∧
      (∀ ss, ss.Perm rs → normalize ss = normalize rs) ∧
      normalize (normalize rs) = normalize rs := by
  have hspaced : Spaced (normalize rs) := normalize_pairwise rs
  refine ⟨hspaced, fun pos => ?_, fun r hr => ends_of_mem_normalize hr,
    fun ss hperm => normalize_perm hperm, hspaced.normalize_eq⟩
  rw [Bool.eq_iff_iff, any_touches, any_touches, touched_normalize]

/-- Intervals that overlap, meet end to end, lie one inside the other, lie side by side without
meeting or are empty. -/
theorem normalize_canonical_mixed :
    let rs := [between 12 15, between 4 4, between 10 20, between 7 10, between 0 3, between 5 6]
    normalize rs = [between 0 3, between 4 4, between 5 6, between 7 20] ∧
      normalize rs.reverse = normalize rs ∧
      (∃ s ∈ rs, s.lo = 7) ∧ ∃ s ∈ rs, s.hi = 20 := by
  intro rs
  have hform : normalize rs = [between 0 3, between 4 4, between 5 6, between 7 20] := by
    unfold normalize
    rw [mergeSort_eq_sortWithin]
    decide +kernel
  obtain ⟨-, -, hends, hperm, -⟩ := normalize_canonical rs
  exact ⟨hform, hperm rs.reverse rs.reverse_perm, hends (between 7 20) (by simp [hform])⟩

end Interval

end FencedCode
