import FencedCode.Proofs.Boundaries
import FencedCode.Proofs.Clipping
import FencedCode.Proofs.Decorations

namespace FencedCode

namespace Text

variable {t : Text} {lo hi : Nat}

theorem add_size_slice (hlo : t.isBoundary lo) (hhi : t.isBoundary hi) (hle : lo ≤ hi) :
    lo + size (slice t lo hi) = hi := by
  have hsize := congrArg size (slice_append_drop hlo hhi hle)
  have hleft := floor_add_size_drop t lo
  have hright := floor_add_size_drop t hi
  rw [floor_eq_self hlo] at hleft
  rw [floor_eq_self hhi] at hright
  rw [size_append] at hsize
  omega

theorem slice_ne_nil (hlo : t.isBoundary lo) (hhi : t.isBoundary hi) (hlt : lo < hi) :
    slice t lo hi ≠ [] := by
  intro h
  have hsize := add_size_slice hlo hhi hlt.le
  rw [h, size] at hsize
  omega

end Text

namespace Decoration

/-- A byte of a line that starts at offset `start` lies in the part of the decoration on the line,
and this part begins and ends between characters. -/
structure Shows (d : Decoration) (start : Nat) (line : Text) (p : Nat) : Prop where
  contains : d.contains (start + p)
  begins : line.isBoundary (d.start - start)
  ends : line.isBoundary (min (d.stop - start) (Text.size line))

/-- The first ends before the second starts, unless one of them is empty. -/
def EndsBefore (d e : Decoration) : Prop := d.start < d.stop → e.start < e.stop → d.stop ≤ e.start

theorem endsBefore_of_disjoint {d e : Decoration} (hle : d.start ≤ e.start)
    (h : ∀ k, d.contains k → ¬ e.contains k) : d.EndsBefore e := by
  intro _ he
  by_contra hlt
  apply h e.start
  · exact contains_iff.2 ⟨hle, not_le.1 hlt⟩
  · exact contains_iff.2 ⟨le_rfl, he⟩

variable {d e : Decoration} {start p : Nat} {line : Text}

theorem Shows.start_lt_stop (h : d.Shows start line p) : d.start < d.stop := by
  have hcontains := contains_iff.1 h.contains
  omega

theorem Shows.stop_le (h : e.Shows start line p) (hd : d.start < d.stop) (hde : d.EndsBefore e) :
    d.stop ≤ start + p :=
  (hde hd h.start_lt_stop).trans (contains_iff.1 h.contains).1

/-- The bytes on which a decoration shows, counted from the start of the line. -/
theorem shows_iff (hp : p < Text.size line) :
    d.Shows start line p ↔
      d.start - start ≤ p ∧ p < min (d.stop - start) (Text.size line) ∧
        line.isBoundary (d.start - start) ∧
          line.isBoundary (min (d.stop - start) (Text.size line)) := by
  constructor
  · rintro ⟨hcontains, hbegins, hends⟩
    rw [contains_iff] at hcontains
    exact ⟨by omega, by omega, hbegins, hends⟩
  · rintro ⟨hlo, hhi, hbegins, hends⟩
    exact ⟨contains_iff.2 ⟨by omega, by omega⟩, hbegins, hends⟩

end Decoration

namespace Run

/-- The style of a byte under runs that begin at offset `pos`. -/
def styleAt (pos : Nat) : List Run → Nat → Option String
  | [], _ => none
  | r :: rs, p =>
    if p < pos + Text.size r.text then r.style else styleAt (pos + Text.size r.text) rs p

variable {pos p lo hi : Nat} {line : Text} {ds : List Decoration}

theorem text_ne_nil (hpos : line.isBoundary pos) (start : Nat) (ds : List Decoration) :
    ∀ r ∈ cut start line pos ds, r.text ≠ [] := by
  induction ds generalizing pos with
  | nil =>
    intro r hr hnil
    unfold cut rest at hr
    split_ifs at hr with hlt
    · obtain rfl := List.mem_singleton.1 hr
      have hdrop := Text.floor_add_size_drop line pos
      dsimp only at hnil
      rw [hnil, Text.floor_eq_self hpos, Text.size] at hdrop
      omega
    · exact absurd hr List.not_mem_nil
  | cons d ds ih =>
    intro r hr
    rw [cut] at hr
    split at hr
    · rename_i hcut
      obtain ⟨hlt, hlo, hhi⟩ := hcut
      rw [List.mem_append, List.mem_cons] at hr
      rcases hr with hr | rfl | hr
      · split_ifs at hr with hgap
        · obtain rfl := List.mem_singleton.1 hr
          exact Text.slice_ne_nil hpos hlo hgap
        · exact absurd hr List.not_mem_nil
      · exact Text.slice_ne_nil hlo hhi hlt
      · exact ih hhi r hr
    · exact ih hpos r hr

/-- In front of a decorated stretch there is no style, on the stretch its own, and behind it the
runs that follow tell. -/
theorem styleAt_stretch (hpos : line.isBoundary pos) (hlo : line.isBoundary lo)
    (hhi : line.isBoundary hi) (hle : pos ≤ lo) (hlt : lo < hi) (style : String) (rs : List Run)
    (hp : pos ≤ p) :
    styleAt pos ((if pos < lo then [⟨Text.slice line pos lo, none⟩] else []) ++
        ⟨Text.slice line lo hi, some style⟩ :: rs) p =
      if p < lo then none else if p < hi then some style else styleAt hi rs p := by
  by_cases hgap : pos < lo
  · rw [if_pos hgap, List.singleton_append, styleAt, styleAt, Text.add_size_slice hpos hlo hle,
      Text.add_size_slice hlo hhi hlt.le]
  · obtain rfl : pos = lo := by omega
    rw [if_neg hgap, List.nil_append, styleAt, Text.add_size_slice hlo hhi hlt.le,
      if_neg (not_lt.2 hp)]

/-- From a boundary on in front of which no decoration is left, the bytes of a line have the styles
of the decorations that show on them. -/
theorem styleAt_cut (start : Nat) (hpos : line.isBoundary pos)
    (hds : ds.Pairwise Decoration.EndsBefore)
    (hfree : ∀ d ∈ ds, d.start < d.stop → pos ≤ d.start - start) (hp : pos ≤ p)
    (hline : p < Text.size line) (style : String) :
    styleAt pos (cut start line pos ds) p = some style ↔
      ∃ d ∈ ds, d.style = style ∧ d.Shows start line p := by
  induction ds generalizing pos with
  | nil =>
    unfold cut rest
    rw [if_pos (hp.trans_lt hline)]
    simp [styleAt]
  | cons d ds ih =>
    obtain ⟨hd, hds⟩ := List.pairwise_cons.1 hds
    obtain ⟨hfirst, hrest⟩ := List.forall_mem_cons.1 hfree
    have hshows : d.Shows start line p ↔ _ := Decoration.shows_iff hline
    have hmax : d.start < d.stop → max (d.start - start) pos = d.start - start :=
      fun hne => max_eq_left (hfirst hne)
    rw [List.exists_mem_cons_iff, cut]
    split
    · rename_i hcut
      obtain ⟨hlt, hlo, hhi⟩ := hcut
      have hne : d.start < d.stop := by omega
      rw [hmax hne] at hlt hlo ⊢
      have hlater : (∃ e ∈ ds, e.style = style ∧ e.Shows start line p) →
          min (d.stop - start) (Text.size line) ≤ p := by
        rintro ⟨e, he, -, hshows⟩
        have hstop := hshows.stop_le hne (hd e he)
        omega
      rw [styleAt_stretch hpos hlo hhi (hfirst hne) hlt d.style _ hp, hshows]
      split_ifs with hgap hin
      · -- in front of the decoration neither it nor a later one shows
        refine iff_of_false (by simp) ?_
        rintro (⟨-, hle, -⟩ | h)
        · exact hle.not_gt hgap
        · exact (hlater h).not_gt (hgap.trans hlt)
      · -- on it no later one shows
        have hnone := mt hlater (not_le.2 hin)
        simp [hnone, not_lt.1 hgap, hin, hlo, hhi]
      · have hle := not_lt.1 hin
        have hrest' : ∀ e ∈ ds, e.start < e.stop →
            min (d.stop - start) (Text.size line) ≤ e.start - start := by
          intro e he hne'
          have := hd e he hne hne'
          omega
        rw [ih hhi hds hrest' hle]
        simp [hin]
    · -- what is passed over shows nowhere
      rename_i hcut
      have hnot : ¬ d.Shows start line p := by
        intro h
        obtain ⟨hle, hlt, hlo, hhi⟩ := hshows.1 h
        rw [hmax h.start_lt_stop] at hcut
        exact hcut ⟨hle.trans_lt hlt, hlo, hhi⟩
      rw [ih hpos hds hrest hp]
      simp [hnot]

/-- The runs of a line are not empty, and together they are the line, for all decorations in any
order. If the decorations are in order and have no byte in common, then each byte has the style of
the decoration that shows on it, and none where no decoration does. -/
theorem ofLine_shows (start : Nat) (line : Text) (ds : List Decoration) :
    (∀ r ∈ ofLine start line ds, r.text ≠ []) ∧
      (ofLine start line ds).flatMap Run.text = line ∧
      (ds.Pairwise (fun d e => d.start ≤ e.start) →
        ds.Pairwise (fun d e => ∀ k, d.contains k → ¬ e.contains k) →
        ∀ p < Text.size line, ∀ style,
          styleAt 0 (ofLine start line ds) p = some style ↔
            ∃ d ∈ ds, d.style = style ∧ d.Shows start line p) := by
  have hzero := Text.isBoundary_zero line
  refine ⟨text_ne_nil hzero start ds, flatMap_ofLine start line ds, ?_⟩
  intro hsorted hdisjoint p hp style
  have hds : ds.Pairwise Decoration.EndsBefore := (hsorted.and hdisjoint).imp fun h =>
    Decoration.endsBefore_of_disjoint h.1 h.2
  exact styleAt_cut start hzero hds (fun _ _ _ => Nat.zero_le _) (Nat.zero_le p) hp style

def twoWords : Text := "é fn".toList

/-- What ends inside the accented letter does not show, and what runs beyond the line does. -/
theorem ofLine_shows_twoWords :
    styleAt 0 (ofLine 10 twoWords [⟨8, 11, "a"⟩, ⟨13, 20, "b"⟩]) 0 = none ∧
      styleAt 0 (ofLine 10 twoWords [⟨8, 11, "a"⟩, ⟨13, 20, "b"⟩]) 4 = some "b" := by
  have hsorted : [⟨8, 11, "a"⟩, ⟨13, 20, "b"⟩].Pairwise
      fun d e : Decoration => d.start ≤ e.start := by decide
  have hdisjoint : [⟨8, 11, "a"⟩, ⟨13, 20, "b"⟩].Pairwise
      fun d e : Decoration => ∀ k, d.contains k → ¬ e.contains k := by
    simp only [List.pairwise_pair, Decoration.contains_iff]
    omega
  obtain ⟨-, -, hstyle⟩ := ofLine_shows 10 twoWords [⟨8, 11, "a"⟩, ⟨13, 20, "b"⟩]
  have hshows := hstyle hsorted hdisjoint
  constructor
  · refine Option.eq_none_iff_forall_ne_some.2 fun style h => ?_
    obtain ⟨d, hd, -, hcontains, -, hends⟩ := (hshows 0 (by decide) style).1 h
    simp only [List.mem_cons, List.not_mem_nil, or_false] at hd
    rcases hd with rfl | rfl
    · exact absurd hends (by decide)
    · exact absurd hcontains (by decide)
  · exact (hshows 4 (by decide) "b").2
      ⟨⟨13, 20, "b"⟩, by decide, rfl, by decide, by decide, by decide⟩

end Run

end FencedCode
