import FencedCode.Highlighter
import FencedCode.Proofs.Blocks

namespace FencedCode.Document

variable {t : Text}

theorem getElem?_index {l : Line} (h : l ∈ (ofText t).lines) :
    (ofText t).lines[l.index]? = some l := by
  obtain ⟨i, hi⟩ := List.mem_iff_getElem?.1 h
  rwa [index_eq hi]

theorem eq_of_index_eq {k l : Line} (hk : k ∈ (ofText t).lines) (hl : l ∈ (ofText t).lines)
    (h : k.index = l.index) : k = l :=
  Option.some.inj ((getElem?_index hk).symm.trans (h ▸ getElem?_index hl))

theorem stop_lt_start_of_index_lt {k l : Line} (hk : k ∈ (ofText t).lines)
    (hl : l ∈ (ofText t).lines) (h : k.index < l.index) : k.stop < l.start := by
  obtain ⟨hi, hki⟩ := List.getElem?_eq_some_iff.1 (getElem?_index hk)
  obtain ⟨hj, hlj⟩ := List.getElem?_eq_some_iff.1 (getElem?_index hl)
  have := List.pairwise_iff_getElem.1 (lines_pairwise t) _ _ hi hj h
  rw [hki, hlj, ← stop_eq_mark_stop hk] at this
  exact this

theorem mem_lines_between {first last : Nat} {l : Line} :
    l ∈ ((ofText t).lines.drop first).take (last + 1 - first) ↔
      l ∈ (ofText t).lines ∧ first ≤ l.index ∧ l.index ≤ last := by
  constructor
  · intro h
    obtain ⟨i, hi⟩ := List.mem_iff_getElem?.1 h
    rw [List.getElem?_take] at hi
    split_ifs at hi with hlt
    rw [List.getElem?_drop] at hi
    have := index_eq hi
    exact ⟨List.mem_of_getElem? hi, by omega, by omega⟩
  · rintro ⟨h, h1, h2⟩
    refine List.mem_of_getElem? (i := l.index - first) ?_
    rw [List.getElem?_take, if_pos (by omega), List.getElem?_drop, Nat.add_sub_cancel' h1]
    exact getElem?_index h

/-- The lines numbered from that of one offset to that of another are those between the offsets. -/
theorem index_between_iff {a b : Nat} {l : Line} (hl : l ∈ (ofText t).lines) :
    (((ofText t).lineAt! a).index ≤ l.index ∧ l.index ≤ ((ofText t).lineAt! b).index) ↔
      l.start ≤ min b (Text.size t) ∧ min a (Text.size t) ≤ l.stop := by
  obtain ⟨hfirst, hf1, hf2⟩ := lineAt_spec t a
  obtain ⟨hlast, hl1, hl2⟩ := lineAt_spec t b
  have hle : l.start ≤ l.stop := stop_eq_mark_stop hl ▸ l.mark.start_le_stop
  constructor
  · rintro ⟨h1, h2⟩
    constructor
    · rcases h2.eq_or_lt with h2 | h2
      · rwa [eq_of_index_eq hl hlast h2]
      · have := stop_lt_start_of_index_lt hl hlast h2
        omega
    · rcases h1.eq_or_lt with h1 | h1
      · rwa [← eq_of_index_eq hfirst hl h1]
      · have := stop_lt_start_of_index_lt hfirst hl h1
        omega
  · rintro ⟨h1, h2⟩
    -- a line numbered before the first or behind the last lies apart from the offsets
    constructor
    · by_contra hlt
      have := stop_lt_start_of_index_lt hl hfirst (by omega)
      omega
    · by_contra hlt
      have := stop_lt_start_of_index_lt hlast hl (by omega)
      omega

theorem mem_fenceLines {r i : Interval} : i ∈ (ofText t).fenceLines r ↔
    ∃ m ∈ Text.fences t, m.span = i ∧
      m.start ≤ min r.hi (Text.size t) ∧ min r.lo (Text.size t) ≤ m.stop := by
  have hspan : ∀ l ∈ (ofText t).lines, Interval.between l.start l.stop = l.mark.span := by
    intro l hl
    rw [stop_eq_mark_stop hl]
    rfl
  unfold fenceLines
  simp only [List.mem_map, List.mem_filter, mem_lines_between]
  constructor
  · rintro ⟨l, ⟨⟨hl, hb⟩, hc⟩, rfl⟩
    obtain ⟨h1, h2⟩ := (index_between_iff hl).1 hb
    refine ⟨l.mark, Text.mem_fences.2 ⟨mark_mem_marks hl, hc⟩, (hspan l hl).symm, h1, ?_⟩
    rwa [← stop_eq_mark_stop hl]
  · rintro ⟨m, hm, rfl, h1, h2⟩
    obtain ⟨hmark, hc⟩ := Text.mem_fences.1 hm
    rw [← map_mark_lines] at hmark
    obtain ⟨l, hl, rfl⟩ := List.mem_map.1 hmark
    exact ⟨l, ⟨⟨hl, (index_between_iff hl).2 ⟨h1, stop_eq_mark_stop hl ▸ h2⟩⟩, hc⟩, hspan l hl⟩

theorem touched_wholeLines {rs : List Interval} {pos : Nat} (h : Interval.Touched rs pos)
    (hpos : pos ≤ Text.size t) : Interval.Touched ((ofText t).wholeLines rs) pos := by
  obtain ⟨r, hr, h1, h2⟩ := h
  obtain ⟨-, hf, -⟩ := lineAt_spec t r.lo
  obtain ⟨-, -, hl⟩ := lineAt_spec t r.hi
  refine Interval.touched_normalize.2 ⟨_, List.mem_map_of_mem hr, ?_⟩
  rw [Interval.between_lo, Interval.between_hi]
  omega

theorem wholeLines_hi_le {rs : List Interval} :
    ∀ i ∈ (ofText t).wholeLines rs, i.hi ≤ Text.size t := by
  intro i hi
  obtain ⟨j, hj, -, h2⟩ := Interval.touched_normalize.1 ⟨i, hi, i.lo_le_hi, le_rfl⟩
  obtain ⟨r, -, rfl⟩ := List.mem_map.1 hj
  obtain ⟨-, hf, -⟩ := lineAt_spec t r.lo
  obtain ⟨hl, -, -⟩ := lineAt_spec t r.hi
  have := Text.stop_le_of_mem_marks (mark_mem_marks hl)
  rw [← stop_eq_mark_stop hl] at this
  rw [Interval.between_hi] at h2
  omega

theorem mem_found {edited : List Interval} (hed : ∀ r ∈ edited, r.hi ≤ Text.size t)
    {i : Interval} : i ∈ edited.flatMap (ofText t).fenceLines ↔
      ∃ m ∈ Text.fences t, m.span = i ∧ edited.any (·.intersects m.span) := by
  have hone : ∀ r ∈ edited, ∀ m : Mark, (m.start ≤ min r.hi (Text.size t) ∧
      min r.lo (Text.size t) ≤ m.stop) ↔ r.intersects m.span := by
    intro r hr m
    have := hed r hr
    have := r.lo_le_hi
    simp only [Interval.intersects, Mark.span_lo, Mark.span_hi, Bool.and_eq_true,
      decide_eq_true_eq]
    omega
  simp only [List.mem_flatMap, mem_fenceLines, List.any_eq_true]
  constructor
  · rintro ⟨r, hr, m, hm, rfl, h⟩
    exact ⟨m, hm, rfl, r, hr, (hone r hr m).1 h⟩
  · rintro ⟨m, hm, rfl, r, hr, h⟩
    exact ⟨r, hr, m, hm, rfl, (hone r hr m).2 h⟩

theorem mem_fenceLines_all {i : Interval} :
    i ∈ (ofText t).fenceLines (ofText t).all ↔ ∃ m ∈ Text.fences t, m.span = i := by
  rw [mem_fenceLines]
  refine exists_congr fun m => and_congr_right fun hm => and_iff_left ?_
  have := Text.stop_le_of_mem_marks (Text.mem_fences.1 hm).1
  have := m.start_le_stop
  simp only [all, Interval.between_lo, Interval.between_hi, ofText_size]
  omega

/-- The renewed index holds the fence lines of the text. -/
theorem mem_refence {edited : List Interval} (hed : ∀ r ∈ edited, r.hi ≤ Text.size t)
    {fences : Option (List Interval)}
    (hsub : ∀ fs, fences = some fs → ∀ i ∈ fs, ∃ m ∈ Text.fences t, m.span = i)
    (hmissed : ∀ fs, fences = some fs → ∀ m ∈ Text.fences t,
      m.span ∈ fs ∨ edited.any (·.intersects m.span)) (i : Interval) :
    i ∈ (Highlighter.refence (ofText t) edited fences).1 ↔ ∃ m ∈ Text.fences t, m.span = i := by
  cases fences with
  | none => exact mem_fenceLines_all
  | some fs =>
    simp only [Highlighter.refence, List.mem_mergeSort, List.mem_append, List.mem_filter,
      Bool.not_eq_true']
    rw [mem_found hed]
    constructor
    · rintro (⟨hi, -⟩ | ⟨m, hm, rfl, -⟩)
      · exact hsub fs rfl i hi
      · exact ⟨m, hm, rfl⟩
    · rintro ⟨m, hm, rfl⟩
      -- on the edited lines it is found again, and elsewhere it has been kept
      by_cases h : edited.any (·.intersects m.span) = true
      · exact .inr ⟨m, hm, rfl, h⟩
      · exact .inl ⟨(hmissed fs rfl m hm).resolve_right h, Bool.not_eq_true _ ▸ h⟩

theorem refence_found {edited : List Interval} (hed : ∀ r ∈ edited, r.hi ≤ Text.size t)
    {fences : Option (List Interval)}
    (h : (Highlighter.refence (ofText t) edited fences).2 = []) {m : Mark}
    (hm : m ∈ Text.fences t) : edited.any (·.intersects m.span) = false := by
  have hfound : edited.flatMap (ofText t).fenceLines = [] := by
    cases fences <;> exact h
  by_contra hany
  have := (mem_found hed).2 ⟨m, hm, rfl, Bool.not_eq_false _ ▸ hany⟩
  rw [hfound] at this
  cases this

end FencedCode.Document
