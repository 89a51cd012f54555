import FencedCode.Proofs.Reconcile

namespace FencedCode

namespace Edit

variable {e : Edit}

theorem mapPos_mono (he : e.Ordered) {a b : Nat} (h : a ≤ b) (bias : Bias) :
    e.mapPos a bias ≤ e.mapPos b bias := by
  unfold Ordered at he
  cases bias <;> simp only [mapPos, Bool.or_eq_true, Bool.and_eq_true, decide_eq_true_eq,
    beq_iff_eq] <;> split_ifs <;> omega

theorem mapPos_left_le_right (he : e.Ordered) (a : Nat) : e.mapPos a .left ≤ e.mapPos a .right := by
  unfold Ordered at he
  simp only [mapPos, Bool.or_eq_true, Bool.and_eq_true, decide_eq_true_eq, beq_iff_eq]
  split_ifs <;> omega

theorem mapPos_le_size {t t' : Text} (hs : Splice t e t') {a : Nat} (h : a ≤ Text.size t)
    (bias : Bias) : e.mapPos a bias ≤ Text.size t' := by
  have he := hs.ordered
  have hold := hs.oldEnd_le
  have hsize := hs.size_eq
  unfold Ordered at he
  cases bias <;> simp only [mapPos, Bool.or_eq_true, Bool.and_eq_true, decide_eq_true_eq,
    beq_iff_eq] <;> split_ifs <;> omega

theorem mapInterval_lo (he : e.Ordered) (r : Interval) :
    (e.mapInterval r).lo = e.mapPos r.lo .left := by
  have h1 := mapPos_mono he r.lo_le_hi .left
  have h2 := mapPos_left_le_right he r.hi
  rw [mapInterval, Interval.between_lo]
  omega

theorem mapInterval_hi (he : e.Ordered) (r : Interval) :
    (e.mapInterval r).hi = e.mapPos r.hi .right := by
  have h1 := mapPos_mono he r.lo_le_hi .left
  have h2 := mapPos_left_le_right he r.hi
  rw [mapInterval, Interval.between_hi]
  omega

/-- An offset that the replaced span does not touch moves along with the intervals around it, and
with no others. -/
theorem mem_mapInterval (he : e.Ordered) {pos : Nat} (h : e.Avoids pos pos) {r : Interval}
    (hr : r.lo ≤ pos ∧ pos ≤ r.hi) :
    (e.mapInterval r).lo ≤ e.move pos ∧ e.move pos ≤ (e.mapInterval r).hi := by
  rw [mapInterval_lo he, mapInterval_hi he]
  constructor
  · rw [← mapPos_eq_move h he .left]
    exact mapPos_mono he hr.1 .left
  · rw [← mapPos_eq_move h he .right]
    exact mapPos_mono he hr.2 .right

/-- What touches an offset moves along with it, unless the replaced span touches the offset. -/
theorem touched_map (he : e.Ordered) {pos : Nat} (h : e.Avoids pos pos) {rs : List Interval}
    (hr : Interval.Touched rs pos) : Interval.Touched (rs.map e.mapInterval) (e.move pos) := by
  obtain ⟨r, hr, hpos⟩ := hr
  exact ⟨_, List.mem_map_of_mem hr, mem_mapInterval he h hpos⟩

theorem newRange_bounds (he : e.Ordered) : e.newRange.lo = e.start ∧ e.newRange.hi = e.newEnd := by
  rw [newRange, Interval.between_lo, Interval.between_hi]
  exact ⟨min_eq_left he.2, max_eq_right he.2⟩

theorem symm_avoids_iff (he : e.Ordered) {lo hi : Nat} :
    e.symm.Avoids lo hi ↔ hi < e.newRange.lo ∨ e.newRange.hi < lo := by
  rw [(newRange_bounds he).1, (newRange_bounds he).2]
  rfl

end Edit

theorem Decoration.Clear.map {t t' : Text} {e : Edit} (hs : Splice t e t') {d d' : Decoration}
    (hd : d.start < d.stop) (hmap : d.map? e = some d') (h : d.Clear t) : d'.Clear t' := by
  intro f hf hlt
  by_contra hle
  have he := hs.ordered
  have hss := f.start_le_stop
  obtain ⟨hmark, hcloses⟩ := Text.mem_fences.1 hf
  have hord : e.start ≤ e.oldEnd ∧ e.start ≤ e.newEnd := he
  -- the fence line lies in what the decoration covers, where nothing was edited
  have havoid : e.symm.Avoids f.start f.stop := by
    rw [Edit.symm_avoids_iff he, (Edit.newRange_bounds he).1, (Edit.newRange_bounds he).2]
    rcases Decoration.map?_eq_some hd hmap with ⟨h1, rfl⟩ | ⟨h1, h2, h3, -⟩ <;> omega
  obtain ⟨m, hm, hma, rfl⟩ := hs.exists_moved hmark havoid
  have hms := m.start_le_stop
  have hclear := h m (Text.mem_fences.2 ⟨hm, hcloses⟩)
  rw [Mark.moved_stop hma he] at hle havoid hss
  rw [Mark.moved_start] at hlt havoid hss
  unfold Edit.Avoids at hma
  unfold Edit.move at *
  rcases Decoration.map?_eq_some hd hmap with ⟨h1, rfl⟩ | ⟨h1, h2, h3, -⟩ <;>
    split_ifs at * <;> omega

namespace Tracked

/-- What holds while edits are tracked: all about the text they have led to so far. -/
structure Sound (T : Tracked) (t : Text) : Prop where
  wellFormed : DecorationSet.WellFormed (Text.size t) T.decorations
  clear : ∀ d ∈ T.decorations, d.Clear t
  visible : ∀ vs, T.visible = some vs → ∀ v ∈ vs, v.hi ≤ Text.size t
  dirty : ∀ r ∈ T.dirty, r.hi ≤ Text.size t
  fences : ∀ fs, T.fences = some fs → ∀ i ∈ fs, ∃ m ∈ Text.fences t, m.span = i
  missed : ∀ fs, T.fences = some fs → ∀ m ∈ Text.fences t,
    m.span ∈ fs ∨ ∃ pos, Interval.Touched T.dirty pos ∧ m.start ≤ pos ∧ pos ≤ m.stop

theorem touched_edit_dirty {T : Tracked} {e : Edit} {pos : Nat} :
    Interval.Touched (T.edit e).dirty pos ↔
      Interval.Touched (T.dirty.map e.mapInterval) pos ∨
        e.newRange.lo ≤ pos ∧ pos ≤ e.newRange.hi := by
  rw [edit, Interval.touched_append]
  simp [Interval.Touched]

theorem dirty_edit_le {T : Tracked} {t t' : Text} {e : Edit} (hs : Splice t e t')
    (h : ∀ r ∈ T.dirty, r.hi ≤ Text.size t) : ∀ r ∈ (T.edit e).dirty, r.hi ≤ Text.size t' := by
  intro r hr
  rcases List.mem_append.1 hr with hr | hr
  · obtain ⟨q, hq, rfl⟩ := List.mem_map.1 hr
    rw [Edit.mapInterval_hi hs.ordered]
    exact Edit.mapPos_le_size hs (h q hq) .right
  · obtain rfl := List.mem_singleton.1 hr
    rw [(Edit.newRange_bounds hs.ordered).2]
    exact hs.newEnd_le

theorem dirty_edits_le {t t' : Text} {es : List Edit} (hs : Splices t es t') {T : Tracked}
    (h : ∀ r ∈ T.dirty, r.hi ≤ Text.size t) :
    ∀ r ∈ (es.foldl Tracked.edit T).dirty, r.hi ≤ Text.size t' := by
  induction hs generalizing T with
  | nil => exact h
  | cons hs _ ih => exact ih (dirty_edit_le hs h)

theorem mem_edit_fences {T : Tracked} {t t' : Text} {e : Edit} (hs : Splice t e t')
    {fs : List Interval} (hfs : T.fences = some fs) {m : Mark} (hm : m.span ∈ fs)
    (ha : e.Avoids m.start m.stop) :
    ∃ fs', (T.edit e).fences = some fs' ∧ (m.moved e).span ∈ fs' := by
  refine ⟨(fs.filter fun f => !e.touches f).map e.mapInterval, by rw [edit, hfs]; rfl, ?_⟩
  rw [Mark.moved_span ha hs.ordered]
  refine List.mem_map_of_mem (List.mem_filter.2 ⟨hm, ?_⟩)
  rw [Edit.touches_eq_false_iff.2 (by rwa [Mark.span_lo, Mark.span_hi])]
  rfl

/-- One edit keeps what is tracked sound. -/
theorem Sound.edit {T : Tracked} {t t' : Text} {e : Edit} (h : T.Sound t) (hs : Splice t e t') :
    (T.edit e).Sound t' := by
  have he := hs.ordered
  refine ⟨h.wellFormed.map hs, fun d' hd' => ?_, fun vs hvs v hv => ?_,
    dirty_edit_le hs h.dirty, fun fs hfs i hi => ?_, fun fs hfs m hm => ?_⟩
  · obtain ⟨d, hd, hmap⟩ := List.mem_filterMap.1 hd'
    exact (h.clear d hd).map hs (h.wellFormed.bounds d hd).1 hmap
  · obtain ⟨ws, hws, rfl⟩ := Option.map_eq_some_iff.1 hvs
    obtain ⟨w, hw, rfl⟩ := List.mem_map.1 hv
    rw [Edit.mapInterval_hi he]
    exact Edit.mapPos_le_size hs (h.visible ws hws w hw) .right
  · obtain ⟨gs, hgs, rfl⟩ := Option.map_eq_some_iff.1 hfs
    obtain ⟨g, hg, rfl⟩ := List.mem_map.1 hi
    obtain ⟨hmem, htouch⟩ := List.mem_filter.1 hg
    obtain ⟨m, hm, rfl⟩ := h.fences gs hgs g hmem
    obtain ⟨hmark, hcloses⟩ := Text.mem_fences.1 hm
    have ha : e.Avoids m.start m.stop := by
      rw [← m.span_lo, ← m.span_hi]
      exact Edit.touches_eq_false_iff.1 (by simpa using htouch)
    exact ⟨m.moved e, Text.mem_fences.2 ⟨hs.moved_mem_marks hmark ha, hcloses⟩,
      Mark.moved_span ha he⟩
  · obtain ⟨fs₀, hfs₀, -⟩ := Option.map_eq_some_iff.1 hfs
    obtain ⟨hmark, hcloses⟩ := Text.mem_fences.1 hm
    -- a fence line that the edit has not made was there before
    by_cases ha : e.symm.Avoids m.start m.stop
    · obtain ⟨n, hn, hna, rfl⟩ := hs.exists_moved hmark ha
      have hns := n.start_le_stop
      rcases h.missed fs₀ hfs₀ n (Text.mem_fences.2 ⟨hn, hcloses⟩) with hin | ⟨pos, hpos, hlo, hhi⟩
      · obtain ⟨fs', hfs', hin'⟩ := mem_edit_fences hs hfs₀ hin hna
        obtain rfl : fs' = fs := Option.some.inj (hfs'.symm.trans hfs)
        exact .inl hin'
      · -- dirt on the line has moved along with it
        refine .inr ⟨e.move pos,
          touched_edit_dirty.2 (.inl (Edit.touched_map he (hna.mono hlo hhi) hpos)), ?_⟩
        rw [Mark.moved_stop hna he, Mark.moved_start]
        have hord : e.start ≤ e.oldEnd ∧ e.start ≤ e.newEnd := he
        unfold Edit.Avoids at hna
        unfold Edit.move
        split_ifs <;> omega
    · rw [Edit.symm_avoids_iff he] at ha
      have hms := m.start_le_stop
      have hrange := e.newRange.lo_le_hi
      exact .inr ⟨max m.start e.newRange.lo, touched_edit_dirty.2 (.inr (by omega)), by omega⟩

theorem Sound.edits {t t' : Text} {es : List Edit} (hs : Splices t es t') {T : Tracked}
    (h : T.Sound t) : (es.foldl Tracked.edit T).Sound t' := by
  induction hs generalizing T with
  | nil => exact h
  | cons hs _ ih => exact ih (h.edit hs)

end Tracked

end FencedCode
