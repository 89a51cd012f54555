import FencedCode.Proofs.FenceIndex
import FencedCode.Proofs.Pairing

namespace FencedCode

namespace Highlighter

variable {σ : Type} (h : Highlighter σ) (es : List Edit) (t' : Text)

def tracked : Tracked where
  decorations := h.decorations
  visible := h.visible
  fences := h.fences
  structural := h.fences.isNone

def after : Tracked := es.foldl Tracked.edit h.tracked

def refenced : List Interval × List Interval :=
  refence (Document.ofText t') ((Document.ofText t').wholeLines (h.after es).dirty)
    (h.after es).fences

/-- Fence lines may pair differently after the edits. -/
def repaired : Bool := (h.after es).structural || !(h.refenced es t').2.isEmpty

def below : List Interval :=
  if h.repaired es t' then
    match ((h.after es).dirty.map (·.lo)).min? with
    | some first => [.between ((Document.ofText t').lineAt! first).start (Document.ofText t').size]
    | none => []
  else []

/-- The dirt that edits leave. -/
def dirt : List Interval := (h.after es).dirty ++ h.below es t'

def carried : Highlighter σ :=
  { h with
    decorations := (h.after es).decorations
    visible := (h.after es).visible
    fences := some (h.refenced es t').1 }

variable {h es t'} {t : Text}

theorem edit_eq (hes : es ≠ []) : h.edit (Document.ofText t') es =
    (h.carried es t').reconcile (Document.ofText t') (h.dirt es t') := by
  unfold edit
  have hne : es.isEmpty = false := by simpa using hes
  rw [hne]
  rfl

theorem Sound.tracked (hs : h.Sound t) : h.tracked.Sound t where
  wellFormed := hs.wellFormed
  clear := hs.clear
  visible := hs.visible
  dirty := by simp [Highlighter.tracked]
  fences := fun fs hfs i hi => (hs.fences fs hfs i).1 hi
  missed := fun fs hfs m hm => .inl ((hs.fences fs hfs m.span).2 ⟨m, hm, rfl⟩)

theorem Sound.after (hs : h.Sound t) (hsp : Splices t es t') : (h.after es).Sound t' :=
  hs.tracked.edits hsp

theorem after_dirty_ne_nil (hes : es ≠ []) : (h.after es).dirty ≠ [] := by
  obtain ⟨front, last, rfl⟩ := List.eq_nil_or_concat es |>.resolve_left hes
  simp [Highlighter.after, Tracked.edit]

/-- With fence lines that may pair differently there is dirt from the line of the first edit on. -/
theorem exists_first (hes : es ≠ []) (hr : h.repaired es t' = true) :
    ∃ first, (∃ r ∈ (h.after es).dirty, r.lo = first) ∧
      (∀ r ∈ (h.after es).dirty, first ≤ r.lo) ∧ h.below es t' =
        [.between ((Document.ofText t').lineAt! first).start (Document.ofText t').size] := by
  have hne : (h.after es).dirty.map (·.lo) ≠ [] := by simpa using after_dirty_ne_nil hes
  obtain ⟨first, hmin⟩ := Option.ne_none_iff_exists'.1 (mt List.min?_eq_none_iff.1 hne)
  obtain ⟨hmem, hle⟩ := List.min?_eq_some_iff.1 hmin
  refine ⟨first, by simpa using hmem, fun r hr => hle _ (List.mem_map_of_mem hr), ?_⟩
  rw [below, if_pos hr, hmin]

theorem lineAt_le {first : Nat} (h : first ≤ Text.size t') :
    ((Document.ofText t').lineAt! first).start ≤ first ∧
      first ≤ ((Document.ofText t').lineAt! first).stop := by
  obtain ⟨-, h1, h2⟩ := Document.lineAt_spec t' first
  omega

/-- With fence lines that may pair differently, what lies from that line on is touched by dirt. -/
theorem touched_below {first : Nat} (hbelow : h.below es t' =
      [.between ((Document.ofText t').lineAt! first).start (Document.ofText t').size]) {pos : Nat}
    (hlo : ((Document.ofText t').lineAt! first).start ≤ pos) (hhi : pos ≤ Text.size t') :
    Interval.Touched (h.dirt es t') pos := by
  refine Interval.touched_append.2 (.inr ?_)
  rw [hbelow]
  refine ⟨_, List.mem_cons_self, ?_⟩
  rw [Interval.between_lo, Interval.between_hi, Document.ofText_size]
  omega

theorem dirt_le (hs : h.Sound t) (hsp : Splices t es t') :
    ∀ r ∈ h.dirt es t', r.hi ≤ Text.size t' := by
  intro r hr
  rcases List.mem_append.1 hr with hr | hr
  · exact (hs.after hsp).dirty r hr
  · unfold below at hr
    split_ifs at hr
    · split at hr
      · rename_i first _
        obtain rfl := List.mem_singleton.1 hr
        obtain ⟨-, hstart, -⟩ := Document.lineAt_spec t' first
        rw [Interval.between_hi, Document.ofText_size]
        omega
      · cases hr
    · cases hr

theorem dirty_iff (hs : h.Sound t) (hsp : Splices t es t') {pos : Nat} :
    Dirty t' (h.dirt es t') pos ↔ Interval.Touched (h.dirt es t') pos := by
  rw [Dirty, Interval.map_clamp (dirt_le hs hsp)]

theorem exists_above (hsp : Splices t es t') {first : Nat} (hle : first ≤ Text.size t')
    (hfirst : ∀ r ∈ (h.after es).dirty, first ≤ r.lo)
    (h0 : 0 < ((Document.ofText t').lineAt! first).start) :
    ∃ u v v', t = u ++ '\n' :: v ∧ t' = u ++ '\n' :: v' ∧
      Text.size u + 1 = ((Document.ofText t').lineAt! first).start := by
  have hstart : Shared t t h.tracked.dirty := ⟨t, [], [], by simp, by simp, fun pos hpos _ => hpos⟩
  have hshared : Shared t t' (h.after es).dirty := hstart.edits hsp
  obtain ⟨hl, h1, -⟩ := Document.lineAt_spec t' first
  apply hshared.exists_newline (Document.mark_mem_marks hl) h0
  intro r hr
  exact (lineAt_le hle).1.trans (hfirst r hr)

theorem touched_fence {m : Mark} (hm : m ∈ Text.fences t') {pos : Nat}
    (hpos : Interval.Touched (h.after es).dirty pos) (hhi : pos ≤ m.stop) :
    Interval.Touched ((Document.ofText t').wholeLines (h.after es).dirty) pos :=
  Document.touched_wholeLines hpos
    (hhi.trans (Text.stop_le_of_mem_marks (Text.mem_fences.1 hm).1))

/-- No fence line was edited, found or lost: they are those of before, moved along, and so are the
regions that decorations begin in. -/
theorem unrepaired (hs : h.Sound t) (hsp : Splices t es t') (hr : h.repaired es t' = false) :
    (∀ m ∈ Text.fences t, Edit.AvoidAll es m.start m.stop) ∧
      Text.fences t' = (Text.fences t).map (·.movedAll es) ∧
        ∀ d ∈ (h.after es).decorations, d.Rooted t' := by
  obtain ⟨hstruct, hfound⟩ := Bool.or_eq_false_iff.1 hr
  have hfences : h.fences.isNone = false :=
    Tracked.structural_of_edits (T := h.tracked) hstruct
  obtain ⟨gs, hgs⟩ := Option.isSome_iff_exists.1 (Option.isNone_eq_false_iff.1 hfences)
  have htracks : h.tracked.Tracks (Text.fences t) := ⟨gs, hgs, hs.fences gs hgs⟩
  obtain ⟨⟨gs', hgs', hmem⟩, hold, hroot⟩ :=
    htracks.edits hsp (fun m hm => hm) hstruct hs.wellFormed hs.rooted
  have hsound := hs.after hsp
  have hempty : (h.refenced es t').2 = [] := by simpa using hfound
  -- a fence line that was not tracked would have been found on the edited lines
  have hnone : ∀ m ∈ Text.fences t', ((Document.ofText t').wholeLines (h.after es).dirty).any
      (·.intersects m.span) = false := fun m hm =>
    Document.refence_found Document.wholeLines_hi_le hempty hm
  have hnew : ∀ m ∈ Text.fences t', ∃ n ∈ Text.fences t, (n.movedAll es).span = m.span := by
    intro m hm
    rcases hsound.missed gs' hgs' m hm with hin | ⟨pos, hpos, hlo, hhi⟩
    · obtain ⟨_, hn', hspan⟩ := (hmem m.span).1 hin
      obtain ⟨n, hn, rfl⟩ := List.mem_map.1 hn'
      exact ⟨n, hn, hspan⟩
    · exact absurd (Interval.any_intersects.2 ⟨pos, touched_fence hm hpos hhi, by
        rw [Mark.span_lo, Mark.span_hi]
        exact ⟨hlo, hhi⟩⟩) (by rw [hnone m hm]; decide)
  have heq := Tracked.fences_eq_map hsp hold hnew
  refine ⟨fun m hm => (hold m hm).1, heq, fun d hd => ?_⟩
  have := hroot d hd
  rw [← heq] at this
  exact this

/-- A decoration that begins above all dirt of a repairing batch begins in the region it began
in. -/
theorem rooted_above (hs : h.Sound t) (hsp : Splices t es t') {first : Nat}
    (hle : first ≤ Text.size t') (hfirst : ∀ r ∈ (h.after es).dirty, first ≤ r.lo) {d : Decoration}
    (hd : d ∈ (h.after es).decorations)
    (hlt : d.start < ((Document.ofText t').lineAt! first).start) : d.Rooted t' := by
  have hstart := (lineAt_le hle).1
  -- it has not moved, so it was there before, and the lines around it are the same
  have hold : d ∈ h.decorations := by
    refine (Tracked.mem_or_behind hsp (T := h.tracked) hs.wellFormed (fun d hd => .inl hd) d
      hd).resolve_right ?_
    rintro ⟨r, hr, hrd⟩
    have := hfirst r hr
    omega
  obtain ⟨r, hr, hopen, hclose⟩ := hs.rooted d hold
  obtain ⟨u, v, v', rfl, rfl, hu⟩ := exists_above hsp hle hfirst (by omega)
  have := r.opener.start_le_stop
  obtain ⟨r', hr', ho, hc⟩ := Text.exists_region_same_lines v' hr (by omega)
  refine ⟨r', hr', ho ▸ hopen, fun c hc' => ?_⟩
  rcases hc with rfl | ⟨-, hc⟩
  · exact hclose c hc'
  · have := hc c hc'
    omega

/-- A decoration that begins outside the dirt begins in a region. -/
theorem rooted_after (hs : h.Sound t) (hsp : Splices t es t') (hes : es ≠ []) {d : Decoration}
    (hd : d ∈ (h.after es).decorations) (hclean : ¬ Dirty t' (h.dirt es t') d.start) :
    d.Rooted t' := by
  have hsound := hs.after hsp
  rw [dirty_iff hs hsp] at hclean
  cases hr : h.repaired es t' with
  | false => exact (unrepaired hs hsp hr).2.2 d hd
  | true =>
    obtain ⟨first, ⟨r, hmem, rfl⟩, hfirst, hbelow⟩ := exists_first hes hr
    have hle := r.lo_le_hi.trans (hsound.dirty r hmem)
    apply rooted_above hs hsp hle hfirst hd
    by_contra hge
    obtain ⟨hlt, hend⟩ := hsound.wellFormed.bounds d hd
    exact hclean (touched_below hbelow (not_lt.1 hge) (hlt.le.trans hend))

theorem Sound.edit (hs : h.Sound t) (hsp : Splices t es t') :
    (h.edit (Document.ofText t') es).Sound t' := by
  by_cases hes : es = []
  · subst hes
    cases hsp
    exact hs
  have hsound := hs.after hsp
  rw [edit_eq hes]
  refine sound_reconcile (fun fs hfs => ?_) hsound.visible hsound.wellFormed
    (fun d hd hclean => rooted_after hs hsp hes hd hclean) hsound.clear
  obtain rfl := Option.some.inj hfs
  apply Document.mem_refence Document.wholeLines_hi_le hsound.fences
  intro fs hfs m hm
  apply (hsound.missed fs hfs m hm).imp_right
  rintro ⟨pos, hpos, hlo, hhi⟩
  rw [Interval.any_intersects, Mark.span_lo, Mark.span_hi]
  exact ⟨pos, touched_fence hm hpos hhi, hlo, hhi⟩

end Highlighter

end FencedCode
