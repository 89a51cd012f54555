import FencedCode.Proofs.Faithful

namespace FencedCode

namespace Highlighter

variable {σ : Type} {h : Highlighter σ} {t t' : Text} {es : List Edit} {b b' : Block}

/-- A block with dirt that is out of sight, and none that is in sight. -/
def HalfSeen (h : Highlighter σ) (t : Text) (dirty : List Interval) (b : Block) : Prop :=
  b ∈ (Document.ofText t).blocks h.aliases ∧ b ∉ h.repainted t dirty ∧
    ∃ pos, Dirty t dirty pos ∧ b.start ≤ pos ∧ pos ≤ b.stop

theorem mem_after_moved (hs : h.Sound t) (hsp : Splices t es t') {aliases : Aliases}
    (hb : b ∈ (Document.ofText t).blocks aliases) (hm : b.Moved es b') {d' : Decoration}
    (hd' : d' ∈ (h.after es).decorations) (hlo : b'.bodyStart ≤ d'.start)
    (hhi : d'.stop ≤ b'.stop) :
    ∃ d ∈ h.decorations, b.bodyStart ≤ d.start ∧ d.stop ≤ b.stop ∧ d.movedAll es = d' := by
  obtain ⟨h1, h2, h3, -⟩ := Document.block_bounds hb
  have hbody := hm.moves_eq hsp h1.le (by omega)
  rw [← hm.bodyStart] at hbody
  have hav := hsp.avoidAll_mono hm.avoid h1.le (show b.bodyStart ≤ b.stop by omega) le_rfl
  rw [hm.bodyStart] at hlo
  rw [hm.stop] at hhi
  exact Tracked.exists_movedAll hsp (T := h.tracked) (by omega) hav hs.wellFormed hd' hlo hhi

theorem faithfulAt_clean (hs : h.Sound t) (hf : h.Faithful t) (hsp : Splices t es t')
    (hes : es ≠ []) (hb' : b' ∈ (Document.ofText t').blocks h.aliases)
    (hclean : ∀ pos, b'.start ≤ pos → pos ≤ b'.stop → ¬ Interval.Touched (h.dirt es t') pos)
    {pos' : Nat} (hpos' : (h.carried es t').InSight pos') {d' : Decoration}
    (hd' : d'.contains pos') (hlo : b'.bodyStart ≤ d'.start) (hhi : d'.stop ≤ b'.stop) :
    d' ∈ (h.after es).decorations ↔ d' ∈ (Document.ofText t').paint h.answer b' := by
  obtain ⟨b, hb, hm⟩ := exists_moved_block hs hsp hes hb' hclean
  obtain ⟨h1, h2, h3, h4⟩ := Document.block_bounds hb
  obtain ⟨hd1, hd2⟩ := Decoration.contains_iff.1 hd'
  -- a decoration of the block before the edits, over the byte in sight
  have hbefore : ∀ d : Decoration, d.movedAll es = d' → b.bodyStart ≤ d.start → d.start < d.stop →
      d.stop ≤ b.stop → (d ∈ h.decorations ↔ d ∈ (Document.ofText t).paint h.answer b) := by
    rintro d rfl hdlo hdlt hdhi
    have hm1 := hm.moves_eq hsp (show b.start ≤ d.start by omega) (by omega)
    have hm2 := hm.moves_eq hsp (show b.start ≤ d.stop by omega) hdhi
    simp only [Decoration.movedAll] at hd1 hd2
    obtain ⟨k, rfl⟩ := Nat.exists_eq_add_of_le hd1
    have hp := hm.moves_eq hsp (show b.start ≤ d.start + k by omega) (by omega)
    have hpk : Edit.moves es (d.start + k) = Edit.moves es d.start + k := by omega
    have hav := hsp.avoidAll_mono hm.avoid (show b.start ≤ d.start + k by omega)
      (Nat.le_add_right _ 1) (by omega)
    refine hf b hb (d.start + k) ?_ d (Decoration.contains_iff.2 ⟨by omega, by omega⟩) hdlo hdhi
    obtain ⟨vs', hvs', v', hv', hv1, hv2⟩ := hpos'
    have hvis : (h.after es).visible = some vs' := hvs'
    rw [after, Tracked.visible_edits] at hvis
    obtain ⟨vs, hvs, rfl⟩ := Option.map_eq_some_iff.1 hvis
    obtain ⟨v, hv, rfl⟩ := List.mem_map.1 hv'
    rw [← hpk] at hv1 hv2
    exact ⟨vs, hvs, v, hv, Tracked.mem_of_mem_mapped hsp hav hv1 hv2⟩
  -- both sides have moved along with the block
  rw [hm.paint_eq hsp hb]
  constructor
  · intro hin
    obtain ⟨d, hd, hdlo, hdhi, hmoved⟩ := mem_after_moved hs hsp hb hm hin hlo hhi
    have hdlt := (hs.wellFormed.bounds d hd).1
    exact hmoved ▸ List.mem_map_of_mem ((hbefore d hmoved hdlo hdlt hdhi).1 hd)
  · intro hin
    obtain ⟨d, hd, rfl⟩ := List.mem_map.1 hin
    obtain ⟨hw, hbody⟩ := Document.paint_wellFormed hb h.answer
    have hdlt := (hw.bounds d hd).1
    obtain ⟨hdlo, hdhi⟩ := hbody d hd
    have hold := (hbefore d rfl hdlo hdlt (by omega)).2 hd
    exact Tracked.movedAll_mem hsp (T := h.tracked) hm.avoid hold (by omega) hdlt (by omega)

/-- After edits everything in sight is faithful, if it is in the blocks that are dirty only where
they are out of sight. -/
theorem faithful_edit (hs : h.Sound t) (hf : h.Faithful t) (hp : h.backend.tokenizer.Pure)
    (hsp : Splices t es t') (hes : es ≠ []) (hq : (h.carried es t').Quiet t' (h.dirt es t'))
    (hhalf : ∀ b, (h.carried es t').HalfSeen t' (h.dirt es t') b →
      ∀ pos, (h.carried es t').InSight pos → (h.edit (.ofText t') es).FaithfulAt t' b pos) :
    (h.edit (.ofText t') es).Faithful t' := by
  rw [edit_eq hes] at hhalf ⊢
  apply faithful_reconcile hq hp.stable
  intro b hb hout pos hpos
  -- a block that is not painted anew has dirt out of sight only, or none
  by_cases hdirt : ∃ pos, Dirty t' (h.dirt es t') pos ∧ b.start ≤ pos ∧ pos ≤ b.stop
  · exact hhalf b ⟨hb, hout, hdirt⟩ pos hpos
  · have hclean : ∀ pos, b.start ≤ pos → pos ≤ b.stop → ¬ Dirty t' (h.dirt es t') pos :=
      fun pos h1 h2 hd => hdirt ⟨pos, hd, h1, h2⟩
    have htouched : ∀ pos, b.start ≤ pos → pos ≤ b.stop →
        ¬ Interval.Touched (h.dirt es t') pos := fun pos h1 h2 hd =>
      hclean pos h1 h2 ((dirty_iff hs hsp).2 hd)
    intro d hd hlo hhi
    have hstart := (Decoration.within_block hb hd hlo hhi).1
    rw [mem_reconcile_clean hb hclean hstart, hq.answer hp.stable]
    exact faithfulAt_clean hs hf hsp hes hb htouched hpos hd hlo hhi

end Highlighter

/-- Every edit is made inside one of the intervals, as far as they have been moved before it. -/
def Edit.InsideAll : List Interval → List Edit → Prop
  | _, [] => True
  | vs, e :: es =>
    (∃ v ∈ vs, v.lo ≤ e.start ∧ e.oldEnd ≤ v.hi) ∧ InsideAll (vs.map e.mapInterval) es

/-- Edits inside visible intervals leave their dirt inside visible intervals. -/
theorem Tracked.dirty_inside {t t' : Text} {es : List Edit} (hs : Splices t es t') {T : Tracked}
    {vs : List Interval} (hv : T.visible = some vs) (hin : Edit.InsideAll vs es)
    (hd : ∀ r ∈ T.dirty, ∃ v ∈ vs, v.lo ≤ r.lo ∧ r.hi ≤ v.hi) :
    ∃ vs', (es.foldl Tracked.edit T).visible = some vs' ∧
      ∀ r ∈ (es.foldl Tracked.edit T).dirty, ∃ v ∈ vs', v.lo ≤ r.lo ∧ r.hi ≤ v.hi := by
  induction hs generalizing T vs with
  | nil => exact ⟨vs, hv, hd⟩
  | @cons _ _ _ e es hs _ ih =>
    have he := hs.ordered
    have hord : e.start ≤ e.oldEnd ∧ e.start ≤ e.newEnd := he
    obtain ⟨⟨w, hw, hlo, hhi⟩, hrest⟩ := hin
    apply ih (T := T.edit e) (by rw [edit, hv]; rfl) hrest
    intro r hr
    rcases List.mem_append.1 hr with hr | hr
    · obtain ⟨q, hq, rfl⟩ := List.mem_map.1 hr
      obtain ⟨v, hv, h1, h2⟩ := hd q hq
      refine ⟨_, List.mem_map_of_mem hv, ?_⟩
      rw [Edit.mapInterval_lo he, Edit.mapInterval_lo he, Edit.mapInterval_hi he,
        Edit.mapInterval_hi he]
      exact ⟨Edit.mapPos_mono he h1 .left, Edit.mapPos_mono he h2 .right⟩
    · obtain rfl := List.mem_singleton.1 hr
      refine ⟨_, List.mem_map_of_mem hw, ?_⟩
      rw [Edit.mapInterval_lo he, Edit.mapInterval_hi he, (Edit.newRange_bounds he).1,
        (Edit.newRange_bounds he).2]
      simp only [Edit.mapPos, Bool.or_eq_true, Bool.and_eq_true, decide_eq_true_eq, beq_iff_eq]
      constructor
      · split_ifs <;> omega
      · split_ifs <;> omega

namespace Highlighter

variable {σ : Type} {h : Highlighter σ} {t t' : Text} {es : List Edit} {b : Block}

/-- With every edit made in sight, a block that one of them touches is painted anew. -/
theorem mem_repainted_of_edited (hs : h.Sound t) (hsp : Splices t es t') {vs : List Interval}
    (hvs : h.visible = some vs) (hin : Edit.InsideAll vs es)
    (hb : b ∈ (Document.ofText t').blocks h.aliases) {pos : Nat}
    (hpos : Interval.Touched (h.after es).dirty pos) (hlo : b.start ≤ pos) (hhi : pos ≤ b.stop) :
    b ∈ (h.carried es t').repainted t' (h.dirt es t') := by
  obtain ⟨vs', hvs', hinside⟩ := Tracked.dirty_inside hsp (T := h.tracked) hvs hin
    (by simp [Highlighter.tracked])
  obtain ⟨r, hr, hr1, hr2⟩ := hpos
  obtain ⟨v, hv, h1, h2⟩ := hinside r hr
  have hdirt : Dirty t' (h.dirt es t') pos :=
    (dirty_iff hs hsp).2 (Interval.touched_append.2 (.inl ⟨r, hr, hr1, hr2⟩))
  have hshows : (h.carried es t').Shows pos := by
    intro ws hws
    obtain rfl : vs' = ws := Option.some.inj (hvs'.symm.trans hws)
    exact ⟨v, hv, h1.trans hr1, hr2.trans h2⟩
  exact mem_repainted.2 ⟨hb, pos, hdirt, hshows, hlo, hhi⟩

/-- With every edit made in sight, no block in sight is dirty only where it is out of sight. -/
theorem not_halfSeen (hs : h.Sound t) (hsp : Splices t es t') (hes : es ≠ []) {vs : List Interval}
    (hvs : h.visible = some vs) (hin : Edit.InsideAll vs es)
    (hb : (h.carried es t').HalfSeen t' (h.dirt es t') b) {pos : Nat}
    (hpos : (h.carried es t').InSight pos) (hlo : b.start ≤ pos) : b.stop < pos := by
  by_contra hhi
  obtain ⟨hblock, hout, q, hq, hq1, hq2⟩ := hb
  have hedited : ∀ p, Interval.Touched (h.after es).dirty p → b.start ≤ p → ¬ p ≤ b.stop :=
    fun p hp h1 h2 => hout (mem_repainted_of_edited hs hsp hvs hin hblock hp h1 h2)
  rw [dirty_iff hs hsp] at hq
  rcases Interval.touched_append.1 hq with hq' | hq'
  · exact hedited q hq' hq1 hq2
  have hr : h.repaired es t' = true := by
    by_contra hr
    rw [below, if_neg hr] at hq'
    obtain ⟨i, hi, -⟩ := hq'
    cases hi
  obtain ⟨first, ⟨r, hmem, rfl⟩, -, hbelow⟩ := exists_first hes hr
  have hle := r.lo_le_hi.trans ((hs.after hsp).dirty r hmem)
  obtain ⟨hl1, hl2⟩ := lineAt_le hle
  have hbounds := Document.block_bounds hblock
  rw [hbelow] at hq'
  obtain ⟨i, hi, hi1, hi2⟩ := hq'
  obtain rfl := List.mem_singleton.1 hi
  rw [Interval.between_lo, Document.ofText_size] at hi1
  -- the byte in sight stands above the line of the first edit, and the block reaches that line
  have habove : pos < ((Document.ofText t').lineAt! r.lo).start := by
    by_contra hge
    have hdirt := touched_below hbelow (not_lt.1 hge) (show pos ≤ Text.size t' by omega)
    exact hout (mem_repainted.2 ⟨hblock, pos, (dirty_iff hs hsp).2 hdirt, hpos.shows, hlo,
      by omega⟩)
  -- a block does not end inside a line, so this one reaches the first edit itself
  have hstop : b.stop < r.lo := by
    have := hedited r.lo ⟨r, hmem, le_rfl, r.lo_le_hi⟩ (by omega)
    omega
  have hend := Document.block_stop_lt_line hblock hle hstop
  omega

theorem Current.edit (hc : h.Current t) (hp : h.backend.tokenizer.Pure) (hsp : Splices t es t')
    {vs : List Interval} (hvs : h.visible = some vs) (hin : Edit.InsideAll vs es) :
    (h.edit (.ofText t') es).Current t' := by
  by_cases hes : es = []
  · subst hes
    cases hsp
    exact hc
  refine ⟨hc.sound.edit hsp, fun ha => ?_⟩
  have ha' := ha
  rw [edit_eq hes] at ha'
  have ha₀ : h.backend.loader.arrivals = 0 :=
    Nat.le_zero.1 ((reconcile_arrivals (h.carried es t') t' _).trans ha'.le)
  refine faithful_edit hc.sound (hc.faithful ha₀) hp hsp hes (quiet_of_arrivals ha')
    fun b hb pos hpos d hd hlo hhi => ?_
  have hwithin := (Decoration.within_block hb.1 hd hlo hhi).2
  have hbehind := not_halfSeen hc.sound hsp hes hvs hin hb hpos hwithin.1
  omega

end Highlighter

end FencedCode
