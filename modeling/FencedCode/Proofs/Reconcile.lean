import FencedCode.Highlighter
import FencedCode.Proofs.Backends

namespace FencedCode

namespace Decoration

/-- The decoration begins in the body of a region. -/
def Rooted (t : Text) (d : Decoration) : Prop :=
  ∃ r ∈ Text.regions t, r.opener.stop < d.start ∧ ∀ c, r.closer = some c → d.start < c.start

/-- The decoration does not run over a whole fence line. -/
def Clear (t : Text) (d : Decoration) : Prop :=
  ∀ f ∈ Text.fences t, d.start < f.start → d.stop ≤ f.stop

variable {t : Text} {d : Decoration}

theorem rooted_clear_of_block {aliases : Aliases} {b : Block}
    (hb : b ∈ (Document.ofText t).blocks aliases) (hlo : b.bodyStart ≤ d.start)
    (hlt : d.start < d.stop) (hhi : d.stop ≤ b.bodyStop) : d.Rooted t ∧ d.Clear t := by
  obtain ⟨r, hr, hblock⟩ := Document.mem_blocks.1 hb
  obtain ⟨-, hstart, hstop, -, -⟩ := Region.block?_eq_some hblock
  have hopen : r.opener.stop < d.start := by omega
  refine ⟨⟨r, hr, hopen, fun c hc => ?_⟩, fun f hf hdf => ?_⟩
  · rw [hstop, Region.bodyStop, hc, Option.elim_some] at hhi
    omega
  · have := r.opener.start_le_stop
    obtain ⟨c, hc, hle⟩ := Text.exists_closer_le hr hf (by omega)
    rw [hstop, Region.bodyStop, hc, Option.elim_some] at hhi
    have := f.start_le_stop
    omega

theorem exists_block (hr : d.Rooted t) (hc : d.Clear t) (hlt : d.start < d.stop)
    (hle : d.stop ≤ Text.size t) (aliases : Aliases) :
    ∃ b ∈ (Document.ofText t).blocks aliases,
      b.bodyStart ≤ d.start ∧ d.start < b.bodyStop ∧ d.stop ≤ b.stop := by
  obtain ⟨r, hr, hopen, hclose⟩ := hr
  have hbody : d.start < r.bodyStop (Text.size t) ∧ d.stop ≤ r.stop (Text.size t) := by
    unfold Region.bodyStop Region.stop
    cases hcl : r.closer with
    | none => exact ⟨hlt.trans_le hle, hle⟩
    | some c => exact ⟨hclose c hcl, hc c (Text.closer_mem_fences hr hcl) (hclose c hcl)⟩
  have hsome : (r.block? aliases (Text.size t)).isSome := by
    unfold Region.block?
    rw [if_pos ⟨by omega, by omega⟩]
    rfl
  obtain ⟨b, hb⟩ := Option.isSome_iff_exists.1 hsome
  obtain ⟨-, hbs, hbe, hbstop, -⟩ := Region.block?_eq_some hb
  refine ⟨b, Document.mem_blocks.2 ⟨r, hr, hb⟩, ?_⟩
  rw [hbs, hbe, hbstop]
  exact ⟨hopen, hbody.1, hbody.2⟩

theorem within_block {aliases : Aliases} {b : Block} {pos : Nat}
    (hb : b ∈ (Document.ofText t).blocks aliases) (hd : d.contains pos)
    (hlo : b.bodyStart ≤ d.start) (hhi : d.stop ≤ b.stop) :
    (b.start ≤ d.start ∧ d.start ≤ b.stop) ∧ b.start ≤ pos ∧ pos ≤ b.stop := by
  obtain ⟨h1, -⟩ := Document.block_bounds hb
  obtain ⟨hd1, hd2⟩ := contains_iff.1 hd
  omega

end Decoration

namespace Highlighter

variable {σ : Type} {t : Text}

def Shows (h : Highlighter σ) (pos : Nat) : Prop :=
  ∀ vs, h.visible = some vs → Interval.Touched vs pos

theorem touched_visiblePart {h : Highlighter σ} {dirty : List Interval} {pos : Nat} :
    Interval.Touched (h.visiblePart dirty) pos ↔ Interval.Touched dirty pos ∧ h.Shows pos := by
  unfold visiblePart Shows
  cases h.visible with
  | none => simp
  | some vs =>
    simp only [Option.some.injEq, forall_eq']
    constructor
    · rintro ⟨i, hi, hpos⟩
      obtain ⟨r, hr, hi⟩ := List.mem_flatMap.1 hi
      obtain ⟨v, hv, hi⟩ := List.mem_filterMap.1 hi
      obtain ⟨h1, h2⟩ := Interval.touched_inter?.1 ⟨i, hi, hpos⟩
      exact ⟨⟨r, hr, h1⟩, v, hv, h2⟩
    · rintro ⟨⟨r, hr, h1⟩, v, hv, h2⟩
      obtain ⟨i, hi, hpos⟩ := Interval.touched_inter?.2 ⟨h1, h2⟩
      exact ⟨i, List.mem_flatMap.2 ⟨r, hr, List.mem_filterMap.2 ⟨v, hv, hi⟩⟩, hpos⟩

/-- Dirt, as far as it lies in the text. -/
def Dirty (t : Text) (dirty : List Interval) (pos : Nat) : Prop :=
  Interval.Touched (dirty.map (·.clamp (Text.size t))) pos

theorem dirty_normalize {rs : List Interval} {pos : Nat} :
    Dirty t (Interval.normalize (rs.map (·.clamp (Text.size t)))) pos ↔ Dirty t rs pos := by
  rw [Dirty, Interval.map_clamp Interval.normalize_clamp_hi_le, Interval.touched_normalize, Dirty]

/-- The blocks that are rendered again. -/
def repainted (h : Highlighter σ) (t : Text) (dirty : List Interval) : List Block :=
  ((Document.ofText t).blocks h.aliases).filter fun b =>
    (h.visiblePart (Interval.normalize (dirty.map (·.clamp (Text.size t))))).any
      (·.intersects b.span)

theorem mem_repainted {h : Highlighter σ} {dirty : List Interval} {b : Block} :
    b ∈ h.repainted t dirty ↔ b ∈ (Document.ofText t).blocks h.aliases ∧
      ∃ pos, Dirty t dirty pos ∧ h.Shows pos ∧ b.start ≤ pos ∧ pos ≤ b.stop := by
  unfold repainted
  rw [List.mem_filter]
  apply and_congr_right
  intro hb
  obtain ⟨h1, h2, h3, -⟩ := Document.block_bounds hb
  have hle : b.start ≤ b.stop := by omega
  simp only [Interval.any_intersects, touched_visiblePart, Interval.touched_normalize, Block.span,
    Interval.between_lo, Interval.between_hi, min_eq_left hle, max_eq_right hle, Dirty, and_assoc]

theorem repainted_pairwise (h : Highlighter σ) (t : Text) (dirty : List Interval) :
    (h.repainted t dirty).Pairwise fun b c => b.stop < c.start :=
  (Document.blocks_pairwise t h.aliases).filter _

theorem reconcile_nil (h : Highlighter σ) (d : Document) : h.reconcile d [] = h := by
  simp [reconcile, Interval.normalize]

def kept (t : Text) (dirty : List Interval) (bs : List Block) (pos : Nat) : Bool :=
  !(Interval.normalize (Interval.normalize (dirty.map (·.clamp (Text.size t))) ++
    bs.map (·.span))).any (·.touches pos)

theorem kept_iff {dirty : List Interval} {bs : List Block} {pos : Nat}
    (hbs : ∀ b ∈ bs, b.start ≤ b.stop) : kept t dirty bs pos = true ↔
      ¬ Dirty t dirty pos ∧ ∀ b ∈ bs, ¬ (b.start ≤ pos ∧ pos ≤ b.stop) := by
  have hspan : Interval.Touched (bs.map (·.span)) pos ↔ ∃ b ∈ bs, b.start ≤ pos ∧ pos ≤ b.stop := by
    simp only [Interval.Touched, List.mem_map, exists_exists_and_eq_and]
    refine exists_congr fun b => and_congr_right fun hb => ?_
    rw [Block.span, Interval.between_lo, Interval.between_hi, min_eq_left (hbs b hb),
      max_eq_right (hbs b hb)]
  unfold kept
  rw [Bool.not_eq_true', ← Bool.not_eq_true, Interval.any_touches, Interval.touched_normalize,
    Interval.touched_append, Interval.touched_normalize, hspan, not_or, Dirty]
  simp only [not_exists, not_and]

/-- Dirt stays dirt in canonical form, however little of it lies in the text. -/
theorem normalize_clamp_isEmpty {dirty : List Interval} (hd : dirty ≠ []) (len : Nat) :
    (Interval.normalize (dirty.map (·.clamp len))).isEmpty = false := by
  obtain ⟨r, rs, rfl⟩ := List.exists_cons_of_ne_nil hd
  have htouched : Interval.Touched ((r :: rs).map (·.clamp len)) (r.clamp len).lo :=
    ⟨r.clamp len, List.mem_cons_self, le_rfl, (r.clamp len).lo_le_hi⟩
  obtain ⟨i, hi, -⟩ := Interval.touched_normalize.2 htouched
  exact List.isEmpty_eq_false_iff.2 (List.ne_nil_of_mem hi)

theorem reconcile_eq (h : Highlighter σ) (t : Text) {dirty : List Interval} (hd : dirty ≠ []) :
    h.reconcile (Document.ofText t) dirty =
      let painted := h.backend.renderAll h.theme (Document.ofText t) (h.repainted t dirty)
      let updated := h.decorations.update (kept t dirty (h.repainted t dirty)) painted.1
      let h' := { h with backend := painted.2, decorations := updated.1 }
      if updated.2 then h'.announce else h' := by
  unfold reconcile
  dsimp only
  rw [Document.ofText_size, normalize_clamp_isEmpty hd, Document.locate_eq]
  simp only [Bool.false_eq_true, if_false]
  rfl

/-- What reconciling changes: the decorations are updated and announced, and the tokenizer has been
at work. -/
theorem reconcile_cons (h : Highlighter σ) (t : Text) {dirty : List Interval} (hd : dirty ≠ []) :
    ∃ announced, h.reconcile (Document.ofText t) dirty = { h with
      backend :=
        (h.backend.renderAll h.theme (Document.ofText t) (h.repainted t dirty)).2
      decorations := (h.decorations.update (kept t dirty (h.repainted t dirty))
        (h.backend.renderAll h.theme (Document.ofText t) (h.repainted t dirty)).1).1
      announced } := by
  rw [reconcile_eq h t hd]
  dsimp only
  split_ifs
  · exact ⟨_, rfl⟩
  · exact ⟨_, rfl⟩

theorem repainted_nil (h : Highlighter σ) (t : Text) : h.repainted t [] = [] := by
  apply List.eq_nil_iff_forall_not_mem.2
  intro b hb
  obtain ⟨-, pos, hdirt, -⟩ := mem_repainted.1 hb
  simp [Dirty, Interval.Touched] at hdirt

variable (h : Highlighter σ) (t : Text) (dirty : List Interval)

theorem repainted_bodies : ∀ b ∈ h.repainted t dirty, b.bodyStart < b.bodyStop := fun _ hb =>
  (Document.block_bounds (mem_repainted.1 hb).1).2.1

theorem repainted_le : ∀ b ∈ h.repainted t dirty, b.start ≤ b.stop := by
  intro b hb
  have := Document.block_bounds (mem_repainted.1 hb).1
  omega

def fresh : List Decoration :=
  (h.backend.renderAll h.theme (Document.ofText t) (h.repainted t dirty)).1

theorem fresh_wellFormed : DecorationSet.WellFormed (Text.size t) (h.fresh t dirty) ∧
    ∀ d ∈ h.fresh t dirty, ∃ b ∈ h.repainted t dirty, b.bodyStart ≤ d.start ∧ d.stop ≤ b.bodyStop :=
  Backend.renderAll_wellFormed h.theme (fun _ hb => (mem_repainted.1 hb).1)
    (h.repainted_pairwise t dirty) h.backend

theorem reconcile_backend : (h.reconcile (Document.ofText t) dirty).backend =
    (h.backend.renderAll h.theme (Document.ofText t) (h.repainted t dirty)).2 := by
  by_cases hd : dirty = []
  · subst hd
    rw [reconcile_nil, repainted_nil]
    rfl
  · obtain ⟨a, ha⟩ := reconcile_cons h t hd
    rw [ha]

theorem reconcile_rest : (h.reconcile (Document.ofText t) dirty).visible = h.visible ∧
    (h.reconcile (Document.ofText t) dirty).fences = h.fences ∧
      (h.reconcile (Document.ofText t) dirty).theme = h.theme ∧
        (h.reconcile (Document.ofText t) dirty).aliases = h.aliases := by
  by_cases hd : dirty = []
  · subst hd
    rw [reconcile_nil]
    exact ⟨rfl, rfl, rfl, rfl⟩
  · obtain ⟨a, ha⟩ := reconcile_cons h t hd
    rw [ha]
    exact ⟨rfl, rfl, rfl, rfl⟩

/-- After reconciling there are the new decorations and those that start neither in dirt nor in a
block painted anew. -/
theorem mem_reconcile {d : Decoration} :
    d ∈ (h.reconcile (Document.ofText t) dirty).decorations ↔
      (d ∈ h.decorations ∧ ¬ Dirty t dirty d.start ∧
        ∀ b ∈ h.repainted t dirty, ¬ (b.start ≤ d.start ∧ d.start ≤ b.stop)) ∨
          d ∈ h.fresh t dirty := by
  by_cases hd : dirty = []
  · subst hd
    rw [reconcile_nil, fresh, repainted_nil]
    simp [Dirty, Interval.Touched, Backend.renderAll]
  · obtain ⟨a, ha⟩ := reconcile_cons h t hd
    rw [ha, DecorationSet.mem_update, kept_iff (h.repainted_le t dirty)]
    rfl

variable {h t dirty}

/-- Reconciling keeps the decorations well formed if none of them runs over a fence line. -/
theorem wellFormed_reconcile (hw : DecorationSet.WellFormed (Text.size t) h.decorations)
    (hclear : ∀ d ∈ h.decorations, d.Clear t) :
    DecorationSet.WellFormed (Text.size t) (h.reconcile (Document.ofText t) dirty).decorations := by
  by_cases hd : dirty = []
  · subst hd
    rwa [reconcile_nil]
  · obtain ⟨a, ha⟩ := reconcile_cons h t hd
    obtain ⟨hfresh, hin⟩ := h.fresh_wellFormed t dirty
    rw [ha]
    apply hw.update hfresh
    intro d hd hkept e he
    obtain ⟨-, hout⟩ := (kept_iff (h.repainted_le t dirty)).1 hkept
    obtain ⟨b, hb, hlo, hhi⟩ := hin e he
    obtain ⟨hmem, -⟩ := mem_repainted.1 hb
    obtain ⟨h1, h2, h3, -⟩ := Document.block_bounds hmem
    obtain ⟨r, hr, hblock⟩ := Document.mem_blocks.1 hmem
    obtain ⟨hs, hbs, -⟩ := Region.block?_eq_some hblock
    -- a decoration that begins before the block cannot reach over its opening fence
    have hopen := hclear d hd r.opener (Text.opener_mem_fences hr)
    have := hout b hb
    unfold Decoration.Apart
    omega

/-- What holds of a highlighter that has followed every change of its document. -/
structure Sound (h : Highlighter σ) (t : Text) : Prop where
  fences : ∀ fs, h.fences = some fs → ∀ i, i ∈ fs ↔ ∃ m ∈ Text.fences t, m.span = i
  visible : ∀ vs, h.visible = some vs → ∀ v ∈ vs, v.hi ≤ Text.size t
  wellFormed : DecorationSet.WellFormed (Text.size t) h.decorations
  rooted : ∀ d ∈ h.decorations, d.Rooted t
  clear : ∀ d ∈ h.decorations, d.Clear t

theorem Sound.congr {h k : Highlighter σ} {t : Text} (hs : h.Sound t)
    (hd : k.decorations = h.decorations) (hv : k.visible = h.visible)
    (hf : k.fences = h.fences) : k.Sound t :=
  ⟨hf ▸ hs.fences, hv ▸ hs.visible, hd ▸ hs.wellFormed, hd ▸ hs.rooted, hd ▸ hs.clear⟩

theorem Sound.exists_block {h : Highlighter σ} {t : Text} (hs : h.Sound t) {d : Decoration}
    (hd : d ∈ h.decorations) (aliases : Aliases) :
    ∃ b ∈ (Document.ofText t).blocks aliases, b.bodyStart ≤ d.start ∧ d.stop ≤ b.stop := by
  obtain ⟨hlt, hle⟩ := hs.wellFormed.bounds d hd
  obtain ⟨b, hb, hlo, -, hhi⟩ :=
    Decoration.exists_block (hs.rooted d hd) (hs.clear d hd) hlt hle aliases
  exact ⟨b, hb, hlo, hhi⟩

/-- Reconciling makes a highlighter sound whose decorations outside the dirt are rooted. -/
theorem sound_reconcile
    (hfences : ∀ fs, h.fences = some fs → ∀ i, i ∈ fs ↔ ∃ m ∈ Text.fences t, m.span = i)
    (hvisible : ∀ vs, h.visible = some vs → ∀ v ∈ vs, v.hi ≤ Text.size t)
    (hw : DecorationSet.WellFormed (Text.size t) h.decorations)
    (hrooted : ∀ d ∈ h.decorations, ¬ Dirty t dirty d.start → d.Rooted t)
    (hclear : ∀ d ∈ h.decorations, d.Clear t) :
    (h.reconcile (Document.ofText t) dirty).Sound t := by
  obtain ⟨hv, hf, -, -⟩ := h.reconcile_rest t dirty
  obtain ⟨hfresh, hin⟩ := h.fresh_wellFormed t dirty
  have hanchored : ∀ d ∈ h.fresh t dirty, d.Rooted t ∧ d.Clear t := by
    intro d hd
    obtain ⟨b, hb, hlo, hhi⟩ := hin d hd
    exact Decoration.rooted_clear_of_block (mem_repainted.1 hb).1 hlo (hfresh.bounds d hd).1 hhi
  refine ⟨hf ▸ hfences, hv ▸ hvisible, wellFormed_reconcile hw hclear, fun d hd => ?_,
    fun d hd => ?_⟩
  · rcases (h.mem_reconcile t dirty).1 hd with ⟨hd, hclean, -⟩ | hd
    · exact hrooted d hd hclean
    · exact (hanchored d hd).1
  · rcases (h.mem_reconcile t dirty).1 hd with ⟨hd, -⟩ | hd
    · exact hclear d hd
    · exact (hanchored d hd).2

theorem Sound.reconcile (hs : h.Sound t) (dirty : List Interval) :
    (h.reconcile (Document.ofText t) dirty).Sound t :=
  sound_reconcile hs.fences hs.visible hs.wellFormed (fun d hd _ => hs.rooted d hd) hs.clear

end Highlighter

end FencedCode
