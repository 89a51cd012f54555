import FencedCode.Proofs.Carryover
import FencedCode.Proofs.Session

namespace FencedCode

namespace Highlighter

variable {σ : Type} {h : Highlighter σ} {t : Text}

def InSight (h : Highlighter σ) (pos : Nat) : Prop :=
  ∃ vs, h.visible = some vs ∧ Interval.Covered vs pos

theorem InSight.shows {pos : Nat} (hp : h.InSight pos) : h.Shows pos := by
  obtain ⟨vs, hvs, hc⟩ := hp
  intro ws hws
  obtain rfl : vs = ws := Option.some.inj (hvs.symm.trans hws)
  exact hc.touched

def answer (h : Highlighter σ) : String → Text → Option (List TokenLine) :=
  h.backend.tokenizer.answer h.backend.state h.theme

/-- The decorations of a block that contain a byte are those it is painted with. -/
def FaithfulAt (h : Highlighter σ) (t : Text) (b : Block) (pos : Nat) : Prop :=
  ∀ d : Decoration, d.contains pos → b.bodyStart ≤ d.start → d.stop ≤ b.stop →
    (d ∈ h.decorations ↔ d ∈ (Document.ofText t).paint h.answer b)

/-- Every byte in sight is decorated as when its block is painted from scratch. -/
def Faithful (h : Highlighter σ) (t : Text) : Prop :=
  ∀ b ∈ (Document.ofText t).blocks h.aliases, ∀ pos, h.InSight pos → h.FaithfulAt t b pos

/-- No load succeeds while dirt is reconciled. -/
def Quiet (h : Highlighter σ) (t : Text) (dirty : List Interval) : Prop :=
  (h.reconcile (.ofText t) dirty).backend.loader.arrivals ≤ h.backend.loader.arrivals

theorem reconcile_arrivals (h : Highlighter σ) (t : Text) (dirty : List Interval) :
    h.backend.loader.arrivals ≤ (h.reconcile (.ofText t) dirty).backend.loader.arrivals := by
  rw [reconcile_backend]
  exact Backend.renderAll_arrivals _ _ _ (h.repainted_bodies t dirty) _

variable {dirty : List Interval} {b : Block} {d : Decoration}

theorem Quiet.ready (hq : h.Quiet t dirty) (hst : h.backend.tokenizer.Stable) :
    h.backend.tokenizer.ready (h.reconcile (.ofText t) dirty).backend.state =
      h.backend.tokenizer.ready h.backend.state := by
  have hready := (Backend.renderAll_quiet hst h.theme (.ofText t) (h.repainted_bodies t dirty)
    (reconcile_backend h t dirty ▸ hq)).2.1
  rwa [reconcile_backend]

theorem Quiet.answer (hq : h.Quiet t dirty) (hst : h.backend.tokenizer.Stable) :
    (h.reconcile (.ofText t) dirty).answer = h.answer := by
  have hanswer := (Backend.renderAll_quiet hst h.theme (.ofText t) (h.repainted_bodies t dirty)
    (reconcile_backend h t dirty ▸ hq)).2.2
  obtain ⟨-, -, htheme, -⟩ := h.reconcile_rest t dirty
  unfold Highlighter.answer
  rw [htheme, reconcile_backend, Backend.renderAll_tokenizer]
  exact congrFun hanswer _

/-- What is painted anew is what painting each block gives. -/
theorem Quiet.fresh_eq (hq : h.Quiet t dirty) (hst : h.backend.tokenizer.Stable) :
    h.fresh t dirty = (h.repainted t dirty).flatMap ((Document.ofText t).paint h.answer) :=
  (Backend.renderAll_quiet hst h.theme (.ofText t) (h.repainted_bodies t dirty)
    (reconcile_backend h t dirty ▸ hq)).1

theorem block_unique {aliases : Aliases} {b c : Block} {pos : Nat}
    (hb : b ∈ (Document.ofText t).blocks aliases) (hc : c ∈ (Document.ofText t).blocks aliases)
    (hbp : b.start ≤ pos ∧ pos ≤ b.stop) (hcp : c.start ≤ pos ∧ pos ≤ c.stop) : b = c := by
  rcases pairwise_trichotomy (Document.blocks_pairwise t aliases) hb hc with h' | h' | h'
  · exact h'
  · omega
  · omega

theorem mem_reconcile_repainted (hq : h.Quiet t dirty) (hst : h.backend.tokenizer.Stable)
    (hb : b ∈ h.repainted t dirty) (hd : b.start ≤ d.start ∧ d.start ≤ b.stop) :
    d ∈ (h.reconcile (.ofText t) dirty).decorations ↔
      d ∈ (Document.ofText t).paint h.answer b := by
  have hblock := (mem_repainted.1 hb).1
  rw [mem_reconcile, hq.fresh_eq hst, List.mem_flatMap]
  constructor
  · rintro (⟨-, -, hout⟩ | ⟨c, hc, hpaint⟩)
    · exact absurd hd (hout b hb)
    · have hcblock := (mem_repainted.1 hc).1
      obtain ⟨hw, hin⟩ := Document.paint_wellFormed hcblock h.answer
      obtain ⟨h1, h2, h3, -⟩ := Document.block_bounds hcblock
      obtain ⟨hlo, hhi⟩ := hin d hpaint
      have hlt := (hw.bounds d hpaint).1
      obtain rfl := block_unique hblock hcblock hd ⟨by omega, by omega⟩
      exact hpaint
  · intro hpaint
    exact .inr ⟨b, hb, hpaint⟩

/-- A block without dirt keeps what it had. -/
theorem mem_reconcile_clean (hb : b ∈ (Document.ofText t).blocks h.aliases)
    (hclean : ∀ pos, b.start ≤ pos → pos ≤ b.stop → ¬ Dirty t dirty pos)
    (hd : b.start ≤ d.start ∧ d.start ≤ b.stop) :
    d ∈ (h.reconcile (.ofText t) dirty).decorations ↔ d ∈ h.decorations := by
  have hother : ∀ c ∈ h.repainted t dirty, ¬ (c.start ≤ d.start ∧ d.start ≤ c.stop) :=
    fun c hc hcd => by
      obtain ⟨hcblock, pos, hdirt, -, hlo, hhi⟩ := mem_repainted.1 hc
      obtain rfl := block_unique hb hcblock hd hcd
      exact hclean pos hlo hhi hdirt
  rw [mem_reconcile]
  constructor
  · rintro (⟨hold, -⟩ | hfresh)
    · exact hold
    · obtain ⟨hw, hin⟩ := h.fresh_wellFormed t dirty
      obtain ⟨c, hc, hlo, hhi⟩ := hin d hfresh
      obtain ⟨h1, h2, h3, -⟩ := Document.block_bounds (mem_repainted.1 hc).1
      have hlt := (hw.bounds d hfresh).1
      exact absurd ⟨by omega, by omega⟩ (hother c hc)
  · intro hold
    exact .inl ⟨hold, hclean d.start hd.1 hd.2, hother⟩

theorem InSight.le {pos : Nat} (hp : h.InSight pos) (hs : h.Sound t) : pos ≤ Text.size t := by
  obtain ⟨vs, hvs, v, hv, -, hlt⟩ := hp
  exact hlt.le.trans (hs.visible vs hvs v hv)

theorem insight_reconcile {pos : Nat} :
    (h.reconcile (.ofText t) dirty).InSight pos ↔ h.InSight pos := by
  rw [InSight, InSight, (h.reconcile_rest t dirty).1]

/-- Reconciling is faithful if it is where nothing is painted anew. -/
theorem faithful_reconcile (hq : h.Quiet t dirty) (hst : h.backend.tokenizer.Stable)
    (hrest : ∀ b ∈ (Document.ofText t).blocks h.aliases, b ∉ h.repainted t dirty →
      ∀ pos, h.InSight pos → (h.reconcile (.ofText t) dirty).FaithfulAt t b pos) :
    (h.reconcile (.ofText t) dirty).Faithful t := by
  intro b hb pos hpos
  rw [(h.reconcile_rest t dirty).2.2.2] at hb
  rw [insight_reconcile] at hpos
  by_cases hin : b ∈ h.repainted t dirty
  · intro d hd hlo hhi
    have hstart := (Decoration.within_block hb hd hlo hhi).1
    rw [mem_reconcile_repainted hq hst hin hstart, hq.answer hst]
  · exact hrest b hb hin pos hpos

/-- With everything in sight dirty nothing but what is painted anew is in sight. -/
theorem faithful_reconcile_all (hq : h.Quiet t dirty) (hst : h.backend.tokenizer.Stable)
    (hall : ∀ pos, h.InSight pos → Dirty t dirty pos) :
    (h.reconcile (.ofText t) dirty).Faithful t := by
  apply faithful_reconcile hq hst
  intro b hb hout pos hpos d hd hlo hhi
  have hp := (Decoration.within_block hb hd hlo hhi).2
  exact absurd (mem_repainted.2 ⟨hb, pos, hall pos hpos, hpos.shows, hp⟩) hout

theorem Sound.faithful_refresh (hs : h.Sound t) (hst : h.backend.tokenizer.Stable)
    (hq : (h.refresh (.ofText t)).backend.loader.arrivals ≤ h.backend.loader.arrivals) :
    (h.refresh (.ofText t)).Faithful t := by
  apply faithful_reconcile_all hq hst
  intro pos hpos
  have hle := hpos.le hs
  obtain ⟨vs, hvs, hc⟩ := hpos
  rw [hvs, Option.getD_some]
  exact Interval.touched_clamp hc.touched hle

/-- Scrolling shows other intervals and reconciles. A block with a byte in sight is painted anew,
unless the byte was in sight before and there is no dirt in the block. -/
theorem exists_scroll_eq (h : Highlighter σ) (t : Text) (visible : List Interval) :
    ∃ (k : Highlighter σ) (dirty : List Interval), k.backend = h.backend ∧ k.theme = h.theme ∧
      k.aliases = h.aliases ∧ k.decorations = h.decorations ∧
      k.visible = some (Interval.normalize (visible.map (·.clamp (Text.size t)))) ∧
      h.scroll (.ofText t) visible = k.reconcile (.ofText t) dirty ∧
      ∀ b ∈ (Document.ofText t).blocks h.aliases, ∀ pos, k.InSight pos → b.start ≤ pos →
        pos ≤ b.stop → b ∉ k.repainted t dirty →
          h.InSight pos ∧ ∀ p, b.start ≤ p → p ≤ b.stop → ¬ Dirty t dirty p := by
  unfold Highlighter.scroll
  simp only [Document.ofText_size]
  split
  · rename_i previous hprev
    refine ⟨_, _, ?_, ?_, ?_, ?_, ?_, rfl, ?_⟩
    iterate 5 rfl
    intro b hb pos hpos hlo hhi hout
    set vs := Interval.normalize (visible.map (·.clamp (Text.size t))) with hvs
    have hbound : ∀ r ∈ Interval.subtract vs previous, r.hi ≤ Text.size t := by
      intro r hr
      obtain ⟨v, hv, -, hle⟩ := Interval.touched_of_touched_subtract ⟨r, hr, r.lo_le_hi, le_rfl⟩
      exact hle.trans (Interval.normalize_clamp_hi_le v hv)
    have hdirty : ∀ pos, Dirty t (Interval.subtract vs previous) pos ↔
        Interval.Touched (Interval.subtract vs previous) pos := by
      intro pos
      rw [Dirty, Interval.map_clamp hbound]
    -- all dirt is in sight, so a block that is not painted anew has none
    have hclean : ∀ p, b.start ≤ p → p ≤ b.stop →
        ¬ Dirty t (Interval.subtract vs previous) p := by
      intro p hp1 hp2 hdirt
      refine hout (mem_repainted.2 ⟨hb, p, hdirt, fun ws hws => ?_, hp1, hp2⟩)
      obtain rfl := Option.some.inj hws
      exact Interval.touched_of_touched_subtract ((hdirty p).1 hdirt)
    refine ⟨⟨previous, hprev, ?_⟩, hclean⟩
    by_contra hnew
    obtain ⟨ws, hws, hcov⟩ := hpos
    obtain rfl := Option.some.inj hws
    exact hclean pos hlo hhi ((hdirty pos).2 (Interval.covered_subtract hcov hnew).touched)
  · refine ⟨_, _, ?_, ?_, ?_, ?_, ?_, rfl, ?_⟩
    iterate 5 rfl
    intro b hb pos hpos hlo hhi hout
    obtain ⟨vs, hvs, hcov⟩ := id hpos
    obtain rfl := Option.some.inj hvs
    have hdirt := dirty_normalize.2 (Interval.touched_normalize.1 hcov.touched)
    exact (hout (mem_repainted.2 ⟨hb, pos, hdirt, hpos.shows, hlo, hhi⟩)).elim

theorem scroll_rest (h : Highlighter σ) (t : Text) (visible : List Interval) :
    (h.scroll (.ofText t) visible).visible =
        some (Interval.normalize (visible.map (·.clamp (Text.size t)))) ∧
      (h.scroll (.ofText t) visible).theme = h.theme ∧
        (h.scroll (.ofText t) visible).aliases = h.aliases := by
  obtain ⟨k, dirty, -, htheme, haliases, -, hvisible, hscroll, -⟩ := h.exists_scroll_eq t visible
  obtain ⟨h1, -, h2, h3⟩ := k.reconcile_rest t dirty
  rw [hscroll]
  exact ⟨h1.trans hvisible, h2.trans htheme, h3.trans haliases⟩

/-- After scrolling, what comes into sight is painted and what was in sight stays as it was. -/
theorem Faithful.scroll (hf : h.Faithful t) (hst : h.backend.tokenizer.Stable)
    (visible : List Interval)
    (hq : (h.scroll (.ofText t) visible).backend.loader.arrivals ≤ h.backend.loader.arrivals) :
    (h.scroll (.ofText t) visible).Faithful t := by
  obtain ⟨k, dirty, hkb, hkt, hka, hkd, -, hscroll, hclean⟩ := h.exists_scroll_eq t visible
  rw [hscroll, ← hkb] at hq
  rw [← hkb] at hst
  have hanswer : k.answer = h.answer := by
    unfold answer
    rw [hkb, hkt]
  rw [hscroll]
  refine faithful_reconcile hq hst fun b hb hout pos hpos d hd hlo hhi => ?_
  obtain ⟨hstart, hwithin⟩ := Decoration.within_block hb hd hlo hhi
  rw [hka] at hb
  obtain ⟨hold, hb'⟩ := hclean b hb pos hpos hwithin.1 hwithin.2 hout
  rw [mem_reconcile_clean (hka ▸ hb) hb' hstart, Quiet.answer hq hst, hkd, hanswer]
  exact hf b hb pos hold d hd hlo hhi

theorem faithful_of_visible_eq_none (hv : h.visible = none) : h.Faithful t := by
  rintro b - pos ⟨vs, hvs, -⟩
  rw [hv] at hvs
  cases hvs

theorem scroll_arrivals (h : Highlighter σ) (t : Text) (visible : List Interval) :
    h.backend.loader.arrivals ≤ (h.scroll (.ofText t) visible).backend.loader.arrivals := by
  obtain ⟨k, dirty, hk, -, -, -, -, hscroll, -⟩ := h.exists_scroll_eq t visible
  rw [hscroll, ← hk]
  exact reconcile_arrivals k t dirty

/-- Everything in sight is decorated as from scratch unless loads wait to be drained. -/
structure Current (h : Highlighter σ) (t : Text) : Prop where
  sound : h.Sound t
  faithful : h.backend.loader.arrivals = 0 → h.Faithful t

theorem quiet_of_arrivals (ha : (h.reconcile (.ofText t) dirty).backend.loader.arrivals = 0) :
    h.Quiet t dirty :=
  ha.le.trans (Nat.zero_le _)

theorem Sound.current_refresh (hs : h.Sound t) (hst : h.backend.tokenizer.Stable) :
    (h.refresh (.ofText t)).Current t :=
  ⟨hs.refresh, fun ha => hs.faithful_refresh hst (quiet_of_arrivals ha)⟩

theorem Current.scroll (hc : h.Current t) (hst : h.backend.tokenizer.Stable)
    (visible : List Interval) : (h.scroll (.ofText t) visible).Current t := by
  refine ⟨hc.sound.scroll visible, fun ha => ?_⟩
  have ha₀ := Nat.le_zero.1 ((scroll_arrivals h t visible).trans ha.le)
  exact (hc.faithful ha₀).scroll hst visible (ha.le.trans (Nat.zero_le _))

theorem Sound.current_attach (hs : h.Sound t) (hst : h.backend.tokenizer.Stable)
    (visible : List Interval) : (h.attach (.ofText t) visible).Current t := by
  have hf : Highlighter.Faithful { h with visible := none } t := faithful_of_visible_eq_none rfl
  exact ⟨hs.attach visible, fun ha => hf.scroll hst visible (ha.le.trans (Nat.zero_le _))⟩

variable {k : Highlighter σ} {pos : Nat}

theorem covering_eq_of_faithfulAt (hs : h.Sound t) (ks : k.Sound t)
    (hpaint : ∀ b ∈ (Document.ofText t).blocks h.aliases, b.start ≤ pos → pos ≤ b.stop →
      (Document.ofText t).paint h.answer b = (Document.ofText t).paint k.answer b)
    (hf : ∀ b ∈ (Document.ofText t).blocks h.aliases, h.FaithfulAt t b pos)
    (kf : ∀ b ∈ (Document.ofText t).blocks h.aliases, k.FaithfulAt t b pos) :
    h.decorations.covering pos = k.decorations.covering pos := by
  refine hs.wellFormed.covering_eq ks.wellFormed fun d hd => ⟨fun hin => ?_, fun hin => ?_⟩
  · obtain ⟨b, hb, hlo, hhi⟩ := hs.exists_block hin h.aliases
    obtain ⟨-, h1, h2⟩ := Decoration.within_block hb hd hlo hhi
    exact (kf b hb d hd hlo hhi).2 (hpaint b hb h1 h2 ▸ (hf b hb d hd hlo hhi).1 hin)
  · obtain ⟨b, hb, hlo, hhi⟩ := ks.exists_block hin h.aliases
    obtain ⟨-, h1, h2⟩ := Decoration.within_block hb hd hlo hhi
    exact (hf b hb d hd hlo hhi).2 (hpaint b hb h1 h2 ▸ (kf b hb d hd hlo hhi).1 hin)

theorem faithfulAt_of_covering_eq (hans : h.answer = k.answer) (kf : k.FaithfulAt t b pos)
    (heq : h.decorations.covering pos = k.decorations.covering pos) : h.FaithfulAt t b pos := by
  intro d hd hlo hhi
  rw [hans, ← kf d hd hlo hhi]
  have hmem : d ∈ h.decorations.covering pos ↔ d ∈ k.decorations.covering pos := by rw [heq]
  rwa [DecorationSet.mem_covering, DecorationSet.mem_covering, and_iff_left hd,
    and_iff_left hd] at hmem

end Highlighter

end FencedCode
