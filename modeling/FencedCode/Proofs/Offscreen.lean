import FencedCode.Proofs.FromScratch
import FencedCode.Proofs.Sorting

namespace FencedCode

namespace Highlighter

variable {σ : Type} {h : Highlighter σ} {t t' : Text} {es : List Edit} {b : Block} {pos : Nat}

/-- The decorations that edits leave and that do not begin in dirt. -/
def survivors (h : Highlighter σ) (es : List Edit) (t' : Text) : DecorationSet :=
  (h.after es).decorations.filter fun d => !(h.dirt es t').any (·.touches d.start)

theorem mem_survivors {d : Decoration} : d ∈ h.survivors es t' ↔
    d ∈ (h.after es).decorations ∧ ¬ Interval.Touched (h.dirt es t') d.start := by
  rw [survivors, List.mem_filter, Bool.not_eq_true', ← Bool.not_eq_true, Interval.any_touches]

theorem dirt_nil : h.dirt [] t = [] := by
  have hdirty : (h.after []).dirty = [] := rfl
  rw [dirt, below, hdirty]
  simp

/-- A block that is dirty only where it is out of sight keeps what edits leave of it. -/
theorem covering_halfSeen (hs : h.Sound t) (hsp : Splices t es t') (hes : es ≠ [])
    (hb : (h.carried es t').HalfSeen t' (h.dirt es t') b) (hpos : b.start ≤ pos ∧ pos ≤ b.stop) :
    (h.edit (.ofText t') es).decorations.covering pos = (h.survivors es t').covering pos := by
  obtain ⟨hblock, hout, -⟩ := hb
  have hsound := hs.after hsp
  have hkept : DecorationSet.WellFormed (Text.size t') (h.survivors es t') :=
    ⟨fun d hd => hsound.wellFormed.bounds d (List.mem_filter.1 hd).1,
      hsound.wellFormed.ordered.filter _⟩
  apply (hs.edit hsp).wellFormed.covering_eq hkept
  intro d hd
  obtain ⟨hd1, hd2⟩ := Decoration.contains_iff.1 hd
  rw [edit_eq hes, mem_reconcile, mem_survivors, dirty_iff hs hsp]
  constructor
  · rintro (⟨hold, hclean, -⟩ | hfresh)
    · exact ⟨hold, hclean⟩
    · obtain ⟨c, hc, hlo, hhi⟩ := ((h.carried es t').fresh_wellFormed t' _).2 d hfresh
      obtain ⟨h1, h2, h3, -⟩ := Document.block_bounds (mem_repainted.1 hc).1
      obtain rfl := block_unique hblock (mem_repainted.1 hc).1 hpos ⟨by omega, by omega⟩
      exact absurd hc hout
  · rintro ⟨hold, hclean⟩
    refine .inl ⟨hold, hclean, fun c hc hcd => ?_⟩
    -- what begins outside the dirt lies in one block, so it begins in the one it is seen in
    obtain ⟨hlt, hle⟩ := hsound.wellFormed.bounds d hold
    have hroot := rooted_after hs hsp hes hold (mt (dirty_iff hs hsp).1 hclean)
    obtain ⟨g, hg, h1, -, h3⟩ :=
      Decoration.exists_block hroot (hsound.clear d hold) hlt hle h.aliases
    have hgb := (Document.block_bounds hg).1
    obtain rfl := block_unique hg (mem_repainted.1 hc).1 ⟨by omega, by omega⟩ hcd
    obtain rfl := block_unique hblock hg hpos ⟨by omega, by omega⟩
    exact hout hc

/-- With everything in sight faithful, edits leave it so exactly if every block that is dirty only
where it is out of sight keeps in sight what a new highlighter shows. -/
theorem Sound.edit_covering_iff (hs : h.Sound t) (hf : h.Faithful t) (hp : h.backend.tokenizer.Pure)
    (hsp : Splices t es t')
    (hq : (h.edit (.ofText t') es).backend.loader.arrivals ≤ h.backend.loader.arrivals) {u : σ}
    (hu : h.backend.tokenizer.ready u = h.backend.tokenizer.ready h.backend.state)
    {vs : List Interval} (hvs : (h.edit (.ofText t') es).visible = some vs)
    (ha : (((h.edit (.ofText t') es).anew u).attach (.ofText t') vs).backend.loader.arrivals = 0) :
    (∀ pos, Interval.Covered vs pos → (h.edit (.ofText t') es).decorations.covering pos =
      (((h.edit (.ofText t') es).anew u).attach (.ofText t') vs).decorations.covering pos) ↔
    ∀ b, (h.carried es t').HalfSeen t' (h.dirt es t') b → ∀ pos, Interval.Covered vs pos →
      b.start ≤ pos → pos ≤ b.stop → (h.survivors es t').covering pos =
        (((h.edit (.ofText t') es).anew u).attach (.ofText t') vs).decorations.covering pos := by
  by_cases hes : es = []
  · -- nothing changes
    subst hes
    cases hsp
    constructor
    · intro _ b hb
      obtain ⟨-, -, pos, ⟨r, hr, -⟩, -⟩ := hb
      rw [dirt_nil] at hr
      cases hr
    · intro _
      exact (hs.faithful_iff hp hu hvs ha).1 hf
  have hs' := hs.edit hsp
  have hquiet : (h.carried es t').Quiet t' (h.dirt es t') := by
    rw [edit_eq hes] at hq
    exact hq
  have htk : (h.edit (.ofText t') es).backend.tokenizer = h.backend.tokenizer :=
    h.edit_tokenizer _ es
  have hready : h.backend.tokenizer.ready u =
      h.backend.tokenizer.ready (h.edit (.ofText t') es).backend.state := by
    rw [edit_eq hes]
    exact hu.trans (hquiet.ready hp.stable).symm
  have hpure := hp
  rw [← htk] at hpure hready
  constructor
  · intro hover b hb pos hpos hlo hhi
    rw [← covering_halfSeen hs hsp hes hb ⟨hlo, hhi⟩]
    exact hover pos hpos
  · intro hhalf
    -- only a block that is dirty out of sight can be unfaithful, and it shows what has survived
    refine (hs'.faithful_iff hpure hready hvs ha).1 ?_
    apply faithful_edit hs hf hp hsp hes hquiet
    intro b hb pos hpos d hd hlo hhi
    have hposb := (Decoration.within_block hb.1 hd hlo hhi).2
    have hin : (h.edit (.ofText t') es).InSight pos := by
      rw [edit_eq hes]
      exact insight_reconcile.2 hpos
    obtain ⟨hcur, hanswer, haliases⟩ := current_anew hpure hready ha
    have hblock : b ∈ (Document.ofText t').blocks
        (((h.edit (.ofText t') es).anew u).attach (.ofText t') vs).aliases := by
      rw [haliases, edit_eq hes, (reconcile_rest _ _ _).2.2.2]
      exact hb.1
    have hnew := hcur.faithful ha b hblock pos (insight_anew hs' hvs hin)
    obtain ⟨ws, hws, hcov⟩ := hin
    obtain rfl : vs = ws := Option.some.inj (hvs.symm.trans hws)
    have hover := covering_halfSeen hs hsp hes hb hposb
    exact faithfulAt_of_covering_eq hanswer.symm hnew
      (hover.trans (hhalf b hb pos hcov hposb.1 hposb.2)) d hd hlo hhi

end Highlighter

/-- A tokenizer that colours every line by the first character of the code. -/
def Tokenizer.initial : Tokenizer Unit where
  resolve _ name := some name
  isLoaded _ _ := true
  load s _ := (s, none)
  tokenize s code _ _ :=
    (s, .ok ((Text.lines code).map fun line => [⟨line, String.ofList (code.take 1), .plain⟩]))
  colors _ _ := none

theorem Tokenizer.initial_pure : Tokenizer.initial.Pure where
  tokenize _ _ _ _ _ _ _ := rfl
  tokenize_ready _ _ _ _ := rfl
  load_ready _ _ _ := rfl

namespace Session

variable {σ : Type}

/-- Edits wherever they are made, with everything in sight shown as by a new highlighter before
them: afterwards it is so again exactly if every block that has dirt out of sight, and none in
sight, keeps in sight what a new highlighter shows. -/
theorem edit_eq_scratch_iff (backend : Backend σ) (hp : backend.tokenizer.Pure) (aliases : Aliases)
    (theme : String) (t : Text) (changes : List (Change σ))
    (replacements : List (Nat × Nat × Text)) (u : σ) (vs vs' : List Interval) :
    let s := (start backend aliases theme t).run changes
    let s' := s.apply (.edit replacements)
    let es := (s.document.applyAll replacements).2
    let new := (s.highlighter.anew u).attach s.document vs
    let new' := (s'.highlighter.anew u).attach s'.document vs'
    s.highlighter.visible = some vs → s'.highlighter.visible = some vs' →
      backend.tokenizer.ready u = backend.tokenizer.ready s.highlighter.backend.state →
      new.backend.loader.arrivals = 0 → new'.backend.loader.arrivals = 0 →
      s'.highlighter.backend.loader.arrivals ≤ s.highlighter.backend.loader.arrivals →
      (∀ pos, Interval.Covered vs pos →
        s.highlighter.decorations.covering pos = new.decorations.covering pos) →
      ((∀ pos, Interval.Covered vs' pos →
          s'.highlighter.decorations.covering pos = new'.decorations.covering pos) ↔
        ∀ b, (s.highlighter.carried es s'.document.text).HalfSeen s'.document.text
            (s.highlighter.dirt es s'.document.text) b →
          ∀ pos, Interval.Covered vs' pos → b.start ≤ pos → pos ≤ b.stop →
            (s.highlighter.survivors es s'.document.text).covering pos =
              new'.decorations.covering pos) := by
  intro s s' es new new' hvs hvs' hu hnew hnew' hquiet hbefore
  have htk : s.highlighter.backend.tokenizer = backend.tokenizer :=
    (start backend aliases theme t).run_tokenizer changes
  obtain ⟨t₁, hd, hs⟩ := (sound_start backend aliases theme t).run changes
  change s.document = .ofText t₁ at hd
  change s.highlighter.Sound t₁ at hs
  obtain ⟨t₂, ht₂, hsp⟩ := Document.applyAll_ofText t₁ replacements
  rw [← hd] at ht₂ hsp
  have hdocument : s'.document = .ofText t₂ := ht₂
  have hedit : s'.highlighter = s.highlighter.edit (.ofText t₂) es := by
    rw [← ht₂]
    rfl
  rw [← htk] at hp hu
  unfold new at hnew hbefore
  unfold new' at hnew' ⊢
  rw [hd] at hnew hbefore
  rw [hedit] at hvs' hquiet
  rw [hdocument, hedit] at hnew' ⊢
  have hf := (hs.faithful_iff hp hu hvs hnew).2 hbefore
  have htext : (Document.ofText t₂).text = t₂ := rfl
  rw [htext]
  exact hs.edit_covering_iff hf hp hsp hquiet hu hvs' hnew'

def halfSeen : Session Unit :=
  (start ⟨.initial, (), {}⟩ default "A" "```js\nab\ncd\n```\n".toList).run [.attach [.between 9 11]]

def halfSeenEdited : Session Unit := halfSeen.apply (.edit [(6, 6, "x".toList)])

/-- The second line keeps the colour that it had, and a new highlighter gives it another. -/
theorem edit_eq_scratch_iff_halfSeen :
    halfSeenEdited.highlighter.decorations.covering 10 ≠
      ((halfSeenEdited.highlighter.anew ()).attach halfSeenEdited.document
        [.between 10 12]).decorations.covering 10 ∧
    ∃ b, (halfSeen.highlighter.carried [.replace 6 6 1] halfSeenEdited.document.text).HalfSeen
        halfSeenEdited.document.text
        (halfSeen.highlighter.dirt [.replace 6 6 1] halfSeenEdited.document.text) b ∧
      ∃ pos, Interval.Covered [.between 10 12] pos ∧ b.start ≤ pos ∧ pos ≤ b.stop := by
  obtain ⟨hstale, hbefore, hvisible, hnew, hquiet⟩ :
      halfSeenEdited.highlighter.decorations.covering 10 ≠
          ((halfSeenEdited.highlighter.anew ()).attach halfSeenEdited.document
            [.between 10 12]).decorations.covering 10 ∧
        halfSeen.highlighter.decorations =
            ((halfSeen.highlighter.anew ()).attach halfSeen.document
              [.between 9 11]).decorations ∧
          halfSeenEdited.highlighter.visible = some [.between 10 12] ∧
            ((halfSeenEdited.highlighter.anew ()).attach halfSeenEdited.document
              [.between 10 12]).backend.loader.arrivals = 0 ∧
              halfSeenEdited.highlighter.backend.loader.arrivals ≤
                halfSeen.highlighter.backend.loader.arrivals := by
    simp only [halfSeenEdited, halfSeen, run, List.foldl_cons, List.foldl_nil, apply,
      Highlighter.attach, Highlighter.scroll, Highlighter.edit, Highlighter.reconcile,
      Highlighter.refence, DecorationSet.update, Host.locate, Document.blocksAt,
      Document.wholeLines, Interval.normalize, mergeSort_eq_sortWithin]
    decide +kernel
  have hiff := edit_eq_scratch_iff ⟨.initial, (), {}⟩ Tokenizer.initial_pure default "A"
    "```js\nab\ncd\n```\n".toList [.attach [.between 9 11]] [(6, 6, "x".toList)] ()
    [.between 9 11] [.between 10 12] (by decide +kernel) hvisible rfl (by decide +kernel) hnew
    hquiet fun pos _ => congrArg (DecorationSet.covering · pos) hbefore
  refine ⟨hstale, ?_⟩
  by_contra hnone
  refine hstale (hiff.2 (fun b hb pos hpos hlo hhi => ?_) 10 ⟨_, List.mem_cons_self, ?_⟩)
  · exact absurd ⟨b, hb, pos, hpos, hlo, hhi⟩ hnone
  · decide

end Session

end FencedCode
