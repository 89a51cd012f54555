import FencedCode.Proofs.Announcements
import FencedCode.Proofs.Sorting
import FencedCode.Proofs.Unrepaired

namespace FencedCode

variable {σ : Type}

structure Use where
  code : Text
  language : String
  theme : String
  deriving DecidableEq

namespace Tokenizer

structure Logs (tk : Tokenizer σ) (log : σ → List Use) : Prop where
  tokenize : ∀ s code id theme, log (tk.tokenize s code id theme).1 = log s ++ [⟨code, id, theme⟩]
  load : ∀ s id, log (tk.load s id).1 = log s

def logged (tk : Tokenizer σ) : Tokenizer (σ × List Use) where
  resolve s name := tk.resolve s.1 name
  isLoaded s id := tk.isLoaded s.1 id
  load s id := (((tk.load s.1 id).1, s.2), (tk.load s.1 id).2)
  tokenize s code id theme :=
    (((tk.tokenize s.1 code id theme).1, s.2 ++ [⟨code, id, theme⟩]),
      (tk.tokenize s.1 code id theme).2)
  colors s theme := tk.colors s.1 theme

theorem logged_logs (tk : Tokenizer σ) : tk.logged.Logs Prod.snd :=
  ⟨fun _ _ _ _ => rfl, fun _ _ => rfl⟩

/-- The use tokenizes the body of the block in the theme, as the language the block names. -/
structure UsedFor (tk : Tokenizer σ) (d : Document) (theme : String) (b : Block) (u : Use) :
    Prop where
  code : u.code = d.slice b.body
  language : ∃ s, tk.resolve s b.language = some u.language
  theme : u.theme = theme

end Tokenizer

/-- Rendering blocks uses the tokenizer for some of them, in order and once for each. -/
theorem Backend.renderAll_log {b : Backend σ} {log : σ → List Use} (hlog : b.tokenizer.Logs log)
    (theme : String) (d : Document) {bs : List Block} (hbs : ∀ b ∈ bs, b.bodyStart < b.bodyStop) :
    ∃ used uses, used.Sublist bs ∧ List.Forall₂ (b.tokenizer.UsedFor d theme) used uses ∧
      log (b.renderAll theme d bs).2.state = log b.state ++ uses := by
  induction bs generalizing b with
  | nil => exact ⟨[], [], .slnil, .nil, (List.append_nil _).symm⟩
  | cons block bs ih =>
    have hblock := hbs block List.mem_cons_self
    have htk := b.render_tokenizer theme d block
    obtain ⟨used, uses, hsub, hfor, hrest⟩ := ih (b := (b.render theme d block).2) (htk ▸ hlog)
      fun c hc => hbs c (List.mem_cons_of_mem _ hc)
    rw [htk] at hfor
    rw [renderAll_cons]
    dsimp only
    rw [hrest]
    rcases b.render_snd theme d hblock with ⟨id, hready, h⟩ | ⟨-, ⟨h, -⟩ | ⟨id, -, -, h⟩⟩
    · have huse : b.tokenizer.UsedFor d theme block ⟨d.slice block.body, id, theme⟩ :=
        ⟨rfl, ⟨b.state, (Option.filter_eq_some_iff.1 hready).1⟩, rfl⟩
      refine ⟨block :: used, _ :: uses, hsub.cons_cons block, .cons huse hfor, ?_⟩
      rw [h]
      dsimp only
      rw [hlog.tokenize, List.append_assoc, List.singleton_append]
    · refine ⟨used, uses, hsub.cons block, hfor, ?_⟩
      rw [h]
    · refine ⟨used, uses, hsub.cons block, hfor, ?_⟩
      rw [h, loading, hlog.load]

/-- The blocks that touch some interval where it is in sight. -/
def Document.blocksTouching (d : Document) (aliases : Aliases) (edited visible : List Interval) :
    List Block :=
  (d.host.locate aliases [d.all]).filter fun b =>
    edited.any fun r => visible.any fun v => (r.inter? v).any (·.intersects b.span)

/-- The decoration after edits, unless one of them reaches into it. -/
def Decoration.mapAll? (es : List Edit) (x : Decoration) : Option Decoration :=
  es.foldlM (fun x e => x.map? e) x

namespace Decoration

variable {t t' : Text} {es : List Edit} {x x' : Decoration}

theorem map?_ends {e : Edit} (he : e.Ordered) (hx : x.start < x.stop) (h : x.map? e = some x') :
    x'.start = e.mapPos x.start .right ∧ x'.stop = e.mapPos x.stop .left ∧
      x'.length = x.length ∧ x'.style = x.style := by
  obtain ⟨h1, h2⟩ := he
  simp only [Edit.mapPos, Bool.or_eq_true, Bool.and_eq_true, decide_eq_true_eq, beq_iff_eq, length]
  rcases map?_eq_some hx h with ⟨h3, rfl⟩ | ⟨h3, h4, h5, h6⟩
  · refine ⟨?_, ?_, rfl, rfl⟩ <;> split_ifs <;> omega
  · refine ⟨?_, ?_, by omega, h6⟩ <;> split_ifs <;> omega

theorem mapAll?_ends (hs : Splices t es t') (hx : x.start < x.stop)
    (h : x.mapAll? es = some x') :
    x'.start = Edit.mapAll es .right x.start ∧ x'.stop = Edit.mapAll es .left x.stop ∧
      x'.length = x.length ∧ x'.style = x.style := by
  induction hs generalizing x with
  | nil =>
    obtain rfl := Option.some.inj h
    exact ⟨rfl, rfl, rfl, rfl⟩
  | @cons _ _ _ e es hs _ ih =>
    rw [mapAll?, List.foldlM_cons] at h
    obtain ⟨y, hy, hrest⟩ := Option.bind_eq_some_iff.1 h
    obtain ⟨h1, h2, h3, h4⟩ := map?_ends hs.ordered hx hy
    have hlen : y.start < y.stop := by
      unfold length at h3
      omega
    obtain ⟨h5, h6, h7, h8⟩ := ih hlen hrest
    rw [h1] at h5
    rw [h2] at h6
    exact ⟨h5, h6, h7.trans h3, h8.trans h4⟩

end Decoration

namespace Highlighter

variable {h : Highlighter σ} {t t' : Text} {es : List Edit}

theorem decorations_after (h : Highlighter σ) (es : List Edit) :
    (h.after es).decorations = h.decorations.filterMap (·.mapAll? es) := by
  have hfold : ∀ T : Tracked, (es.foldl Tracked.edit T).decorations =
      T.decorations.filterMap (·.mapAll? es) := by
    induction es with
    | nil =>
      intro T
      exact List.filterMap_some.symm
    | cons e es ih =>
      intro T
      rw [List.foldl_cons, ih]
      exact List.filterMap_filterMap
  exact hfold h.tracked

theorem dirt_unrepaired (hr : h.repaired es t' = false) : h.dirt es t' = (h.after es).dirty := by
  rw [dirt, below, hr, if_neg Bool.false_ne_true, List.append_nil]

theorem dirty_after_le (hsp : Splices t es t') :
    ∀ r ∈ (h.after es).dirty, r.hi ≤ Text.size t' :=
  Tracked.dirty_edits_le hsp (T := h.tracked) (by simp [Highlighter.tracked])

/-- The blocks that are painted anew are those that touch what was edited in sight. -/
theorem repainted_unrepaired (hsp : Splices t es t')
    (hr : h.repaired es t' = false) {visible : List Interval}
    (hv : (h.after es).visible = some visible) :
    (h.carried es t').repainted t' (h.dirt es t') =
      (Document.ofText t').blocksTouching h.aliases (h.after es).dirty visible := by
  have hshows : ∀ pos, (h.carried es t').Shows pos ↔ Interval.Touched visible pos := by
    intro pos
    change (∀ vs, (h.after es).visible = some vs → _) ↔ _
    rw [hv]
    simp
  unfold repainted Document.blocksTouching
  rw [dirt_unrepaired hr, Interval.map_clamp (dirty_after_le hsp), Document.all,
    Document.locate_all]
  refine List.filter_congr fun b _ => ?_
  rw [Bool.eq_iff_iff, Interval.any_intersects]
  simp only [touched_visiblePart, Interval.touched_normalize, hshows, List.any_eq_true,
    Option.any_eq_true, Interval.intersects_iff]
  constructor
  · rintro ⟨pos, ⟨⟨r, hr, hpos⟩, v, hv, hpos'⟩, hb⟩
    obtain ⟨i, hi, hin⟩ := Interval.touched_inter?.2 ⟨hpos, hpos'⟩
    exact ⟨r, hr, v, hv, i, hi, pos, hin, hb⟩
  · rintro ⟨r, hr, v, hv, i, hi, pos, hin, hb⟩
    obtain ⟨hpos, hpos'⟩ := Interval.touched_inter?.1 ⟨i, hi, hin⟩
    exact ⟨pos, ⟨⟨r, hr, hpos⟩, v, hv, hpos'⟩, hb⟩

/-- Following edits reconciles what they carried along; the memory of fence lines apart, this also
holds when there are none. -/
theorem edit_carried (h : Highlighter σ) (es : List Edit) (t' : Text) :
    let h' := h.edit (.ofText t') es
    let k := (h.carried es t').reconcile (.ofText t') (h.dirt es t')
    h'.decorations = k.decorations ∧ h'.visible = k.visible ∧ h'.backend = k.backend := by
  dsimp only
  by_cases hes : es = []
  · subst hes
    have hdirt : h.dirt [] t' = [] := by
      unfold dirt below
      split_ifs
      · rfl
      · rfl
    rw [hdirt, reconcile_nil]
    exact ⟨rfl, rfl, rfl⟩
  · rw [edit_eq hes]
    exact ⟨rfl, rfl, rfl⟩

theorem visible_edit (h : Highlighter σ) (es : List Edit) (t' : Text) :
    (h.edit (.ofText t') es).visible = (h.after es).visible := by
  rw [(h.edit_carried es t').2.1, (reconcile_rest _ _ _).1]
  rfl

/-- The tokenizer has been at work on these blocks only. -/
theorem backend_edit_unrepaired (hsp : Splices t es t')
    (hr : h.repaired es t' = false) {visible : List Interval}
    (hv : (h.edit (.ofText t') es).visible = some visible) :
    (h.edit (.ofText t') es).backend = (h.backend.renderAll h.theme (Document.ofText t')
      ((Document.ofText t').blocksTouching h.aliases (h.after es).dirty visible)).2 := by
  rw [visible_edit] at hv
  rw [(h.edit_carried es t').2.2, reconcile_backend, repainted_unrepaired hsp hr hv]
  rfl

/-- There are the decorations moved along, unless they begin in what was edited or in one of these
blocks, and those rendered just now. -/
theorem mem_edit_unrepaired (hsp : Splices t es t')
    (hr : h.repaired es t' = false) {visible : List Interval}
    (hv : (h.edit (.ofText t') es).visible = some visible) {x' : Decoration} :
    let blocks := (Document.ofText t').blocksTouching h.aliases (h.after es).dirty visible
    x' ∈ (h.edit (.ofText t') es).decorations ↔
      (∃ x ∈ h.decorations, x.mapAll? es = some x' ∧
        ¬ Interval.Touched (h.after es).dirty x'.start ∧
          ∀ b ∈ blocks, ¬ (b.start ≤ x'.start ∧ x'.start ≤ b.stop)) ∨
        x' ∈ (h.backend.renderAll h.theme (Document.ofText t') blocks).1 := by
  intro blocks
  rw [visible_edit] at hv
  have hblocks : (h.carried es t').repainted t' (h.dirt es t') = blocks :=
    repainted_unrepaired hsp hr hv
  rw [(h.edit_carried es t').1, mem_reconcile, fresh, hblocks, dirt_unrepaired hr, Dirty,
    Interval.map_clamp (dirty_after_le hsp)]
  change (x' ∈ (h.after es).decorations ∧ _) ∨ _ ↔ _
  rw [decorations_after, List.mem_filterMap]
  simp only [← and_assoc, ← exists_and_right]
  rfl

end Highlighter

namespace Session

/-- Edits that pair no fence lines anew are followed block by block, whatever has happened before.
The tokenizer is used only for blocks that touch what was edited in sight, once for each at most.
There are the decorations that no edit reached into, each moved exactly as its ends are, unless it
begins in what was edited or in such a block, and besides them what was rendered for these blocks
just now. -/
theorem edit_unrepaired {s : Session σ} (hs : s.Arises) (replacements : List (Nat × Nat × Text))
    (visible : List Interval) :
    let s' := s.apply (.edit replacements)
    let h := s.highlighter
    let h' := s'.highlighter
    let d := s'.document
    let es := (s.document.applyAll replacements).2
    let edited := (h.after es).dirty
    let blocks := d.blocksTouching h.aliases edited visible
    h.repaired es d.text = false → h'.visible = some visible →
      (∀ log, h.backend.tokenizer.Logs log → ∃ used uses, used.Sublist blocks ∧
        List.Forall₂ (h.backend.tokenizer.UsedFor d h.theme) used uses ∧
          log h'.backend.state = log h.backend.state ++ uses) ∧
      blocks.Pairwise (fun b c => b.stop < c.start) ∧
      (∀ x', x' ∈ h'.decorations ↔
        (∃ x ∈ h.decorations, x.mapAll? es = some x' ∧ ¬ Interval.Touched edited x'.start ∧
          ∀ b ∈ blocks, ¬ (b.start ≤ x'.start ∧ x'.start ≤ b.stop)) ∨
        x' ∈ (h.backend.renderAll h.theme d blocks).1) ∧
      ∀ x ∈ h.decorations, ∀ x', x.mapAll? es = some x' →
        x'.start = Edit.mapAll es .right x.start ∧ x'.stop = Edit.mapAll es .left x.stop ∧
          x'.length = x.length ∧ x'.style = x.style := by
  intro s' h h' d es edited blocks hr hvisible
  obtain ⟨⟨t, ht⟩, hsorted⟩ := hs.sorted
  obtain ⟨t', hd', hsp⟩ := Document.applyAll_ofText t replacements
  rw [← ht] at hd' hsp
  have hd : d = .ofText t' := hd'
  have hh' : h' = h.edit (.ofText t') es := congrArg (h.edit · es) hd'
  rw [hh'] at hvisible ⊢
  unfold blocks
  rw [hd] at hr ⊢
  have hafter := hvisible
  rw [h.visible_edit es t'] at hafter
  have hblocks := Highlighter.repainted_unrepaired hsp hr hafter
  refine ⟨fun log hlog => ?_, ?_, fun x' => Highlighter.mem_edit_unrepaired hsp hr hvisible,
    fun x hx x' hx' => Decoration.mapAll?_ends hsp (hsorted.nonempty x hx) hx'⟩
  · rw [Highlighter.backend_edit_unrepaired hsp hr hvisible]
    refine Backend.renderAll_log hlog h.theme _ ?_
    rw [← hblocks]
    exact Highlighter.repainted_bodies _ _ _
  · rw [← hblocks]
    exact Highlighter.repainted_pairwise _ _ _

def twoScripts : Session (List String × List Use) :=
  (start ⟨Tokenizer.scripted.logged, (["javascript"], []), {}⟩ default "A"
    "```js\na\n```\nx\n```js\nb\n```\n".toList).apply (.attach [.between 0 26])

def twoScriptsTyped : Session (List String × List Use) :=
  twoScripts.apply (.edit [(6, 6, "y".toList)])

/-- At most the first script is tokenized, and the second keeps its decoration, one byte further
on. -/
theorem edit_unrepaired_twoScripts :
    twoScripts.Arises ∧
      (∃ uses, uses.length ≤ 1 ∧ twoScriptsTyped.highlighter.backend.state.2 =
        twoScripts.highlighter.backend.state.2 ++ uses) ∧
        ⟨21, 22, "color: #A;"⟩ ∈ twoScriptsTyped.highlighter.decorations := by
  have harises : twoScripts.Arises := .apply (.start _ _ _ _) _
  have hedits : (twoScripts.document.applyAll [(6, 6, "y".toList)]).2 = [⟨6, 6, 7⟩] := by
    decide +kernel
  have hedited : (twoScripts.highlighter.after [⟨6, 6, 7⟩]).dirty = [.between 6 7] := by
    decide +kernel
  obtain ⟨hold, hrepaired, hvisible, hblocks⟩ :
      twoScripts.highlighter.decorations =
          [⟨6, 7, "color: #A;"⟩, ⟨20, 21, "color: #A;"⟩] ∧
        twoScripts.highlighter.repaired [⟨6, 6, 7⟩] twoScriptsTyped.document.text = false ∧
          twoScriptsTyped.highlighter.visible = some [.between 0 27] ∧
            (twoScriptsTyped.document.blocksTouching twoScripts.highlighter.aliases
              [.between 6 7] [.between 0 27]).map (fun b => (b.start, b.stop)) = [(0, 12)] := by
    simp only [twoScriptsTyped, twoScripts, apply, Highlighter.attach, Highlighter.scroll,
      Highlighter.edit, Highlighter.reconcile, Highlighter.refence, Highlighter.repaired,
      Highlighter.refenced, Highlighter.after, Highlighter.tracked, DecorationSet.update,
      Host.locate, Document.blocksTouching, Document.blocksAt, Document.wholeLines,
      Interval.normalize, mergeSort_eq_sortWithin]
    decide +kernel
  have hlogs : twoScripts.highlighter.backend.tokenizer.Logs Prod.snd := by
    rw [twoScripts, apply_tokenizer]
    exact Tokenizer.logged_logs _
  have h := edit_unrepaired harises [(6, 6, "y".toList)] [.between 0 27]
  dsimp only at h
  rw [← twoScriptsTyped, hedits, hedited] at h
  obtain ⟨huses, -, hmem, -⟩ := h hrepaired hvisible
  refine ⟨harises, ?_, ?_⟩
  · obtain ⟨used, uses, hsub, hfor, hlog⟩ := huses Prod.snd hlogs
    have hlen := hsub.length_le
    have hone := congrArg List.length hblocks
    rw [List.length_map] at hone
    rw [hfor.length_eq, hone] at hlen
    exact ⟨uses, hlen, hlog⟩
  · refine (hmem _).2 (.inl ⟨⟨20, 21, "color: #A;"⟩, by simp [hold], rfl, ?_, ?_⟩)
    · simp [Interval.Touched]
    · rintro b hb ⟨-, hstop⟩
      have hspan := List.mem_map_of_mem (f := fun b => (b.start, b.stop)) hb
      rw [hblocks, List.mem_singleton, Prod.mk.injEq] at hspan
      rw [hspan.2] at hstop
      exact absurd hstop (by decide)

end Session

end FencedCode
