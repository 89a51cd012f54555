import FencedCode.Proofs.Refreshing

namespace FencedCode

variable {σ : Type} {tk : Tokenizer σ}

namespace Tokenizer

/-- A watched tokenizer answers like the one inside, but for languages that fail. -/
theorem recorded_answer (r : Recorded σ) (theme language : String) (code : Text) :
    tk.recorded.answer r theme language code =
      if (tk.resolve r.inner language).any r.failing.contains then none
      else tk.answer r.inner theme language code := by
  have hready : tk.recorded.ready r = tk.ready r.inner := rfl
  unfold answer
  rw [hready]
  cases hr : tk.ready r.inner language with
  | none =>
    split_ifs
    · rfl
    · rfl
  | some id =>
    rw [(Option.filter_eq_some_iff.1 hr).1, Option.any_some, Option.bind_some, Option.bind_some,
      recorded_tokenize]
    split_ifs
    · rfl
    · rfl

theorem Steady.recorded_tokenize (hst : tk.Steady) (r : Recorded σ) (code : Text)
    (id theme : String) : tk.Agree (tk.recorded.tokenize r code id theme).1.inner r.inner ∧
      (tk.recorded.tokenize r code id theme).1.failing = r.failing := by
  rw [Tokenizer.recorded_tokenize]
  split_ifs
  · exact ⟨.refl _ _, rfl⟩
  · exact ⟨hst.tokenize _ _ _ _, rfl⟩

/-- The scripted tokenizer, but that every load succeeds at once. -/
def prompt : Tokenizer (List String) :=
  { scripted with load := fun s id => (id :: s, some .loaded) }

theorem prompt_steady : prompt.Steady where
  tokenize s _ _ _ := .refl _ s
  load s u id h := by
    refine ⟨rfl, ?_, fun _ _ _ => rfl⟩
    funext i
    show (id :: s).contains i = (id :: u).contains i
    rw [List.contains_cons, List.contains_cons, show s.contains i = u.contains i from
      congrFun h.isLoaded i]
  pending _ _ h := absurd rfl h

end Tokenizer

theorem any_contains_nil (id : Option String) : id.any ([] : List String).contains = false := by
  cases id with
  | none => rfl
  | some id => rfl

namespace Backend

/-- Two backends with the same tokenizer inside, which answers alike and has the same loads on its
way. In the first no language fails, in the second some do. -/
structure Abreast (tk : Tokenizer σ) (ids : List String) (b c : Backend (Recorded σ)) : Prop where
  left : b.tokenizer = tk.recorded
  right : c.tokenizer = tk.recorded
  agree : tk.Agree b.state.inner c.state.inner
  inFlight : c.loader.inFlight = b.loader.inFlight
  sane : b.state.failing = []
  failing : c.state.failing = ids

variable {ids : List String} {b c : Backend (Recorded σ)} {theme : String} {block : Block}
  {bs : List Block} {t : Text} {aliases : Aliases}

theorem Abreast.ready (h : Abreast tk ids b c) :
    b.tokenizer.ready b.state = c.tokenizer.ready c.state := by
  rw [h.left, h.right]
  exact h.agree.ready

theorem Abreast.resolve (h : Abreast tk ids b c) :
    b.tokenizer.resolve b.state = c.tokenizer.resolve c.state := by
  rw [h.left, h.right]
  exact h.agree.resolve

theorem Abreast.tokenize (h : Abreast tk ids b c) (hst : tk.Steady) (code : Text)
    (id theme : String) : Abreast tk ids
      { b with state := (b.tokenizer.tokenize b.state code id theme).1 }
      { c with state := (c.tokenizer.tokenize c.state code id theme).1 } := by
  obtain ⟨hleft, hright, hagree, hfl, hsane, hfailing⟩ := h
  rw [hleft, hright]
  obtain ⟨hb, hbf⟩ := hst.recorded_tokenize b.state code id theme
  obtain ⟨hc, hcf⟩ := hst.recorded_tokenize c.state code id theme
  exact ⟨rfl, rfl, (hb.trans hagree).trans hc.symm, hfl, hbf.trans hsane, hcf.trans hfailing⟩

theorem Abreast.loading (h : Abreast tk ids b c) (hst : tk.Steady) (id : String) :
    Abreast tk ids (b.loading id) (c.loading id) := by
  obtain ⟨hleft, hright, hagree, hfl, hsane, hfailing⟩ := h
  unfold Backend.loading
  rw [hleft, hright]
  refine ⟨rfl, rfl, hst.load _ _ _ hagree, ?_, hsane, hfailing⟩
  rw [Loader.started_inFlight, Loader.started_inFlight, hfl]

theorem Abreast.render (h : Abreast tk ids b c) (hst : tk.Steady) (theme : String) (d : Document)
    (hb : block.bodyStart < block.bodyStop) :
    Abreast tk ids (b.render theme d block).2 (c.render theme d block).2 := by
  have hc' := c.render_snd theme d hb
  rw [← h.ready, ← h.resolve, h.inFlight] at hc'
  rcases b.render_snd theme d hb with ⟨i, hi, hb'⟩ | ⟨hi, hb'⟩
  · rcases hc' with ⟨j, hj, hc'⟩ | ⟨hj, -⟩
    · obtain rfl : i = j := Option.some.inj (hi.symm.trans hj)
      rw [hb', hc']
      exact h.tokenize hst _ _ _
    · rw [hi] at hj
      cases hj
  · rcases hc' with ⟨j, hj, -⟩ | ⟨-, hc'⟩
    · rw [hi] at hj
      cases hj
    · rcases hb' with ⟨hb', hfl⟩ | ⟨i, hi, hin, hb'⟩ <;>
        rcases hc' with ⟨hc', hfl'⟩ | ⟨j, hj, hjn, hc'⟩
      · rw [hb', hc']
        exact h
      · exact absurd (hfl j hj) hjn
      · exact absurd (hfl' i hi) hin
      · obtain rfl : i = j := Option.some.inj (hi.symm.trans hj)
        rw [hb', hc']
        exact h.loading hst i

theorem render_resolve (htk : b.tokenizer = tk.recorded) (hst : tk.Steady)
    (hcat : ∀ s id, tk.resolve (tk.load s id).1 = tk.resolve s) (theme : String) (d : Document)
    (hb : block.bodyStart < block.bodyStop) :
    tk.resolve (b.render theme d block).2.state.inner = tk.resolve b.state.inner := by
  rcases b.render_snd theme d hb with ⟨id, -, h⟩ | ⟨-, ⟨h, -⟩ | ⟨id, -, -, h⟩⟩
  · rw [h, htk]
    exact (hst.recorded_tokenize _ _ _ _).1.resolve
  · rw [h]
  · rw [h, Backend.loading, htk]
    exact hcat _ _

/-- A block is painted alike, unless its language fails. -/
theorem Abreast.render_fst (h : Abreast tk ids b c) (theme : String) (d : Document)
    (hb : block.bodyStart < block.bodyStop) : (c.render theme d block).1 =
      if (tk.resolve b.state.inner block.language).any ids.contains then []
      else (b.render theme d block).1 := by
  rw [Backend.render_fst c theme d hb, Backend.render_fst b theme d hb, h.left, h.right]
  unfold Document.paint
  rw [Tokenizer.recorded_answer, Tokenizer.recorded_answer, h.sane, h.failing, h.agree.answer,
    h.agree.resolve, any_contains_nil, if_neg Bool.false_ne_true]
  split_ifs
  · rfl
  · rfl

/-- Side by side, two backends paint alike what starts outside the blocks whose language fails, and
the second paints nothing else. -/
theorem Abreast.renderAll (h : Abreast tk ids b c) (hst : tk.Steady)
    (hcat : ∀ s id, tk.resolve (tk.load s id).1 = tk.resolve s) (theme : String)
    (hbs : ∀ b ∈ bs, b ∈ (Document.ofText t).blocks aliases) (outside : Nat → Bool)
    (hout : ∀ block ∈ bs, ∀ pos, block.bodyStart ≤ pos → pos ≤ block.bodyStop →
      outside pos = !(tk.resolve b.state.inner block.language).any ids.contains) :
    (c.renderAll theme (Document.ofText t) bs).1 =
        (b.renderAll theme (Document.ofText t) bs).1.filter (fun x => outside x.start) ∧
      Abreast tk ids (b.renderAll theme (Document.ofText t) bs).2
        (c.renderAll theme (Document.ofText t) bs).2 := by
  induction bs generalizing b c with
  | nil => exact ⟨rfl, h⟩
  | cons block bs ih =>
    obtain ⟨hblock, hbs⟩ := List.forall_mem_cons.1 hbs
    obtain ⟨hfirst, hout⟩ := List.forall_mem_cons.1 hout
    have hbody := (Document.block_bounds hblock).2.1
    obtain ⟨hrest, habreast⟩ := ih (h.render hst theme (.ofText t) hbody) hbs fun c hc pos => by
      rw [render_resolve h.left hst hcat theme _ hbody]
      exact hout c hc pos
    have hpaint : (c.render theme (Document.ofText t) block).1 =
        (b.render theme (Document.ofText t) block).1.filter fun x => outside x.start := by
      -- what is painted starts in the body, so all of it is inside or all of it outside
      have hin : ∀ x ∈ (b.render theme (Document.ofText t) block).1, outside x.start =
          !(tk.resolve b.state.inner block.language).any ids.contains := by
        intro x hx
        rw [Backend.render_fst b theme _ hbody] at hx
        obtain ⟨hwell, hbounds⟩ := Document.paint_wellFormed hblock
          (b.tokenizer.answer b.state theme)
        have := (hwell.bounds x hx).1
        have := hbounds x hx
        exact hfirst x.start (by omega) (by omega)
      rw [h.render_fst theme _ hbody]
      split_ifs with hfails
      · exact (List.filter_eq_nil_iff.2 fun x hx => by simp [hin x hx, hfails]).symm
      · exact (List.filter_eq_self.2 fun x hx => by simp [hin x hx, hfails]).symm
    simp only [renderAll_cons]
    rw [List.filter_append, hpaint, hrest]
    exact ⟨rfl, habreast⟩

theorem Abreast.renderAll_eq (h : Abreast tk [] b c) (hst : tk.Steady)
    (hcat : ∀ s id, tk.resolve (tk.load s id).1 = tk.resolve s) (theme : String)
    (hbs : ∀ b ∈ bs, b ∈ (Document.ofText t).blocks aliases) :
    (c.renderAll theme (Document.ofText t) bs).1 =
      (b.renderAll theme (Document.ofText t) bs).1 := by
  have hpaint := (h.renderAll hst hcat theme hbs (fun _ => true) fun b _ pos _ _ => by
    rw [any_contains_nil, Bool.not_false]).1
  rwa [List.filter_true] at hpaint

end Backend

/-- A test that lets everything pass that is kept may come before an update or not at all. -/
theorem DecorationSet.update_filter {ds : DecorationSet} {keep : Nat → Bool} {p : Decoration → Bool}
    (hp : ∀ d ∈ ds, keep d.start → p d) (add : List Decoration) :
    (update (ds.filter p) keep add).1 = (ds.update keep add).1 := by
  have hkept : (ds.filter p).filter (fun d => keep d.start) = ds.filter fun d => keep d.start := by
    rw [List.filter_filter]
    refine List.filter_congr fun d hd => ?_
    cases hk : keep d.start with
    | true => rw [hp d hd hk, Bool.and_self]
    | false => rw [Bool.false_and]
  exact congrArg (fun kept => (kept ++ add).mergeSort Decoration.before) hkept

namespace Highlighter

/-- The highlighter while exactly the given languages fail to tokenize. -/
def failing (h : Highlighter (Recorded σ)) (ids : List String) : Highlighter (Recorded σ) :=
  { h with backend := { h.backend with state := { h.backend.state with failing := ids } } }

/-- The blocks in sight whose language is one of those given. -/
def struck (h : Highlighter (Recorded σ)) (d : Document) (ids : List String) : List Block :=
  (d.host.locate h.aliases (h.shown d)).filter fun b =>
    (h.backend.tokenizer.resolve h.backend.state b.language).any ids.contains

def spares (h : Highlighter (Recorded σ)) (d : Document) (ids : List String) (pos : Nat) : Bool :=
  !(h.struck d ids).any (·.span.touches pos)

variable {h : Highlighter (Recorded σ)} {t : Text} {ids : List String}

theorem mem_struck {b : Block} : b ∈ h.struck (.ofText t) ids ↔ b ∈ h.refreshed t ∧
    (h.backend.tokenizer.resolve h.backend.state b.language).any ids.contains := by
  rw [struck, List.mem_filter, refreshed_eq]

theorem spares_iff {pos : Nat} : h.spares (.ofText t) ids pos = true ↔
    ∀ b ∈ h.struck (.ofText t) ids, ¬ (b.start ≤ pos ∧ pos ≤ b.stop) := by
  rw [spares, Bool.not_eq_true', List.any_eq_false]
  refine forall₂_congr fun b hb => ?_
  have hle := h.repainted_le t _ b (mem_struck.1 hb).1
  rw [Block.span, Interval.touches, Interval.between_lo, Interval.between_hi, min_eq_left hle,
    max_eq_right hle, Bool.and_eq_true, decide_eq_true_eq, decide_eq_true_eq]

/-- The body of a block that is refreshed is spared as a whole, unless the block is struck. -/
theorem spares_of_refreshed {b : Block} {pos : Nat} (hb : b ∈ h.refreshed t)
    (hlo : b.bodyStart ≤ pos) (hhi : pos ≤ b.bodyStop) : h.spares (.ofText t) ids pos =
      !(h.backend.tokenizer.resolve h.backend.state b.language).any ids.contains := by
  have hbounds := Document.block_bounds (h.refreshed_blocks t b hb)
  have hin : b.start ≤ pos ∧ pos ≤ b.stop := ⟨by omega, by omega⟩
  rw [Bool.eq_iff_iff, spares_iff, Bool.not_eq_true', ← Bool.not_eq_true]
  constructor
  · exact fun hout hfails => hout b (mem_struck.2 ⟨hb, hfails⟩) hin
  · intro hsane c hc hin'
    obtain ⟨hc, hfails⟩ := mem_struck.1 hc
    -- only one block lies around the offset
    rcases pairwise_trichotomy (h.repainted_pairwise t _) hb hc with rfl | hlt | hlt
    · exact hsane hfails
    · omega
    · omega

theorem abreast_failing (htk : h.backend.tokenizer = tk.recorded) (ids : List String) :
    Backend.Abreast tk ids (h.failing []).backend (h.failing ids).backend :=
  ⟨htk, htk, .refl _ _, rfl, rfl, rfl⟩

theorem refreshing_failing (htk : h.backend.tokenizer = tk.recorded) (hst : tk.Steady)
    (hcat : ∀ s id, tk.resolve (tk.load s id).1 = tk.resolve s) (ids : List String) :
    (h.failing ids).refreshing t =
        ((h.failing []).refreshing t).filter (fun x => h.spares (.ofText t) ids x.start) ∧
      Backend.Abreast tk ids ((h.failing []).refresh (.ofText t)).backend
        ((h.failing ids).refresh (.ofText t)).backend := by
  rw [refreshing_eq, refreshing_eq, refresh_backend, refresh_backend]
  refine (abreast_failing htk ids).renderAll hst hcat h.theme (h.refreshed_blocks t)
    (h.spares (.ofText t) ids) fun b hb pos hlo hhi => ?_
  rw [h.spares_of_refreshed hb hlo hhi, htk]
  rfl

/-- While some languages fail, a refresh leaves the decorations that one while none fails leaves
outside the blocks of these languages. -/
theorem refresh_failing (hs : h.decorations.Sorted) (htk : h.backend.tokenizer = tk.recorded)
    (hst : tk.Steady) (hcat : ∀ s id, tk.resolve (tk.load s id).1 = tk.resolve s)
    (ids : List String) : ((h.failing ids).refresh (.ofText t)).decorations =
      ((h.failing []).refresh (.ofText t)).decorations.filter
        fun x => h.spares (.ofText t) ids x.start := by
  -- what is kept starts in no block that is refreshed, so in none that is struck
  have hkeeps : ∀ d ∈ h.decorations, (h.failing []).keeps t d.start →
      h.spares (.ofText t) ids d.start := by
    intro d _ hk
    obtain ⟨-, hout⟩ := (kept_iff (h.repainted_le t _)).1 hk
    exact spares_iff.2 fun b hb => hout b (mem_struck.1 hb).1
  rw [refresh_decorations (h := h.failing ids) hs, refresh_decorations (h := h.failing []) hs,
    DecorationSet.filter_update, (refreshing_failing htk hst hcat ids).1]
  exact (DecorationSet.update_filter hkeeps _).symm

/-- Once nothing fails any more, a refresh leaves what another one would have left anyway. -/
theorem refresh_failing_again (hs : h.decorations.Sorted)
    (htk : h.backend.tokenizer = tk.recorded) (hst : tk.Steady)
    (hcat : ∀ s id, tk.resolve (tk.load s id).1 = tk.resolve s) (ids : List String) :
    ((((h.failing ids).refresh (.ofText t)).failing []).refresh (.ofText t)).decorations =
      (((h.failing []).refresh (.ofText t)).refresh (.ofText t)).decorations := by
  let harmed := (h.failing ids).refresh (.ofText t)
  let sane := (h.failing []).refresh (.ofText t)
  obtain ⟨hvisible, htheme, haliases⟩ := (h.failing ids).refresh_rest t
  obtain ⟨hvisible', htheme', haliases'⟩ := (h.failing []).refresh_rest t
  have hleft := refresh_again (h := h.failing ids) (k := harmed.failing []) (t := t) hs haliases
    hvisible rfl
  have hright := refresh_again (h := h.failing []) (k := sane) (t := t) hs haliases' hvisible' rfl
  -- with the failures gone, the two backends are abreast again
  have habreast := (refreshing_failing (t := t) htk hst hcat ids).2
  have hrecovered : Backend.Abreast tk [] sane.backend (harmed.failing []).backend :=
    ⟨habreast.left, habreast.right, habreast.agree, habreast.inFlight, habreast.sane, rfl⟩
  have hblocks : (harmed.failing []).refreshed t = h.refreshed t :=
    (h.failing ids).refresh_refreshed t
  have hblocks' : sane.refreshed t = h.refreshed t := (h.failing []).refresh_refreshed t
  have hsame : (harmed.failing []).refreshing t = sane.refreshing t := by
    rw [refreshing_eq, refreshing_eq, hblocks, hblocks', show sane.theme = h.theme from htheme',
      show (harmed.failing []).theme = h.theme from htheme]
    exact hrecovered.renderAll_eq hst hcat h.theme (h.refreshed_blocks t)
  rw [hsame] at hleft
  exact hleft.trans hright.symm

/-- That is what the first one would have left, if the tokenizer stays the same meanwhile. -/
theorem Still.refresh_failing (hs : h.decorations.Sorted)
    (htk : h.backend.tokenizer = tk.recorded) (hst : tk.Steady)
    (hcat : ∀ s id, tk.resolve (tk.load s id).1 = tk.resolve s) (ids : List String)
    (hstill : (h.failing []).Still (.ofText t)) :
    ((((h.failing ids).refresh (.ofText t)).failing []).refresh (.ofText t)).decorations =
      ((h.failing []).refresh (.ofText t)).decorations := by
  have htokenizer : ((h.failing []).refresh (.ofText t)).backend.tokenizer = tk.recorded :=
    ((h.failing []).reconcile_tokenizer _ _).trans htk
  have hagain : ((h.failing []).refresh (.ofText t)).Still (.ofText t) := by
    rw [still_iff, refresh_refreshed]
    refine Backend.still_of_sought ?_ ((h.failing []).refreshed_bodies t) hstill.sought
    rw [htokenizer]
    exact Tokenizer.recorded_tokenize_agree hst.tokenize
  rw [refresh_failing_again hs htk hst hcat ids]
  exact hstill.refresh_eq (h := h.failing []) hs hagain

end Highlighter

namespace Session

/-- A language that fails to tokenize harms its own blocks only. Whatever has happened, a refresh
while some languages fail leaves exactly the decorations that one while none fails leaves outside
the blocks in sight of these languages, and none in those. A further refresh, once nothing fails,
leaves what two without failures leave, and if no load changes the tokenizer meanwhile, what the
first of them leaves. -/
theorem failures_contained (hst : tk.Steady)
    (hcat : ∀ s id, tk.resolve (tk.load s id).1 = tk.resolve s) {s : Session (Recorded σ)}
    (hs : s.Arises) (htk : s.highlighter.backend.tokenizer = tk.recorded) (ids : List String) :
    let sane := (s.highlighter.failing []).refresh s.document
    let harmed := (s.highlighter.failing ids).refresh s.document
    let recovered := (harmed.failing []).refresh s.document
    harmed.decorations =
        sane.decorations.filter (fun x => s.highlighter.spares s.document ids x.start) ∧
      recovered.decorations = (sane.refresh s.document).decorations ∧
        ((s.highlighter.failing []).Still s.document →
          recovered.decorations = sane.decorations) := by
  obtain ⟨⟨t, hd⟩, hsorted⟩ := hs.sorted
  intro sane harmed recovered
  unfold recovered harmed sane
  rw [hd]
  exact ⟨Highlighter.refresh_failing hsorted htk hst hcat ids,
    Highlighter.refresh_failing_again hsorted htk hst hcat ids,
    fun hstill => hstill.refresh_failing hsorted htk hst hcat ids⟩

def twoLanguages : Session (Recorded (List String)) :=
  (start ⟨Tokenizer.scripted.recorded, ⟨["javascript", "rust"], [], 0, []⟩, {}⟩ default "A"
    "```js\na\n```\n```rust\nb\n```\n".toList).apply (.attach [.between 0 26])

/-- While one of the languages fails, only the other block has a decoration. -/
theorem failures_contained_twoLanguages :
    ((twoLanguages.highlighter.failing ["rust"]).refresh twoLanguages.document).decorations =
        [⟨6, 7, "color: #A;"⟩] ∧
      ((((twoLanguages.highlighter.failing ["rust"]).refresh twoLanguages.document).failing
        []).refresh twoLanguages.document).decorations =
          [⟨6, 7, "color: #A;"⟩, ⟨20, 21, "color: #A;"⟩] := by
  have harises : twoLanguages.Arises := .apply (.start _ _ _ _) _
  have htk : twoLanguages.highlighter.backend.tokenizer = Tokenizer.scripted.recorded :=
    apply_tokenizer _ _
  have hsane : ((twoLanguages.highlighter.failing []).refresh twoLanguages.document).decorations =
      [⟨6, 7, "color: #A;"⟩, ⟨20, 21, "color: #A;"⟩] := by
    simp only [twoLanguages, apply, Highlighter.attach, Highlighter.scroll, Highlighter.refresh,
      Highlighter.reconcile, DecorationSet.update, Host.locate, Document.blocksAt,
      Interval.normalize, mergeSort_eq_sortWithin]
    decide +kernel
  obtain ⟨t, hd⟩ := harises.sorted.1
  have hstill : (twoLanguages.highlighter.failing []).Still twoLanguages.document :=
    hd ▸ Highlighter.still_recorded (h := twoLanguages.highlighter.failing []) htk
      Tokenizer.scripted_steady.tokenize (fun _ _ => .refl _ _) t
  obtain ⟨hharmed, -, hrecovered⟩ := failures_contained Tokenizer.scripted_steady
    (fun _ _ => rfl) harises htk ["rust"]
  refine ⟨?_, (hrecovered hstill).trans hsane⟩
  rw [hharmed, hsane]
  simp only [twoLanguages, apply, Highlighter.attach, Highlighter.scroll, Highlighter.spares,
    Highlighter.struck, Highlighter.reconcile, DecorationSet.update, Host.locate,
    Document.blocksAt, Interval.normalize, mergeSort_eq_sortWithin]
  decide +kernel

/-- A block of a loaded language, and one with a tag that has come to stand for a language that is
not. -/
def retagged : Session (Recorded (List String)) :=
  ((start ⟨Tokenizer.prompt.recorded, ⟨["javascript"], [], 0, []⟩, {}⟩ default "A"
    "```js\na\n```\n```x\nb\n```\n".toList).apply (.attach [.between 0 22])).apply
      (.setAliases (.ofList [("x", "rust")]))

/-- The refresh that fails asks for the language and finds it loaded at the end, so that the next
one paints a block which a first refresh without failures leaves plain. -/
theorem failures_contained_retagged :
    let sane := (retagged.highlighter.failing []).refresh retagged.document
    let harmed := (retagged.highlighter.failing ["javascript"]).refresh retagged.document
    let recovered := (harmed.failing []).refresh retagged.document
    (retagged.Arises ∧ retagged.highlighter.backend.tokenizer = Tokenizer.prompt.recorded ∧
        Tokenizer.prompt.Steady) ∧
      sane.decorations = [⟨6, 7, "color: #A;"⟩] ∧
        recovered.decorations = [⟨6, 7, "color: #A;"⟩, ⟨17, 18, "color: #A;"⟩] := by
  have harises : retagged.Arises := .apply (.apply (.start _ _ _ _) _) _
  have htk : retagged.highlighter.backend.tokenizer = Tokenizer.prompt.recorded :=
    (apply_tokenizer _ _).trans (apply_tokenizer _ _)
  refine ⟨⟨harises, htk, Tokenizer.prompt_steady⟩, ?_⟩
  simp only [retagged, apply, Highlighter.attach, Highlighter.scroll, Highlighter.setAliases,
    Highlighter.refresh, Highlighter.reconcile, DecorationSet.update, Host.locate,
    Document.blocksAt, Interval.normalize, mergeSort_eq_sortWithin]
  decide +kernel

end Session

end FencedCode
