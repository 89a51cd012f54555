import FencedCode.Proofs.Announcements
import FencedCode.Proofs.Resync
import FencedCode.Proofs.Sorting
import FencedCode.Tokenizer.Recorded

namespace FencedCode

namespace DecorationSet

variable {ds : DecorationSet} {keep : Nat → Bool} {add : List Decoration}

theorem filter_update (p : Decoration → Bool) :
    (ds.update keep add).1.filter p = (update (ds.filter p) keep (add.filter p)).1 := by
  simp only [update]
  rw [filter_mergeSort Decoration.before_trans Decoration.before_total, List.filter_append,
    List.filter_comm]

/-- If what an update adds is not kept by the next one, only what that one adds matters. -/
theorem Sorted.update_again (h : ds.Sorted) (hadd : ∀ d ∈ add, keep d.start = false)
    (add' : List Decoration) :
    ((ds.update keep add).1.update keep add').1 = (ds.update keep add').1 := by
  have hkept : (ds.update keep add).1.filter (fun d => keep d.start) =
      ds.filter fun d => keep d.start := by
    have hnone : (add.filter fun d => keep d.start) = [] :=
      List.filter_eq_nil_iff.2 fun d hd => by rw [hadd d hd]; exact Bool.false_ne_true
    have hsorted : Sorted (ds.filter fun d => keep d.start) :=
      ⟨fun d hd => h.nonempty d (List.mem_filter.1 hd).1, h.ordered.filter _⟩
    rw [filter_update, hnone]
    exact hsorted.update_eq (update_snd_eq_false.2 ⟨fun d hd => (List.mem_filter.1 hd).2, rfl⟩)
  exact congrArg (fun kept => (kept ++ add').mergeSort Decoration.before) hkept

end DecorationSet

namespace Tokenizer

variable {σ : Type} {tk : Tokenizer σ}

/-- The tokenizer writes down which languages it is asked to load, the latest last. -/
structure LogsLoads (tk : Tokenizer σ) (log : σ → List String) : Prop where
  tokenize : ∀ s code id theme, log (tk.tokenize s code id theme).1 = log s
  load : ∀ s id, log (tk.load s id).1 = log s ++ [id]

theorem recorded_tokenize (tk : Tokenizer σ) (s : Recorded σ) (code : Text) (id theme : String) :
    tk.recorded.tokenize s code id theme =
      if s.failing.contains id then
        ({ s with uses := s.uses + 1 }, .error (.tokenizeFailed id "grammar exploded"))
      else
        ({ s with uses := s.uses + 1, inner := (tk.tokenize s.inner code id theme).1 },
          (tk.tokenize s.inner code id theme).2) := rfl

theorem recorded_logsLoads (tk : Tokenizer σ) : tk.recorded.LogsLoads (·.loads) where
  tokenize s code id theme := by
    rw [recorded_tokenize]
    split_ifs
    · rfl
    · rfl
  load s id := rfl

theorem recorded_agree {r u : Recorded σ} (h : tk.Agree r.inner u.inner)
    (hf : r.failing = u.failing) : tk.recorded.Agree r u where
  resolve := h.resolve
  isLoaded := h.isLoaded
  tokenize code id theme := by
    rw [recorded_tokenize, recorded_tokenize, hf]
    split_ifs
    · rfl
    · exact h.tokenize code id theme

theorem recorded_tokenize_agree (h : ∀ s code id theme, tk.Agree (tk.tokenize s code id theme).1 s)
    (s : Recorded σ) (code : Text) (id theme : String) :
    tk.recorded.Agree (tk.recorded.tokenize s code id theme).1 s := by
  rw [recorded_tokenize]
  split_ifs
  · exact recorded_agree (.refl _ _) rfl
  · exact recorded_agree (h _ _ _ _) rfl

end Tokenizer

namespace Backend

variable {σ : Type} {b : Backend σ} {theme : String} {d : Document} {block : Block}
  {bs : List Block}

/-- While some blocks are rendered, the tokenizer knows, has loaded and tokenizes the same
throughout. So does one whose tokens depend on code, language and theme only, as long as the set of
its loaded languages does not change. -/
def Still (b : Backend σ) (theme : String) (d : Document) (bs : List Block) : Prop :=
  ∀ front, front <+: bs → b.tokenizer.Agree b.state (b.renderAll theme d front).2.state

/-- The language is unknown, loaded or on its way. -/
def Sought (b : Backend σ) (language : String) : Prop :=
  ∀ id, b.tokenizer.resolve b.state language = some id →
    b.tokenizer.isLoaded b.state id ∨ id ∈ b.loader.inFlight

theorem still_nil (b : Backend σ) (theme : String) (d : Document) : b.Still theme d [] := by
  intro front hfront
  rw [List.prefix_nil.1 hfront]
  exact .refl _ _

theorem Still.cons (h : b.Still theme d (block :: bs)) :
    b.tokenizer.Agree b.state (b.render theme d block).2.state ∧
      (b.render theme d block).2.Still theme d bs := by
  have hfirst : b.tokenizer.Agree b.state (b.render theme d block).2.state :=
    h [block] (List.cons_prefix_cons.2 ⟨rfl, List.nil_prefix⟩)
  refine ⟨hfirst, fun front hfront => ?_⟩
  rw [render_tokenizer]
  exact hfirst.symm.trans (h (block :: front) (List.cons_prefix_cons.2 ⟨rfl, hfront⟩))

theorem still_cons (h : b.tokenizer.Agree b.state (b.render theme d block).2.state)
    (hbs : (b.render theme d block).2.Still theme d bs) : b.Still theme d (block :: bs) := by
  intro front hfront
  cases front with
  | nil => exact .refl _ _
  | cons c front =>
    obtain ⟨rfl, htail⟩ := List.cons_prefix_cons.1 hfront
    have hrest := hbs front htail
    rw [render_tokenizer] at hrest
    exact h.trans hrest

theorem Still.renderAll (h : b.Still theme d bs) (hbs : ∀ b ∈ bs, b.bodyStart < b.bodyStop) :
    (b.renderAll theme d bs).1 = bs.flatMap (d.paint (b.tokenizer.answer b.state theme)) := by
  induction bs generalizing b with
  | nil => rfl
  | cons block bs ih =>
    obtain ⟨hblock, hbs⟩ := List.forall_mem_cons.1 hbs
    obtain ⟨hagree, hrest⟩ := h.cons
    rw [renderAll_cons, List.flatMap_cons, ih hrest hbs, render_tokenizer, ← hagree.answer,
      b.render_fst theme d hblock]

theorem render_inFlight (hb : block.bodyStart < block.bodyStop) :
    b.loader.inFlight ⊆ (b.render theme d block).2.loader.inFlight := by
  rcases b.render_snd theme d hb with ⟨id, -, h⟩ | ⟨-, ⟨h, -⟩ | ⟨id, -, -, h⟩⟩
  · rw [h]
    exact List.Subset.refl _
  · rw [h]
    exact List.Subset.refl _
  · rw [h, loading, Loader.started_inFlight]
    exact List.subset_append_left _ _

theorem Sought.render {language : String} (h : b.Sought language)
    (hagree : b.tokenizer.Agree b.state (b.render theme d block).2.state)
    (hb : block.bodyStart < block.bodyStop) : (b.render theme d block).2.Sought language := by
  intro id hid
  rw [render_tokenizer, ← hagree.resolve] at hid
  rw [render_tokenizer, ← hagree.isLoaded]
  exact (h id hid).imp_right fun hfl => render_inFlight hb hfl

theorem sought_render (hagree : b.tokenizer.Agree b.state (b.render theme d block).2.state)
    (hb : block.bodyStart < block.bodyStop) :
    (b.render theme d block).2.Sought block.language := by
  intro id hid
  rw [render_tokenizer, ← hagree.resolve] at hid
  rw [render_tokenizer, ← hagree.isLoaded]
  rcases b.render_snd theme d hb with ⟨i, hready, -⟩ | ⟨-, ⟨h, hfl⟩ | ⟨i, hi, -, h⟩⟩
  · obtain ⟨hi, hload⟩ := Option.filter_eq_some_iff.1 hready
    obtain rfl := Option.some.inj (hi.symm.trans hid)
    exact .inl hload
  · rw [h]
    exact .inr (hfl id hid)
  · obtain rfl := Option.some.inj (hi.symm.trans hid)
    rw [h, loading, Loader.started_inFlight]
    exact .inr (List.mem_append_right _ List.mem_cons_self)

/-- Once some blocks have been rendered, no language of theirs is left to be asked for. -/
theorem Still.sought (h : b.Still theme d bs) (hbs : ∀ b ∈ bs, b.bodyStart < b.bodyStop) :
    (∀ language, b.Sought language → (b.renderAll theme d bs).2.Sought language) ∧
      ∀ block ∈ bs, (b.renderAll theme d bs).2.Sought block.language := by
  induction bs generalizing b with
  | nil => exact ⟨fun _ h => h, by simp⟩
  | cons block bs ih =>
    obtain ⟨hblock, hbs⟩ := List.forall_mem_cons.1 hbs
    obtain ⟨hagree, hrest⟩ := h.cons
    obtain ⟨hkeeps, hall⟩ := ih hrest hbs
    rw [renderAll_cons]
    refine ⟨fun language hl => hkeeps language (hl.render hagree hblock),
      List.forall_mem_cons.2 ⟨hkeeps _ (sought_render hagree hblock), hall⟩⟩

theorem Sought.render_snd (h : b.Sought block.language) (theme : String) (d : Document)
    (hb : block.bodyStart < block.bodyStop) :
    (b.render theme d block).2 = b ∨ ∃ id, (b.render theme d block).2 =
      { b with state := (b.tokenizer.tokenize b.state (d.slice block.body) id theme).1 } := by
  rcases b.render_snd theme d hb with ⟨id, -, hr⟩ | ⟨hready, ⟨hr, -⟩ | ⟨id, hid, hfl, -⟩⟩
  · exact .inr ⟨id, hr⟩
  · exact .inl hr
  · rcases h id hid with hload | hin
    · exact absurd hload (Option.filter_eq_none_iff.1 hready id hid)
    · exact absurd hin hfl

theorem Still.renderAll_snd (h : b.Still theme d bs) (hbs : ∀ b ∈ bs, b.bodyStart < b.bodyStop)
    (hsought : ∀ block ∈ bs, b.Sought block.language) :
    (b.renderAll theme d bs).2.loader = b.loader ∧
      ∀ log, b.tokenizer.LogsLoads log → log (b.renderAll theme d bs).2.state = log b.state := by
  induction bs generalizing b with
  | nil => exact ⟨rfl, fun _ _ => rfl⟩
  | cons block bs ih =>
    obtain ⟨hblock, hbs⟩ := List.forall_mem_cons.1 hbs
    obtain ⟨hagree, hrest⟩ := h.cons
    obtain ⟨hfirst, hsought⟩ := List.forall_mem_cons.1 hsought
    obtain ⟨hloader, hlog⟩ := ih hrest hbs fun c hc => (hsought c hc).render hagree hblock
    rw [renderAll_cons]
    dsimp only
    rw [hloader]
    rw [render_tokenizer] at hlog
    rcases hfirst.render_snd theme d hblock with hr | ⟨id, hr⟩
    · exact ⟨by rw [hr], fun log hl => (hlog log hl).trans (by rw [hr])⟩
    · refine ⟨by rw [hr], fun log hl => (hlog log hl).trans ?_⟩
      rw [hr]
      exact hl.tokenize _ _ _ _

theorem still_of_sought
    (htok : ∀ s code id theme, b.tokenizer.Agree (b.tokenizer.tokenize s code id theme).1 s)
    (hbs : ∀ b ∈ bs, b.bodyStart < b.bodyStop)
    (hsought : ∀ block ∈ bs, b.Sought block.language) : b.Still theme d bs := by
  induction bs generalizing b with
  | nil => exact still_nil b theme d
  | cons block bs ih =>
    obtain ⟨hblock, hbs⟩ := List.forall_mem_cons.1 hbs
    obtain ⟨hfirst, hsought⟩ := List.forall_mem_cons.1 hsought
    have hagree : b.tokenizer.Agree b.state (b.render theme d block).2.state := by
      rcases hfirst.render_snd theme d hblock with hr | ⟨id, hr⟩
      · rw [hr]
        exact .refl _ _
      · rw [hr]
        exact (htok _ _ _ _).symm
    refine still_cons hagree (ih ?_ hbs fun c hc => (hsought c hc).render hagree hblock)
    rwa [render_tokenizer]

theorem still_of_agree
    (htok : ∀ s code id theme, b.tokenizer.Agree (b.tokenizer.tokenize s code id theme).1 s)
    (hload : ∀ s id, b.tokenizer.Agree (b.tokenizer.load s id).1 s)
    (hbs : ∀ b ∈ bs, b.bodyStart < b.bodyStop) : b.Still theme d bs := by
  induction bs generalizing b with
  | nil => exact still_nil b theme d
  | cons block bs ih =>
    obtain ⟨hblock, hbs⟩ := List.forall_mem_cons.1 hbs
    have hagree : b.tokenizer.Agree b.state (b.render theme d block).2.state := by
      rcases b.render_snd theme d hblock with ⟨id, -, hr⟩ | ⟨-, ⟨hr, -⟩ | ⟨id, -, -, hr⟩⟩
      · rw [hr]
        exact (htok _ _ _ _).symm
      · rw [hr]
        exact .refl _ _
      · rw [hr]
        exact (hload _ _).symm
    exact still_cons hagree
      (ih (by rwa [render_tokenizer]) (by rwa [render_tokenizer]) hbs)

end Backend

namespace Highlighter

variable {σ : Type} {h k : Highlighter σ} {t : Text}

/-- While everything in sight is rendered, the tokenizer knows, has loaded and tokenizes the same
throughout. -/
def Still (h : Highlighter σ) (d : Document) : Prop :=
  h.backend.Still h.theme d (d.host.locate h.aliases (h.shown d))

def refreshed (h : Highlighter σ) (t : Text) : List Block :=
  h.repainted t (h.shown (.ofText t))

theorem refreshed_eq (h : Highlighter σ) (t : Text) :
    h.refreshed t = (Document.ofText t).host.locate h.aliases (h.shown (.ofText t)) := by
  rw [Document.locate_eq, refreshed, repainted]
  refine List.filter_congr fun b hb => ?_
  have hle : b.span.hi ≤ Text.size t := by
    have := Document.block_bounds hb
    simp only [Block.span, Interval.between_hi]
    omega
  have hshows : ∀ pos, Interval.Touched (h.shown (.ofText t)) pos → h.Shows pos := by
    intro pos hpos vs hvs
    rwa [shown, hvs, Option.getD_some] at hpos
  have hall : ∀ pos, Dirty t (h.shown (.ofText t)) pos → h.Shows pos →
      Interval.Touched (h.shown (.ofText t)) pos := by
    intro pos hdirt hpos
    unfold shown at hdirt ⊢
    cases hv : h.visible with
    | some vs => exact hpos vs hv
    | none =>
      rw [hv, Option.getD_none, Dirty, Interval.map_clamp (by simp [Document.all])] at hdirt
      exact hdirt
  rw [Bool.eq_iff_iff]
  simp only [Interval.any_intersects, touched_visiblePart, Interval.touched_normalize]
  constructor
  · rintro ⟨pos, ⟨hdirt, hpos⟩, hin⟩
    exact ⟨pos, hall pos hdirt hpos, hin⟩
  · rintro ⟨pos, hpos, hin⟩
    exact ⟨pos, ⟨Interval.touched_clamp hpos (hin.2.trans hle), hshows pos hpos⟩, hin⟩

theorem refreshed_blocks (h : Highlighter σ) (t : Text) :
    ∀ b ∈ h.refreshed t, b ∈ (Document.ofText t).blocks h.aliases :=
  fun _ hb => (mem_repainted.1 hb).1

theorem refreshed_bodies (h : Highlighter σ) (t : Text) :
    ∀ b ∈ h.refreshed t, b.bodyStart < b.bodyStop := h.repainted_bodies t _

theorem refreshed_congr (ha : k.aliases = h.aliases) (hv : k.visible = h.visible) (t : Text) :
    k.shown (.ofText t) = h.shown (.ofText t) ∧ k.refreshed t = h.refreshed t := by
  have hshown : k.shown (.ofText t) = h.shown (.ofText t) := by rw [shown, shown, hv]
  refine ⟨hshown, ?_⟩
  rw [refreshed_eq, refreshed_eq, hshown, ha]

theorem still_iff : h.Still (.ofText t) ↔ h.backend.Still h.theme (.ofText t) (h.refreshed t) := by
  rw [refreshed_eq]
  rfl

/-- A tokenizer that no use and no start of a load changes stays the same when it is watched. -/
theorem still_recorded {tk : Tokenizer σ} {h : Highlighter (Recorded σ)}
    (htk : h.backend.tokenizer = tk.recorded)
    (htok : ∀ s code id theme, tk.Agree (tk.tokenize s code id theme).1 s)
    (hload : ∀ s id, tk.Agree (tk.load s id).1 s) (t : Text) : h.Still (.ofText t) := by
  rw [still_iff]
  refine Backend.still_of_agree ?_ ?_ (h.refreshed_bodies t)
  · rw [htk]
    exact Tokenizer.recorded_tokenize_agree htok
  · rw [htk]
    exact fun s id => Tokenizer.recorded_agree (hload s.inner id) rfl

def refreshing (h : Highlighter σ) (t : Text) : List Decoration :=
  h.fresh t (h.shown (.ofText t))

theorem refreshing_eq (h : Highlighter σ) (t : Text) : h.refreshing t =
    (h.backend.renderAll h.theme (Document.ofText t) (h.refreshed t)).1 := rfl

theorem refresh_backend (h : Highlighter σ) (t : Text) : (h.refresh (.ofText t)).backend =
    (h.backend.renderAll h.theme (Document.ofText t) (h.refreshed t)).2 :=
  h.reconcile_backend t _

theorem refresh_rest (h : Highlighter σ) (t : Text) :
    (h.refresh (.ofText t)).visible = h.visible ∧ (h.refresh (.ofText t)).theme = h.theme ∧
      (h.refresh (.ofText t)).aliases = h.aliases := by
  obtain ⟨hvisible, -, htheme, haliases⟩ := h.reconcile_rest t (h.shown (.ofText t))
  exact ⟨hvisible, htheme, haliases⟩

theorem refresh_refreshed (h : Highlighter σ) (t : Text) :
    (h.refresh (.ofText t)).refreshed t = h.refreshed t :=
  (refreshed_congr (h.refresh_rest t).2.2 (h.refresh_rest t).1 t).2

def keeps (h : Highlighter σ) (t : Text) : Nat → Bool :=
  kept t (h.shown (.ofText t)) (h.refreshed t)

theorem refresh_decorations (hs : h.decorations.Sorted) : (h.refresh (.ofText t)).decorations =
    (h.decorations.update (h.keeps t) (h.refreshing t)).1 := by
  by_cases hd : h.shown (.ofText t) = []
  · have hi := hs.update_eq (idle_iff.1 (idle_nil h t))
    rw [← hd] at hi
    rw [refresh, show h.visible.getD [(Document.ofText t).all] = [] from hd, reconcile_nil]
    exact hi.symm
  · obtain ⟨a, ha⟩ := reconcile_cons h t hd
    rw [refresh, show h.visible.getD [(Document.ofText t).all] = h.shown (.ofText t) from rfl, ha]
    rfl

theorem keeps_refreshing {d : Decoration} (hd : d ∈ h.refreshing t) :
    h.keeps t d.start = false := by
  obtain ⟨hwell, hin⟩ := h.fresh_wellFormed t (h.shown (.ofText t))
  obtain ⟨b, hb, hlo, hhi⟩ := hin d hd
  have := (hwell.bounds d hd).1
  have := Document.block_bounds (h.refreshed_blocks t b hb)
  rw [← Bool.not_eq_true, keeps, refreshed, kept_iff (h.repainted_le t _)]
  exact fun hout => hout.2 b hb ⟨by omega, by omega⟩

/-- Another refresh forgets what was painted before. -/
theorem refresh_again (hs : h.decorations.Sorted) (ha : k.aliases = h.aliases)
    (hv : k.visible = h.visible) (hk : k.decorations = (h.refresh (.ofText t)).decorations) :
    (k.refresh (.ofText t)).decorations =
      (h.decorations.update (h.keeps t) (k.refreshing t)).1 := by
  have hsorted : k.decorations.Sorted := hk ▸ sorted_reconcile hs
  obtain ⟨hshown, hblocks⟩ := refreshed_congr ha hv t
  have hkeeps : k.keeps t = h.keeps t := by rw [keeps, keeps, hshown, hblocks]
  rw [refresh_decorations hsorted, hkeeps, hk, refresh_decorations hs]
  exact hs.update_again (fun d => keeps_refreshing) _

theorem Still.agree (hst : h.Still (.ofText t)) :
    h.backend.tokenizer.Agree h.backend.state (h.refresh (.ofText t)).backend.state := by
  rw [refresh_backend]
  exact still_iff.1 hst _ List.prefix_rfl

theorem Still.sought (hst : h.Still (.ofText t)) :
    ∀ b ∈ h.refreshed t, (h.refresh (.ofText t)).backend.Sought b.language := by
  rw [refresh_backend]
  exact ((still_iff.1 hst).sought (h.refreshed_bodies t)).2

theorem Still.refreshing_eq (hst : h.Still (.ofText t))
    (hst' : (h.refresh (.ofText t)).Still (.ofText t)) :
    (h.refresh (.ofText t)).refreshing t = h.refreshing t := by
  have htokenizer : (h.refresh (.ofText t)).backend.tokenizer = h.backend.tokenizer :=
    h.reconcile_tokenizer _ _
  rw [still_iff, refresh_refreshed] at hst'
  rw [(h.refresh (.ofText t)).refreshing_eq, h.refreshing_eq, refresh_refreshed,
    hst'.renderAll (h.refreshed_bodies t), (still_iff.1 hst).renderAll (h.refreshed_bodies t),
    htokenizer, (h.refresh_rest t).2.1, ← hst.agree.answer]

theorem Still.refresh_eq (hs : h.decorations.Sorted) (hst : h.Still (.ofText t))
    (hst' : (h.refresh (.ofText t)).Still (.ofText t)) :
    ((h.refresh (.ofText t)).refresh (.ofText t)).decorations =
      (h.refresh (.ofText t)).decorations := by
  obtain ⟨hvisible, -, haliases⟩ := h.refresh_rest t
  rw [refresh_again hs haliases hvisible rfl, hst.refreshing_eq hst', refresh_decorations hs]

end Highlighter

namespace Session

variable {σ : Type} {s : Session σ}

theorem Arises.run (hs : s.Arises) (changes : List (Change σ)) : (s.run changes).Arises := by
  induction changes generalizing s with
  | nil => exact hs
  | cons c cs ih => exact ih (hs.apply c)

/-- Whatever has happened, a second refresh right after a first one leaves the same decorations in
the same order and the same loads on their way, and asks the tokenizer to load nothing, as long as
the tokenizer knows, has loaded and tokenizes the same meanwhile. -/
theorem refresh_idempotent (hs : s.Arises) :
    let once := s.highlighter.refresh s.document
    let twice := once.refresh s.document
    s.highlighter.Still s.document → once.Still s.document →
      twice.decorations = once.decorations ∧ twice.backend.loader = once.backend.loader ∧
        ∀ log, s.highlighter.backend.tokenizer.LogsLoads log →
          log twice.backend.state = log once.backend.state := by
  obtain ⟨⟨t, hd⟩, hsorted⟩ := hs.sorted
  intro once twice hst hst'
  unfold twice once at *
  rw [hd] at hst hst' ⊢
  refine ⟨hst.refresh_eq hsorted hst', ?_⟩
  have htokenizer : (s.highlighter.refresh (.ofText t)).backend.tokenizer =
      s.highlighter.backend.tokenizer := s.highlighter.reconcile_tokenizer _ _
  rw [Highlighter.still_iff, Highlighter.refresh_refreshed] at hst'
  rw [(s.highlighter.refresh (.ofText t)).refresh_backend, Highlighter.refresh_refreshed,
    ← htokenizer]
  exact hst'.renderAll_snd (s.highlighter.refreshed_bodies t) hst.sought

/-- Out of sight is a block that has been painted in another theme, in sight one whose language has
been loaded unnoticed, and a third block has come into the text without a word. -/
def outdated : Session (Recorded (List String)) :=
  { (start ⟨Tokenizer.scripted.recorded, ⟨["javascript"], [], 0, []⟩, {}⟩ default "A"
      "```js\na\n```\n```rust\nb\n```\n".toList).run
      [.attach [.between 0 26], .scroll [.between 12 26], .setTheme "B",
        .retool ⟨["javascript", "rust"], ["rust"], 1, []⟩] with
    document := .ofText "```js\na\n```\n```rust\nb\n```\n```python\nc\n```\n".toList }

/-- The first refresh paints the second block and asks for the language of the third, the second
one does neither. -/
theorem refresh_idempotent_outdated :
    let once := outdated.highlighter.refresh outdated.document
    let twice := once.refresh outdated.document
    once.decorations = [⟨6, 7, "color: #A;"⟩, ⟨20, 21, "color: #B;"⟩] ∧
      twice.decorations = once.decorations ∧
        once.backend.loader.inFlight = ["rust", "python"] ∧
          twice.backend.loader = once.backend.loader ∧
            once.backend.state.loads = ["rust", "python"] ∧
              twice.backend.state.loads = once.backend.state.loads := by
  have harises : outdated.Arises := .exchange ((Arises.start _ _ _ _).run _) _
  have htk : outdated.highlighter.backend.tokenizer = Tokenizer.scripted.recorded :=
    run_tokenizer _ _
  -- the loads of this tokenizer end only when told to
  have hstill : ∀ h : Highlighter (Recorded (List String)),
      h.backend.tokenizer = Tokenizer.scripted.recorded → h.Still outdated.document := fun h hh =>
    Highlighter.still_recorded hh Tokenizer.scripted_steady.tokenize (fun _ _ => .refl _ _) _
  obtain ⟨hpainted, hloading, hasked⟩ :
      (outdated.highlighter.refresh outdated.document).decorations =
          [⟨6, 7, "color: #A;"⟩, ⟨20, 21, "color: #B;"⟩] ∧
        (outdated.highlighter.refresh outdated.document).backend.loader.inFlight =
            ["rust", "python"] ∧
          (outdated.highlighter.refresh outdated.document).backend.state.loads =
            ["rust", "python"] := by
    simp only [outdated, run, List.foldl_cons, List.foldl_nil, apply, Highlighter.attach,
      Highlighter.scroll, Highlighter.setTheme, Highlighter.refresh, Highlighter.reconcile,
      DecorationSet.update, Host.locate, Document.blocksAt, Interval.normalize,
      mergeSort_eq_sortWithin]
    decide +kernel
  obtain ⟨hsame, hloader, hlog⟩ := refresh_idempotent harises (hstill _ htk)
    (hstill _ ((outdated.highlighter.reconcile_tokenizer _ _).trans htk))
  refine ⟨hpainted, hsame, hloading, hloader, hasked, hlog _ ?_⟩
  rw [htk]
  exact Tokenizer.recorded_logsLoads _

end Session

end FencedCode
