import FencedCode.Proofs.Paging
import FencedCode.Proofs.Session

namespace FencedCode

theorem Backend.settle_tokenizer {σ : Type} (b : Backend σ) (chosen : String → Bool)
    (finish : σ → String → σ × LoadResult) : (b.settle chosen finish).tokenizer = b.tokenizer := by
  unfold settle
  induction b.loader.tickets.filter chosen generalizing b with
  | nil => rfl
  | cons id ids ih => exact ih _

theorem Theme.id_mem_of_isSome {id : String} (h : (find? id).isSome) :
    id ∈ bundled.map Theme.id := by
  obtain ⟨theme, htheme⟩ := Option.isSome_iff_exists.1 h
  have hid : theme.id = id := by simpa using List.find?_some htheme
  exact hid ▸ List.mem_map_of_mem (List.mem_of_find?_eq_some htheme)

namespace Pager

/-- What happens to a pager: an input, a tick of its clock, or anything that loads do to the
grammars and to the reports waiting for the next tick. -/
inductive Turn : Pager → Pager → Prop
  | input {p q : Pager} (i : Input) (h : p.handle i = some q) : Turn p q
  | tick (p : Pager) : Turn p p.tick
  | load (p : Pager) (state : Catalog.Registry) (loader : Loader) :
      Turn p (p.withBackend { p.highlighter.backend with state, loader })

theorem Step.turn {p q : Pager} (h : Step p q) : Turn p q := by
  cases h with
  | input i h => exact .input i h
  | tick => exact .tick p
  | publish hid hok => exact .load p _ p.highlighter.backend.loader
  | report hid hloaded => exact .load p p.highlighter.backend.state _

/-- A pager of a text with a name, in a bundled theme, with nothing to say but the name of one. -/
structure Shows (p : Pager) (t : Text) (name : String) : Prop where
  document : p.document = .ofText t
  name : p.name = name
  tokenizer : p.highlighter.backend.tokenizer = Catalog.tokenizer
  theme : p.highlighter.theme ∈ Theme.bundled.map Theme.id
  message : ∀ m ∈ p.message, ∃ theme ∈ Theme.bundled.map Theme.id, m = "Theme: " ++ theme

structure Full (p : Pager) (t : Text) (name : String) : Prop extends p.Shows t name where
  top_le : p.top ≤ (Document.ofText t).lineCount - p.size.bodyRows

variable {p₀ p q : Pager} {t : Text} {name : String}

theorem Shows.full_scrollTo (h : p.Shows t name) (top : Nat) : (p.scrollTo top).Full t name := by
  obtain ⟨document, k, name', size, top', message, stale, screen⟩ := p
  obtain rfl : document = .ofText t := h.document
  obtain ⟨-, htheme, -⟩ := k.scroll_rest t
    [(Document.ofText t).shown (min top ((Document.ofText t).lineCount - size.bodyRows))
      size.bodyRows]
  exact ⟨⟨rfl, h.name, (k.scroll_tokenizer _ _).trans h.tokenizer, htheme.symm ▸ h.theme,
    h.message⟩, Nat.min_le_right _ _⟩

theorem Full.nextTheme (h : p.Full t name) : p.nextTheme.Full t name := by
  rw [nextTheme_eq h.tokenizer]
  obtain ⟨document, k, name', size, top, message, stale, screen⟩ := p
  obtain rfl : document = .ofText t := h.document
  have hmem : (Theme.after k.theme).id ∈ Theme.bundled.map Theme.id :=
    List.mem_map_of_mem (Theme.after_mem k.theme)
  obtain ⟨-, -, htheme, -⟩ := Highlighter.reconcile_rest
    { k with theme := (Theme.after k.theme).id } t (k.visible.getD [(Document.ofText t).all])
  exact ⟨⟨rfl, h.name, (Highlighter.reconcile_tokenizer _ _ _).trans h.tokenizer,
    htheme.symm ▸ hmem, fun m hm => ⟨_, hmem, (Option.some.inj hm).symm⟩⟩, h.top_le⟩

theorem Full.handle (h : p.Full t name) {i : Input} (hi : p.handle i = some q) :
    q.Full t name := by
  obtain ⟨size, screen, message, hmessage, hq⟩ := handle_cases hi
  have hm : ∀ m ∈ message, ∃ theme ∈ Theme.bundled.map Theme.id, m = "Theme: " ++ theme := by
    rcases hmessage with rfl | rfl
    · exact h.message
    · simp
  have hshows : Shows { p with size, screen, message, stale := true } t name :=
    ⟨h.document, h.name, h.tokenizer, h.theme, hm⟩
  rcases hq with ⟨top, rfl⟩ | ⟨rfl, rfl | rfl⟩
  · exact hshows.full_scrollTo top
  · exact Full.nextTheme ⟨hshows, h.top_le⟩
  · exact ⟨hshows, h.top_le⟩

theorem Full.tick (h : p.Full t name) : p.tick.Full t name := by
  obtain ⟨announced, screen, stale, htick⟩ := p.tick_cases
  rw [htick]
  obtain ⟨document, k, name', size, top, message, stale', screen'⟩ := p
  obtain rfl : document = .ofText t := h.document
  obtain ⟨-, htheme, -⟩ := k.processLoads_rest t
  exact ⟨⟨rfl, h.name, (k.processLoads_tokenizer _).trans h.tokenizer, htheme.symm ▸ h.theme,
    h.message⟩, h.top_le⟩

theorem Full.turn (h : p.Full t name) (ht : Turn p q) : q.Full t name := by
  cases ht with
  | input i hi => exact h.handle hi
  | tick => exact h.tick
  | load state loader =>
    exact ⟨⟨h.document, h.name, h.tokenizer, h.theme, h.message⟩, h.top_le⟩

theorem Full.turns (h : p.Full t name) (ht : Relation.ReflTransGen Turn p q) : q.Full t name := by
  induction ht with
  | refl => exact h
  | tail _ ht ih => exact ih.turn ht

theorem full_start {f : FileState} {path : String} {config : Config} {size : Size}
    (h : ofFile f path config size = .ok p) :
    ∃ t, f.readText = .ok t ∧ p.start.Full t (baseName path) := by
  unfold ofFile at h
  cases hf : f.readText with
  | error cause => simp [hf] at h
  | ok t =>
    rw [hf] at h
    simp only [Highlighter.new] at h
    split at h
    · cases h
    · rename_i colors hcolors
      obtain rfl := Except.ok.inj h
      have hfind : (Theme.find? config.theme).map (·.colors) = some colors := hcolors
      have htheme : config.theme ∈ Theme.bundled.map Theme.id :=
        Theme.id_mem_of_isSome (by rw [← Option.isSome_map, hfind]; rfl)
      obtain ⟨-, htheme', -⟩ := Highlighter.scroll_rest
        { backend := { tokenizer := Catalog.tokenizer, state := {} }, aliases := config.aliases,
          theme := config.theme, visible := none } t
        [(Document.ofText t).shown 0 size.bodyRows]
      exact ⟨t, rfl, ⟨rfl, rfl, Highlighter.scroll_tokenizer _ _ _, htheme'.symm ▸ htheme, by
        simp [start]⟩, Nat.zero_le _⟩

theorem tick_screen (p : Pager) : p.tick.stale = false ∧
    (p.tick.screen = p.tick.view ∨ p.stale = false ∧ p.tick.screen = p.screen) := by
  unfold tick
  dsimp only
  split_ifs with h
  · exact ⟨rfl, .inl rfl⟩
  · obtain ⟨hstale, -⟩ := Bool.or_eq_false_iff.1 (Bool.eq_false_iff.2 h)
    exact ⟨hstale, .inr ⟨hstale, rfl⟩⟩

theorem stale_handle {i : Input} (h : p.handle i = some q) : q.stale = true := by
  obtain ⟨size, screen, message, -, ⟨top, rfl⟩ | ⟨-, rfl | rfl⟩⟩ := handle_cases h
  · rfl
  · unfold nextTheme
    dsimp only
    split
    · rfl
    · rfl
  · rfl

/-- A screen as one of the pagers paints it that come about from `p` on. -/
def Paints (p : Pager) (s : Screen) : Prop := ∃ q, Relation.ReflTransGen Turn p q ∧ s = q.view

/-- What is on the screen has been painted, or it is to be painted anew. -/
theorem stale_or_paints (hstale : p₀.stale = true) (h : Relation.ReflTransGen Turn p₀ p) :
    p.stale = true ∨ p₀.Paints p.screen := by
  induction h with
  | refl => exact .inl hstale
  | @tail q _ hq ht ih =>
    cases ht with
    | input i hi => exact .inl (stale_handle hi)
    | tick =>
      right
      obtain ⟨-, hview | ⟨hold, hscreen⟩⟩ := q.tick_screen
      · exact ⟨q.tick, hq.tail (.tick q), hview⟩
      · rw [hscreen]
        exact ih.resolve_left (by simp [hold])
    | load state loader => exact ih

theorem finishLoads_turn (p : Pager) : Turn p p.finishLoads := by
  have htk := p.highlighter.backend.settle_tokenizer (fun _ => true) Catalog.Registry.load
  unfold finishLoads
  dsimp only
  generalize p.highlighter.backend.settle (fun _ => true) Catalog.Registry.load = b at htk
  obtain ⟨tokenizer, state, loader⟩ := b
  obtain rfl := htk
  exact .load p state loader

theorem settleFor_turns (rounds : Nat) (p : Pager) :
    Relation.ReflTransGen Turn p (p.settleFor rounds) := by
  induction rounds generalizing p with
  | zero => exact .refl
  | succ rounds ih =>
    unfold settleFor
    dsimp only
    split_ifs
    · exact .single (.tick p)
    · exact (Relation.ReflTransGen.single (.tick p)).trans
        (.head p.tick.finishLoads_turn (ih _))

theorem stale_settle (p : Pager) : p.settle.stale = false := by
  have hrounds : ∀ rounds (p : Pager), (p.settleFor (rounds + 1)).stale = false := by
    intro rounds
    induction rounds with
    | zero =>
      intro p
      unfold settleFor
      dsimp only
      split_ifs
      · exact p.tick_screen.1
      · exact p.tick_screen.1
    | succ rounds ih =>
      intro p
      unfold settleFor
      dsimp only
      split_ifs
      · exact p.tick_screen.1
      · exact ih _
  exact hrounds _ p

theorem mem_screens {inputs : List Input} {s : Screen} (hs : s ∈ (p.screens inputs).1)
    (hstale : p₀.stale = true) (hp : Relation.ReflTransGen Turn p₀ p) : p₀.Paints s := by
  have hsettle : ∀ q, Relation.ReflTransGen Turn p₀ q →
      Relation.ReflTransGen Turn p₀ q.settle ∧ p₀.Paints q.settle.screen := by
    intro q hq
    have hturns := hq.trans (settleFor_turns (Catalog.languages.length + 1) q)
    exact ⟨hturns, (stale_or_paints hstale hturns).resolve_left
      (Bool.eq_false_iff.1 q.stale_settle)⟩
  induction inputs generalizing p with
  | nil =>
    obtain rfl := List.mem_singleton.1 hs
    exact (hsettle p hp).2
  | cons i rest ih =>
    unfold screens at hs
    dsimp only at hs
    cases hnext : p.settle.handle i with
    | none =>
      rw [hnext] at hs
      obtain rfl := List.mem_singleton.1 hs
      exact (hsettle p hp).2
    | some next =>
      rw [hnext] at hs
      rcases List.mem_cons.1 hs with rfl | hs
      · exact (hsettle p hp).2
      · exact ih hs ((hsettle p hp).1.tail (.input i hnext))

end Pager

end FencedCode
