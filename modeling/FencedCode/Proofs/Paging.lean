import FencedCode.Pager
import FencedCode.Proofs.Attentive
import FencedCode.Proofs.Ranges

namespace FencedCode

theorem Run.ofLine_nil (start : Nat) (ds : List Decoration) : Run.ofLine start [] ds = [] := by
  have hcut : ∀ pos, Run.cut start [] pos ds = [] := by
    induction ds with
    | nil => simp [Run.cut, Run.rest, Text.size]
    | cons d ds ih => simp [Run.cut, Text.size, ih]
  exact hcut 0

namespace Document

variable {t : Text}

theorem line?_le_line? {i j : Nat} {k l : Line} (hij : i ≤ j)
    (hk : (ofText t).line? i = some k) (hl : (ofText t).line? j = some l) :
    k.start ≤ l.start ∧ k.stop ≤ l.stop := by
  obtain ⟨hi, rfl⟩ := List.getElem?_eq_some_iff.1 hk
  obtain ⟨hj, rfl⟩ := List.getElem?_eq_some_iff.1 hl
  rcases hij.eq_or_lt with rfl | hlt
  · exact ⟨le_rfl, le_rfl⟩
  · have h := List.pairwise_iff_getElem.1 (lines_pairwise t) i j hi hj hlt
    have h1 := ((ofText t).lines[i]).mark.start_le_stop
    have h2 := ((ofText t).lines[j]).mark.start_le_stop
    rw [stop_eq_mark_stop (List.getElem_mem hi), stop_eq_mark_stop (List.getElem_mem hj)]
    exact ⟨(h1.trans_lt h).le, (h.trans_le h2).le⟩

theorem shown_spec {top rows row : Nat} (hrow : row < max rows 1) {l : Line}
    (hl : (ofText t).line? (top + row) = some l) :
    ((ofText t).shown top rows).lo ≤ l.start ∧ l.stop ≤ ((ofText t).shown top rows).hi := by
  have hlt : top + row < (ofText t).lineCount := by
    rw [← length_lines]
    exact (List.getElem?_eq_some_iff.1 hl).1
  have hline : ∀ i < (ofText t).lineCount, ∃ k, (ofText t).line? i = some k := by
    intro i hi
    rw [← length_lines] at hi
    exact ⟨_, List.getElem?_eq_getElem hi⟩
  obtain ⟨first, hfirst⟩ := hline (min top ((ofText t).lineCount - 1)) (by omega)
  obtain ⟨final, hfinal⟩ := hline
    (min (min top ((ofText t).lineCount - 1) + max rows 1 - 1) ((ofText t).lineCount - 1))
    (by omega)
  have h1 := (line?_le_line? (by omega) hfirst hl).1
  have h2 := (line?_le_line? (by omega) hl hfinal).2
  unfold shown
  simp only [hfirst, hfinal, Interval.between_lo, Interval.between_hi]
  omega

end Document

namespace Pager

def withBackend (p : Pager) (backend : Backend Catalog.Registry) : Pager :=
  { p with highlighter := { p.highlighter with backend } }

/-- What happens to a pager: an input, a tick of its clock, or one of the two things that a load
does which succeeds, to put its grammar into the registry and to report. -/
inductive Step : Pager → Pager → Prop
  | input {p q : Pager} (i : Input) (h : p.handle i = some q) : Step p q
  | tick (p : Pager) : Step p p.tick
  | publish {p : Pager} {id : String} (hid : id ∈ p.highlighter.backend.loader.tickets)
      (hok : (p.highlighter.backend.state.load id).2 = .loaded) :
      Step p (p.withBackend
        { p.highlighter.backend with state := (p.highlighter.backend.state.load id).1 })
  | report {p : Pager} {id : String} (hid : id ∈ p.highlighter.backend.loader.tickets)
      (hloaded : p.highlighter.backend.state.isLoaded id) :
      Step p (p.withBackend
        { p.highlighter.backend with loader := p.highlighter.backend.loader.complete id .loaded })

/-- An input makes the pager scroll, maybe after a resize, or take another theme, or only leaves it
to be painted anew. A message stays or is taken away before. -/
theorem handle_cases {p q : Pager} {i : Input} (h : p.handle i = some q) :
    ∃ size screen message, (message = p.message ∨ message = none) ∧
      ((∃ top, q = { p with size, screen, message, stale := true }.scrollTo top) ∨
        size = p.size ∧
          (q = { p with size, screen, message, stale := true }.nextTheme ∨
            q = { p with size, screen, message, stale := true })) := by
  cases i with
  | resize size => exact ⟨size, [], p.message, .inl rfl, .inl ⟨p.top, (Option.some.inj h).symm⟩⟩
  | key stroke =>
    refine ⟨p.size, p.screen, none, .inr rfl, ?_⟩
    unfold handle at h
    cases hc : stroke.command with
    | quit => simp [hc, obey] at h
    | nextTheme => exact .inr ⟨rfl, .inl (by simpa [hc, obey] using h.symm)⟩
    | nothing => exact .inr ⟨rfl, .inr (by simpa [hc, obey] using h.symm)⟩
    | _ => exact .inl ⟨_, by simpa [hc, obey] using h.symm⟩

theorem tick_cases (p : Pager) :
    ∃ announced screen stale,
      p.tick =
        { p with
          highlighter := { (p.highlighter.processLoads p.document).1 with announced }
          screen
          stale } := by
  unfold tick
  dsimp only
  split_ifs
  · exact ⟨[], _, false, rfl⟩
  · exact ⟨_, p.screen, p.stale, rfl⟩

/-- The highlighter attends to the part of the text that the pager shows. -/
structure Follows (p : Pager) (t : Text) (aliases : Aliases) : Prop where
  document : p.document = .ofText t
  aliases : p.highlighter.aliases = aliases
  attentive : p.highlighter.Attentive t
  visible : p.highlighter.visible = some (Interval.normalize [p.viewport.clamp (Text.size t)])

variable {p q : Pager} {t : Text} {aliases : Aliases}

theorem follows_scrollTo (hd : p.document = .ofText t) (ha : p.highlighter.aliases = aliases)
    (hat : p.highlighter.Attentive t) (top : Nat) : (p.scrollTo top).Follows t aliases := by
  obtain ⟨document, h, name, size, top', message, stale, screen⟩ := p
  obtain rfl : document = .ofText t := hd
  obtain ⟨hvisible, -, haliases⟩ := h.scroll_rest t
    [(Document.ofText t).shown (min top ((Document.ofText t).lineCount - size.bodyRows))
      size.bodyRows]
  exact ⟨rfl, haliases.trans ha, hat.scroll _, hvisible⟩

theorem nextTheme_eq (htk : p.highlighter.backend.tokenizer = Catalog.tokenizer) :
    p.nextTheme =
      let theme := (Theme.after p.highlighter.theme).id
      { p with
        highlighter := { p.highlighter with theme }.refresh p.document
        message := some ("Theme: " ++ theme) } := by
  unfold Pager.nextTheme
  dsimp only
  rw [Highlighter.setTheme_eq htk p.document (Theme.after_mem _)]

theorem Follows.nextTheme (h : p.Follows t aliases) : p.nextTheme.Follows t aliases := by
  rw [nextTheme_eq h.attentive.tokenizer]
  obtain ⟨document, k, name, size, top, message, stale, screen⟩ := p
  obtain rfl : document = .ofText t := h.document
  obtain ⟨hvisible, -, -, haliases⟩ := Highlighter.reconcile_rest
    { k with theme := (Theme.after k.theme).id } t (k.visible.getD [(Document.ofText t).all])
  exact ⟨rfl, haliases.trans h.aliases, (h.attentive.retheme _).refresh, hvisible.trans h.visible⟩

theorem Follows.handle (h : p.Follows t aliases) {i : Input} (hi : p.handle i = some q) :
    q.Follows t aliases := by
  obtain ⟨size, screen, message, -, ⟨top, rfl⟩ | ⟨rfl, rfl | rfl⟩⟩ := handle_cases hi
  · exact follows_scrollTo (p := { p with size, screen, message, stale := true }) h.document
      h.aliases h.attentive top
  · exact Follows.nextTheme ⟨h.document, h.aliases, h.attentive, h.visible⟩
  · exact ⟨h.document, h.aliases, h.attentive, h.visible⟩

theorem Follows.exists_handle_nextTheme (h : p.Follows t aliases) :
    ∃ q, p.handle (.key ⟨.char 't', false⟩) = some q ∧ q.top = p.top ∧ q.size = p.size ∧
      q.highlighter.theme = (Theme.after p.highlighter.theme).id := by
  refine ⟨_, rfl, ?_⟩
  rw [nextTheme_eq (p := { p with message := none, stale := true }) h.attentive.tokenizer]
  dsimp only
  rw [h.document]
  exact ⟨rfl, rfl, (Highlighter.reconcile_rest _ t _).2.2.1⟩

theorem Follows.tick (h : p.Follows t aliases) : p.tick.Follows t aliases := by
  obtain ⟨announced, screen, stale, htick⟩ := p.tick_cases
  rw [htick]
  obtain ⟨document, k, name, size, top, message, stale', screen'⟩ := p
  obtain rfl : document = .ofText t := h.document
  obtain ⟨hvisible, -, haliases⟩ := k.processLoads_rest t
  exact ⟨rfl, haliases.trans h.aliases, h.attentive.processLoads.announced announced,
    hvisible.trans h.visible⟩

/-- Whatever happens, the highlighter goes on attending to what the pager shows. -/
theorem Follows.step (h : p.Follows t aliases) (hs : Step p q) : q.Follows t aliases := by
  cases hs with
  | input i hi => exact h.handle hi
  | tick => exact h.tick
  | publish hid hok => exact ⟨h.document, h.aliases, h.attentive.publish hid, h.visible⟩
  | report hid hloaded => exact ⟨h.document, h.aliases, h.attentive.report hid, h.visible⟩

theorem Follows.steps (h : p.Follows t aliases) (hs : Relation.ReflTransGen Step p q) :
    q.Follows t aliases := by
  induction hs with
  | refl => exact h
  | tail _ hs ih => exact ih.step hs

theorem follows_start {f : FileState} {path : String} {config : Config} {size : Size}
    (h : ofFile f path config size = .ok p) :
    ∃ t, f.readText = .ok t ∧ p.start.Follows t config.aliases := by
  unfold ofFile at h
  cases hf : f.readText with
  | error cause => simp [hf] at h
  | ok t =>
    rw [hf] at h
    simp only [Highlighter.new] at h
    split at h
    · cases h
    · obtain rfl := Except.ok.inj h
      have hf := Highlighter.fortunate_new config.aliases config.theme t
      obtain ⟨hvisible, -, haliases⟩ := Highlighter.scroll_rest
        { backend := { tokenizer := Catalog.tokenizer, state := {} }, aliases := config.aliases,
          theme := config.theme, visible := none } t
        [(Document.ofText t).shown 0 size.bodyRows]
      exact ⟨t, rfl, rfl, haliases, hf.attach _, hvisible⟩

end Pager

end FencedCode
