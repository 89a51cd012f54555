import FencedCode.Proofs.Settled
import Mathlib.Order.MinMax

namespace FencedCode.Pager

variable {p q : Pager} {t : Text} {aliases : Aliases}

theorem Follows.colors (h : p.Follows t aliases) :
    p.highlighter.colors = (Theme.find? p.highlighter.theme).map (·.colors) := by
  unfold Highlighter.colors
  rw [h.attentive.tokenizer]
  rfl

/-- Each byte of a line on the screen is in sight. -/
theorem Follows.inSight (h : p.Follows t aliases) {row : Nat} (hrow : row < p.size.bodyRows)
    {l : Line} (hl : (Document.ofText t).line? (p.top + row) = some l) {pos : Nat}
    (hlo : l.start ≤ pos) (hhi : pos < l.stop) : p.highlighter.InSight pos := by
  have hmem := List.mem_of_getElem? hl
  have hsize := Text.stop_le_of_mem_marks (Document.mark_mem_marks hmem)
  rw [← Document.stop_eq_mark_stop hmem] at hsize
  have hrow' : row < max p.size.bodyRows 1 := lt_max_of_lt_left hrow
  obtain ⟨h1, h2⟩ := Document.shown_spec hrow' hl
  have hview : p.viewport = (Document.ofText t).shown p.top p.size.bodyRows := by
    rw [viewport, h.document]
  refine ⟨_, h.visible, Interval.covered_normalize.2 ⟨_, List.mem_singleton_self _, ?_⟩⟩
  rw [hview]
  simp only [Interval.clamp, Interval.between_lo, Interval.between_hi]
  omega

/-- In the same theme, and with the same in sight, a line on the screen is painted alike once
nothing is on its way. -/
theorem Follows.lineRow_eq (hp : p.Follows t aliases) (hq : q.Follows t aliases)
    (hsize : p.size = q.size) (htheme : p.highlighter.theme = q.highlighter.theme)
    (hvisible : p.highlighter.visible = q.highlighter.visible)
    (hpfl : p.highlighter.backend.loader.inFlight = [])
    (hqfl : q.highlighter.backend.loader.inFlight = []) {row : Nat} (hrow : row < p.size.bodyRows)
    {l : Line} (hl : (Document.ofText t).line? (p.top + row) = some l) (blocks : List Block) :
    p.lineRow blocks l = q.lineRow blocks l := by
  have hcolors : p.highlighter.colors = q.highlighter.colors := by
    rw [hp.colors, hq.colors, htheme]
  unfold lineRow
  dsimp only
  rw [hcolors, hsize]
  unfold Row.ofLine
  by_cases hempty : l.start < l.stop
  · -- the decorations over the bytes of the line are the same
    have hdecorations : p.highlighter.decorations.inRange (.between l.start l.stop) =
        q.highlighter.decorations.inRange (.between l.start l.stop) := by
      refine hp.attentive.sound.wellFormed.inRange_congr hq.attentive.sound.wellFormed
        (by simpa using hempty.ne') fun pos hlo hhi => ?_
      have hlo : l.start ≤ pos := by simpa [hempty.le] using hlo
      have hhi : pos < l.stop := by simpa [hempty.le] using hhi
      exact hp.attentive.covering_eq hq.attentive (hp.aliases.trans hq.aliases.symm) htheme hvisible
        hpfl hqfl (hp.inSight hrow hl hlo hhi)
    rw [hdecorations]
  · have htext : l.text = [] := by
      have hstop : l.stop = l.start + Text.size l.text :=
        Document.stop_eq_mark_stop (List.mem_of_getElem? hl)
      exact Text.eq_nil_of_size_eq_zero (by omega)
    rw [htext, Run.ofLine_nil, Run.ofLine_nil]

/-- Pagers that follow one text, with the same lines on screens of the same size and in the same
theme, paint them alike once nothing is on its way. -/
theorem Follows.body_eq (hp : p.Follows t aliases) (hq : q.Follows t aliases)
    (htop : p.top = q.top) (hsize : p.size = q.size)
    (htheme : p.highlighter.theme = q.highlighter.theme)
    (hpfl : p.highlighter.backend.loader.inFlight = [])
    (hqfl : q.highlighter.backend.loader.inFlight = []) : p.body = q.body := by
  have hview : p.viewport = q.viewport := by
    rw [viewport, viewport, hp.document, hq.document, htop, hsize]
  have hvisible : p.highlighter.visible = q.highlighter.visible := by
    rw [hp.visible, hq.visible, hview]
  unfold body
  rw [hp.document, hq.document, hp.aliases, hq.aliases, hview, ← hsize, ← htop]
  refine List.map_congr_left fun row hrow => ?_
  cases hl : (Document.ofText t).line? (p.top + row) with
  | none => rfl
  | some l =>
    exact hp.lineRow_eq hq hsize htheme hvisible hpfl hqfl (List.mem_range.1 hrow) hl _

theorem take_view (p : Pager) :
    p.view.take p.size.bodyRows = p.body.zipIdx.map fun r => (r.2, r.1) := by
  have hlength : p.body.length = p.size.bodyRows := by simp [body]
  rw [view, List.zipIdx_append, List.map_append]
  exact List.take_left' (by simp [hlength])

/-- Two pagers of one file, configured alike, paint the same rows of the document if they show it
from the same line on, on terminals of the same size and in the same theme, and no load is on its
way any more. Neither the keys that were pressed nor the sizes that the terminal had nor the moments
at which loads came to an end make a difference, as long as loads succeed. -/
theorem screen_eq_of_steps {f : FileState} {config : Config} {path path' : String}
    {size size' : Size} {p₀ q₀ p q : Pager} (hp₀ : ofFile f path config size = .ok p₀)
    (hq₀ : ofFile f path' config size' = .ok q₀) (hp : Relation.ReflTransGen Step p₀.start p)
    (hq : Relation.ReflTransGen Step q₀.start q) (htop : p.top = q.top) (hsize : p.size = q.size)
    (htheme : p.highlighter.theme = q.highlighter.theme)
    (hpfl : p.highlighter.backend.loader.inFlight = [])
    (hqfl : q.highlighter.backend.loader.inFlight = []) :
    p.draw.screen.take p.size.bodyRows = q.draw.screen.take q.size.bodyRows := by
  obtain ⟨t, ht, hpt⟩ := follows_start hp₀
  obtain ⟨u, hu, hqt⟩ := follows_start hq₀
  obtain rfl : t = u := Except.ok.inj (ht.symm.trans hu)
  have hbody := (hpt.steps hp).body_eq (hqt.steps hq) htop hsize htheme hpfl hqfl
  change p.view.take p.size.bodyRows = q.view.take q.size.bodyRows
  rw [take_view, take_view, hbody]

def notesText : String := "```md\n# a\n```\nb\n"

def notes : Pager where
  document := .ofText notesText.toList
  highlighter := {
    backend := { tokenizer := Catalog.tokenizer, state := {} }
    aliases := .empty
    theme := (default : Config).theme }
  name := baseName "notes.md"
  size := ⟨20, 3⟩

theorem readText_notes :
    (FileState.file "notes.md" notesText.toUTF8).readText = .ok notesText.toList :=
  FileState.readText_file "notes.md" notesText

theorem ofFile_notes :
    ofFile (.file "notes.md" notesText.toUTF8) "notes.md" {} ⟨20, 3⟩ = .ok notes := by
  rw [ofFile, readText_notes]
  rfl

def notesLoaded : Pager :=
  let b := notes.start.highlighter.backend
  let b := { b with state := (b.state.load "markdown").1 }
  ((notes.start.withBackend b).withBackend
    { b with loader := b.loader.complete "markdown" .loaded }).tick

theorem notes_loader :
    notes.start.highlighter.backend.loader = ⟨["markdown"], ["markdown"], []⟩ := by
  unfold start Highlighter.attach Highlighter.scroll
  dsimp only [notes]
  rw [Highlighter.reconcile_backend]
  decide +kernel

theorem steps_notesLoaded : Relation.ReflTransGen Step notes.start notesLoaded ∧
    notesLoaded.highlighter.Settled notesText.toList := by
  obtain ⟨g, hg⟩ := Catalog.compile_markdown
  have hticket : "markdown" ∈ notes.start.highlighter.backend.loader.tickets := by
    simp [notes_loader]
  have hload : ∀ r : Catalog.Registry, r.load "markdown" = (r.insert "markdown" g, .loaded) := by
    intro r
    rw [Catalog.Registry.load, hg]
  have hloaded : ∀ r : Catalog.Registry, (r.load "markdown").1.isLoaded "markdown" := fun r => by
    rw [hload]
    exact r.isLoaded_insert_self _ g
  have hsteps := (Relation.ReflTransGen.single
    (Step.publish hticket (by rw [hload]))).tail (Step.report hticket (hloaded _))
  refine ⟨hsteps.tail (.tick _), ?_⟩
  obtain ⟨t, ht, hstart⟩ := follows_start ofFile_notes
  obtain rfl := Except.ok.inj (readText_notes.symm.trans ht)
  have hfollows := hstart.steps hsteps
  refine hfollows.settled_tick (fun b hb id hid => ?_) ?_
  · have hblocks : (Document.ofText notesText.toList).blocks .empty =
        [⟨0, 6, 10, 13, "md", "md"⟩] := by decide +kernel
    rw [hfollows.aliases, hblocks] at hb
    rw [List.mem_singleton.1 hb] at hid
    have hmd : Catalog.resolve "md" = some "markdown" := by decide
    obtain rfl := Option.some.inj (hmd.symm.trans hid)
    exact hloaded _
  · change (Loader.complete notes.start.highlighter.backend.loader "markdown" .loaded).tickets = []
    rw [notes_loader]
    rfl

theorem screen_eq_of_steps_themes : ∃ q,
    (List.replicate 3 (.key ⟨.char 't', false⟩)).foldlM handle notesLoaded = some q ∧
      q.draw.screen.take 2 = notesLoaded.draw.screen.take 2 := by
  obtain ⟨hsteps, hsettled⟩ := steps_notesLoaded
  obtain ⟨t, ht, hstart⟩ := follows_start ofFile_notes
  obtain rfl := Except.ok.inj (readText_notes.symm.trans ht)
  have h₀ := hstart.steps hsteps
  obtain ⟨q₁, hq₁, htop₁, hsize₁, htheme₁⟩ := h₀.exists_handle_nextTheme
  obtain ⟨q₂, hq₂, htop₂, hsize₂, htheme₂⟩ := (h₀.handle hq₁).exists_handle_nextTheme
  obtain ⟨q₃, hq₃, htop₃, hsize₃, htheme₃⟩ :=
    ((h₀.handle hq₁).handle hq₂).exists_handle_nextTheme
  have hthemes : Relation.ReflTransGen Step notesLoaded q₃ :=
    ((Relation.ReflTransGen.single (.input _ hq₁)).tail (.input _ hq₂)).tail (.input _ hq₃)
  have htheme : notesLoaded.highlighter.theme = "catppuccin-mocha" := by
    obtain ⟨announced, screen, stale, htick⟩ :=
      tick_cases ((notes.start.withBackend _).withBackend _)
    rw [notesLoaded, htick]
    exact (Highlighter.processLoads_rest _ _).2.1.trans (Highlighter.scroll_rest _ _ _).2.1
  have hsize : notesLoaded.size = ⟨20, 3⟩ := rfl
  refine ⟨q₃, by simp [List.foldlM, List.replicate, hq₁, hq₂, hq₃], ?_⟩
  have h := screen_eq_of_steps ofFile_notes ofFile_notes (hsteps.trans hthemes) hsteps
    (htop₃.trans (htop₂.trans htop₁)) (hsize₃.trans (hsize₂.trans hsize₁)) (by
      rw [htheme₃, htheme₂, htheme₁, htheme]
      decide) (h₀.settled_steps hsettled hthemes).inFlight hsettled.inFlight
  rwa [hsize₃, hsize₂, hsize₁, hsize] at h

end FencedCode.Pager
