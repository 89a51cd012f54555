import FencedCode.Backend

namespace FencedCode

/-- Keeps the decorations of what is visible in step with edits, scrolling, themes and finished
loads. Each of these makes some intervals dirty; only blocks that touch them are rendered again. -/
structure Highlighter (σ : Type) where
  backend : Backend σ
  aliases : Aliases
  theme : String
  decorations : DecorationSet := []
  /-- The visible intervals as last reported and moved along with edits; `none` is everything. -/
  visible : Option (List Interval) := none
  /-- All lines that look like a fence, moved along with edits; `none` before a document came. -/
  fences : Option (List Interval) := none
  /-- The decorations that listeners were told about, the latest first. -/
  announced : List DecorationSet := []

namespace Document

def wholeLines (d : Document) (rs : List Interval) : List Interval :=
  Interval.normalize (rs.map fun r => .between (d.lineAt! r.lo).start (d.lineAt! r.hi).stop)

def fenceLines (d : Document) (r : Interval) : List Interval :=
  let first := (d.lineAt! r.lo).index
  let last := (d.lineAt! r.hi).index
  (((d.lines.drop first).take (last + 1 - first)).filter fun l => Fence.closes l.text).map
    fun l => .between l.start l.stop

def all (d : Document) : Interval := .between 0 d.size

end Document

structure Tracked where
  decorations : DecorationSet
  visible : Option (List Interval)
  fences : Option (List Interval)
  /-- The edited intervals. -/
  dirty : List Interval := []
  /-- Fences may pair differently now. -/
  structural : Bool

/-- An edit moves everything behind it, and drops the decorations and fences it reaches into. -/
def Tracked.edit (t : Tracked) (e : Edit) : Tracked where
  decorations := t.decorations.map e
  visible := t.visible.map (·.map e.mapInterval)
  fences := t.fences.map fun fs => (fs.filter fun f => !e.touches f).map e.mapInterval
  dirty := t.dirty.map e.mapInterval ++ [e.newRange]
  structural := t.structural || t.fences.any (·.any e.touches)

namespace Highlighter

variable {σ : Type}

def new (backend : Backend σ) (aliases : Aliases) (theme : String) :
    Except Error (Highlighter σ) :=
  match backend.tokenizer.colors backend.state theme with
  | none => .error (.unknownTheme theme)
  | some _ => .ok { backend, aliases, theme }

def colors (h : Highlighter σ) : Option ThemeColors :=
  h.backend.tokenizer.colors h.backend.state h.theme

def announce (h : Highlighter σ) : Highlighter σ :=
  { h with announced := h.decorations :: h.announced }

def visiblePart (h : Highlighter σ) (dirty : List Interval) : List Interval :=
  match h.visible with
  | none => dirty
  | some visible => dirty.flatMap fun r => visible.filterMap r.inter?

/-- Renders the visible blocks that touch dirty intervals again. What started in a dirty interval or
in such a block goes, so that dirt out of sight is only cleared away. -/
def reconcile (h : Highlighter σ) (d : Document) (dirty : List Interval) : Highlighter σ :=
  let dirty := Interval.normalize (dirty.map (·.clamp d.size))
  if dirty.isEmpty then h
  else
    let blocks := d.host.locate h.aliases (h.visiblePart dirty)
    let (add, backend) := h.backend.renderAll h.theme d blocks
    let evicted := Interval.normalize (dirty ++ blocks.map (·.span))
    let (decorations, changed) :=
      h.decorations.update (fun start => !evicted.any (·.touches start)) add
    let h := { h with backend, decorations }
    if changed then h.announce else h

def refresh (h : Highlighter σ) (d : Document) : Highlighter σ :=
  h.reconcile d (h.visible.getD [d.all])

/-- Other intervals are visible now; only what was not visible before is looked at. -/
def scroll (h : Highlighter σ) (d : Document) (visible : List Interval) : Highlighter σ :=
  let visible := Interval.normalize (visible.map (·.clamp d.size))
  match h.visible with
  | some previous =>
    { h with visible := some visible }.reconcile d (Interval.subtract visible previous)
  | none =>
    { h with visible := some visible, fences := some (d.fenceLines d.all) }.reconcile d visible

def attach (h : Highlighter σ) (d : Document) (visible : List Interval) : Highlighter σ :=
  { h with visible := none }.scroll d visible

def close (h : Highlighter σ) : Highlighter σ :=
  let forgotten := { h with visible := none, fences := none, decorations := [] }
  if h.decorations.isEmpty then forgotten else forgotten.announce

/-- The fence lines of a document after edits of some lines, and the fence lines found there. -/
def refence (d : Document) (edited : List Interval) (fences : Option (List Interval)) :
    List Interval × List Interval :=
  let found := edited.flatMap d.fenceLines
  match fences with
  | none => (d.fenceLines d.all, found)
  | some fs =>
    (((fs.filter fun f => !edited.any (·.intersects f)) ++ found).mergeSort
      (fun f g => f.lo ≤ g.lo), found)

/-- Follows edits that led to the document, each in the offsets that the one before it left. -/
def edit (h : Highlighter σ) (d : Document) (edits : List Edit) : Highlighter σ :=
  if edits.isEmpty then h
  else
    let t := edits.foldl Tracked.edit
      { decorations := h.decorations, visible := h.visible, fences := h.fences,
        structural := h.fences.isNone }
    let (fences, found) := refence d (d.wholeLines t.dirty) t.fences
    let below :=
      if t.structural || !found.isEmpty then
        match (t.dirty.map (·.lo)).min? with
        | some first => [.between (d.lineAt! first).start d.size]
        | none => []
      else []
    { h with decorations := t.decorations, visible := t.visible, fences := some fences }.reconcile d
      (t.dirty ++ below)

def setTheme (h : Highlighter σ) (d : Document) (theme : String) : Except Error (Highlighter σ) :=
  match h.backend.tokenizer.colors h.backend.state theme with
  | none => .error (.unknownTheme theme)
  | some _ => .ok ({ h with theme }.refresh d)

/-- Takes other aliases. What is rendered stays until it is looked at again. -/
def setAliases (h : Highlighter σ) (aliases : Aliases) : Highlighter σ := { h with aliases }

/-- Takes the aliases and theme of a configuration; the aliases are taken even if the theme turns
out to be unknown. -/
def configure (h : Highlighter σ) (d : Document) (aliases : Aliases) (theme : String) :
    Highlighter σ × Option Error :=
  let h := h.setAliases aliases
  if theme = h.theme then (h, none)
  else match h.setTheme d theme with
    | .ok h => (h, none)
    | .error e => (h, some e)

/-- Takes note of finished loads; if any succeeded, everything visible is rendered again. -/
def processLoads (h : Highlighter σ) (d : Document) : Highlighter σ × Bool :=
  let (events, loader) := h.backend.loader.drain
  let h := { h with backend := { h.backend with loader } }
  if events.any (·.succeeded) then (h.refresh d, true) else (h, false)

end Highlighter

end FencedCode
