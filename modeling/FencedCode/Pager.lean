import FencedCode.Catalog
import FencedCode.Config
import FencedCode.Highlighter
import FencedCode.Key
import FencedCode.Pager.View
import FencedCode.Text.Width
import FencedCode.Viewport

namespace FencedCode

structure Pager where
  document : Document
  highlighter : Highlighter Catalog.Registry
  /-- What the status line calls the document. -/
  name : String
  size : Size
  /-- Index of the first line shown. -/
  top : Nat := 0
  message : Option String := none
  /-- Something has changed since the screen was painted. -/
  stale : Bool := true
  /-- What was painted last. -/
  screen : Screen := []

inductive Input where
  | key (stroke : Keystroke)
  | resize (size : Size)
  deriving DecidableEq, Repr

/-- Rows that show the document; the last row is the status line, but one row there always is. -/
def Size.bodyRows (s : Size) : Nat := max (s.rows - 1) 1

namespace Pager

def viewport (p : Pager) : Interval := p.document.shown p.top p.size.bodyRows

def baseName (path : String) : String := ((path.splitOn "/").getLast?).getD path

/-- The pager of a file, which has to be text, in a theme that has to be known. -/
def ofFile (f : FileState) (path : String) (config : Config) (size : Size) : Except Error Pager :=
  match f.readText with
  | .error cause => .error (.file cause)
  | .ok text =>
    let backend : Backend Catalog.Registry := { tokenizer := Catalog.tokenizer, state := {} }
    (Highlighter.new backend config.aliases config.theme).map fun highlighter =>
      { document := Document.ofText text, highlighter, name := baseName path, size }

def start (p : Pager) : Pager :=
  { p with highlighter := p.highlighter.attach p.document [p.viewport] }

/-- Shows the document from line `top` on, or from the first line on whose page is full to the end
of the document. -/
def scrollTo (p : Pager) (top : Nat) : Pager :=
  let p := { p with top := min top (p.document.lineCount - p.size.bodyRows) }
  { p with highlighter := p.highlighter.scroll p.document [p.viewport] }

def page (p : Pager) : Nat := max (p.size.bodyRows - 1) 1

def nextTheme (p : Pager) : Pager :=
  let theme := (Theme.after p.highlighter.theme).id
  match p.highlighter.setTheme p.document theme with
  | .ok highlighter => { p with highlighter, message := some ("Theme: " ++ theme) }
  | .error e => { p with message := some e.message }

def obey (p : Pager) : Command → Option Pager
  | .quit => none
  | .lineDown => some (p.scrollTo (p.top + 1))
  | .lineUp => some (p.scrollTo (p.top - 1))
  | .pageDown => some (p.scrollTo (p.top + p.page))
  | .pageUp => some (p.scrollTo (p.top - p.page))
  | .top => some (p.scrollTo 0)
  | .bottom => some (p.scrollTo p.document.lineCount)
  | .nextTheme => some p.nextTheme
  | .nothing => some p

/-- Takes an input; nothing is left after one to quit. -/
def handle (p : Pager) : Input → Option Pager
  | .key stroke =>
    { p with message := none, stale := true }.obey stroke.command
  | .resize size => some ({ p with size, screen := [], stale := true }.scrollTo p.top)

def statusText (p : Pager) : String :=
  let lines := p.document.lineCount
  let loading := p.highlighter.backend.loader.inFlight.length
  " " ++ p.name ++ "  [" ++ p.highlighter.theme ++ "]  lines " ++ toString (p.top + 1) ++ "-" ++
    toString (min (p.top + p.size.bodyRows) lines) ++ "/" ++ toString lines ++
    (if 0 < loading then "  loading " ++ toString loading else "") ++
    match p.message with
    | some m => "  " ++ m
    | none => ""

/-- The row that shows a line. Lines of blocks, fences included, have the colours of the theme. -/
def lineRow (p : Pager) (blocks : List Block) (line : Line) : Row :=
  let base : Row.Base :=
    if blocks.any fun b => b.span.touches line.start then
      { foreground := p.highlighter.colors.bind fun c => Color.ofText? c.foreground.toList
        ground := p.highlighter.colors.bind fun c => Color.ofText? c.background.toList }
    else {}
  Row.ofLine Text.width p.size.cols base line.start line.text
    (p.highlighter.decorations.inRange (.between line.start line.stop))

def body (p : Pager) : List Row :=
  let blocks := p.document.host.locate p.highlighter.aliases [p.viewport]
  (List.range p.size.bodyRows).map fun row =>
    match p.document.line? (p.top + row) with
    | some line => p.lineRow blocks line
    | none => Row.filler

def view (p : Pager) : Screen :=
  (p.body ++ [Row.status Text.width p.size.cols p.statusText.toList]).zipIdx.map fun r => (r.2, r.1)

def draw (p : Pager) : Pager :=
  { p with
    screen := p.view
    stale := false
    highlighter := { p.highlighter with announced := [] } }

def tick (p : Pager) : Pager :=
  let p := { p with highlighter := (p.highlighter.processLoads p.document).1 }
  if p.stale || !p.highlighter.announced.isEmpty then p.draw else p

def finishLoads (p : Pager) : Pager :=
  let backend := p.highlighter.backend.settle (fun _ => true) Catalog.Registry.load
  { p with highlighter := { p.highlighter with backend } }

/-- Ticks until no load is under way, at most `rounds` times. -/
def settleFor : Nat → Pager → Pager
  | 0, p => p
  | rounds + 1, p =>
    let p := p.tick
    if p.highlighter.backend.loader.inFlight.isEmpty then p else settleFor rounds p.finishLoads

/-- Ticks until no load is under way. No language is loaded twice, so each round but the last loads
another one. -/
def settle (p : Pager) : Pager := settleFor (Catalog.languages.length + 1) p

/-- The screens before each input, all loads finished, and the number of inputs left after the one
to quit. -/
def screens (p : Pager) : List Input → List Screen × Nat
  | [] => ([p.settle.screen], 0)
  | i :: rest =>
    let p := p.settle
    match p.handle i with
    | none => ([p.screen], rest.length)
    | some next =>
      let (shown, unread) := screens next rest
      (p.screen :: shown, unread)

end Pager

end FencedCode
