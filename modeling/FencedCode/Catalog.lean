import FencedCode.Grammar.C
import FencedCode.Grammar.JavaScript
import FencedCode.Grammar.Markdown
import FencedCode.Grammar.Python
import FencedCode.Grammar.Rust
import FencedCode.Grammar.Toml
import FencedCode.Tokenizer

namespace FencedCode.Catalog

def sources : List GrammarSource := [.rust, .c, .python, .toml, .markdown, .javascript]

def plaintext : String := "plaintext"

def languages : List (String × List String) :=
  (plaintext, ["text", "txt", "plain"]) :: sources.map fun s => (s.id, s.aliases)

/-- Lower case as far as it can make a name of the catalog: of the characters outside ASCII only the
Kelvin sign has a lower-case form inside. -/
def lower (name : String) : String :=
  String.ofList (name.toList.map fun c => if c = '\u212a' then 'k' else c.toLower)

/-- The language that an id or alias names, in any case. -/
def resolve (name : String) : Option String :=
  (languages.find? fun l => l.1 == lower name || l.2.contains (lower name)).map (·.1)

def grammars : List (String × Except Error Grammar) := sources.map fun s => (s.id, s.compile)

def compile (id : String) : Except Error Grammar :=
  (grammars.lookup id).getD (.error (.loadFailed id "no bundled grammar"))

structure Registry where
  grammars : List (String × Grammar) := []

namespace Registry

def isLoaded (r : Registry) (id : String) : Bool :=
  id == plaintext || (r.grammars.lookup id).isSome

def insert (r : Registry) (id : String) (g : Grammar) : Registry := ⟨(id, g) :: r.grammars⟩

def load (r : Registry) (id : String) : Registry × LoadResult :=
  match compile id with
  | .ok g => (r.insert id g, .loaded)
  | .error e => (r, .failed e)

def preload (r : Registry) (language : String) : Except Error Registry :=
  match resolve language with
  | none => .error (.loadFailed language "not in the language catalog")
  | some id => if r.isLoaded id then .ok r else (compile id).map (r.insert id)

def plainLines (theme : Theme) (code : Text) : List TokenLine :=
  (Text.lines code).map fun line =>
    if line.isEmpty then [] else [⟨line, theme.colors.foreground, .plain⟩]

def token (theme : Theme) (line : Text) (s : Span) : Token :=
  let (color, font) := theme.style s.kind
  ⟨Text.slice line s.start s.stop, color, font⟩

def tokenize (r : Registry) (code : Text) (language theme : String) :
    Except Error (List TokenLine) :=
  match Theme.find? theme with
  | none => .error (.unknownTheme theme)
  | some theme =>
    if language = plaintext then .ok (plainLines theme code)
    else match r.grammars.lookup language with
      | none => .error (.tokenizeFailed language "grammar not loaded")
      | some g =>
        let lines := Text.lines code
        match g.highlightLines {} lines with
        | none => .error (.tokenizeFailed language "highlighting does not end")
        | some results =>
          .ok (List.zipWith (fun line r => r.1.map (token theme line)) lines results)

end Registry

/-- The bundled tokenizer. Its state changes when the load of a grammar is over. -/
def tokenizer : Tokenizer Registry where
  resolve _ name := resolve name
  isLoaded r id := r.isLoaded id
  load r _ := (r, none)
  tokenize r code language theme := (r, r.tokenize code language theme)
  colors _ theme := (Theme.find? theme).map (·.colors)

end FencedCode.Catalog
