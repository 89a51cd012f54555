import FencedCode.Aliases
import FencedCode.Files
import FencedCode.Text.Blank
import FencedCode.Toml.Writer

namespace FencedCode

structure Config where
  theme : String := "catppuccin-mocha"
  aliases : Aliases := .empty
  deriving DecidableEq

namespace Config

instance : Inhabited Config := ⟨{}⟩

def aliasesOf (t : Toml.Table) : Option Aliases := do
  let es ← t.entries.mapM fun e =>
    match e.2 with
    | .text s => some (e.1, String.ofList s)
    | _ => none
  return Aliases.ofList es

/-- The tag under which a date counts as an alias when it stands where the table of aliases
belongs. -/
def momentTag : String := "$__toml_private_datetime"

/-- The configuration that a table holds. Keys it does not know do not matter. -/
def ofTable? (t : Toml.Table) : Option Config := do
  let theme ← match t.get? "theme" with
    | none => some (default : Config).theme.toList
    | some (.text s) => some s
    | some _ => none
  let aliases ← match t.get? "language-aliases" with
    | none => some .empty
    | some (.table a) => aliasesOf a
    | some (.braced a) => aliasesOf a
    | some (.moment m) => some (Aliases.ofList [(momentTag, String.ofList m)])
    | some _ => none
  let trimmed := Text.trim theme
  let theme := if trimmed.isEmpty then (default : Config).theme else String.ofList trimmed
  return { theme, aliases }

def parse (s : Text) : Except Error Config :=
  match Toml.document? s >>= ofTable? with
  | some c => .ok c
  | none => .error .invalidConfig

/-- The configuration in a file; a missing file holds the default one. -/
def load (f : FileState) : Except Error Config :=
  match f.readText with
  | .ok s => parse s
  | .error .notFound => .ok {}
  | .error cause => .error (.file cause)

def render (c : Config) : Text :=
  "# fencelight configuration\n\n".toList ++
    Toml.writeEntry "theme".toList c.theme.toList ++
    "\n[language-aliases]\n".toList ++
    c.aliases.entries.flatMap fun e => Toml.writeEntry e.1.toList e.2.toList

def fileName : String := ".fencelight.toml"

def save (c : Config) (fs : Files) (path : String) : Except Error Files :=
  match fs.write path (String.ofList c.render).toUTF8 with
  | .ok fs => .ok fs
  | .error cause => .error (.file cause)

end Config

end FencedCode
