import FencedCode.Text.Blank
import FencedCode.Tokenizer

namespace FencedCode.Tokenizer

def runs (line : Text) : List Text :=
  line.splitBy fun a b => Text.isBlank a == Text.isBlank b

def scriptedNames : List (String × String) :=
  [("text", "plaintext"), ("plaintext", "plaintext"), ("js", "javascript"),
    ("javascript", "javascript"), ("rust", "rust"), ("python", "python")]

/-- Its state is the list of loaded languages. -/
def scripted : Tokenizer (List String) where
  resolve _ name := scriptedNames.lookup name
  isLoaded s id := s.contains id
  load s _ := (s, none)
  tokenize s code _ theme :=
    (s, .ok ((Text.lines code).map fun line => (runs line).map fun t => ⟨t, "#" ++ theme, .plain⟩))
  colors _ theme :=
    if theme = "A" ∨ theme = "B" then some ⟨"#" ++ theme ++ "fg", "#" ++ theme ++ "bg"⟩ else none

def fixed (lines : List TokenLine) : Tokenizer Unit where
  resolve _ name := some name
  isLoaded _ _ := true
  load s _ := (s, none)
  tokenize s _ _ _ := (s, .ok lines)
  colors _ _ := none

end FencedCode.Tokenizer
