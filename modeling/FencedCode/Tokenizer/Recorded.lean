import FencedCode.Tokenizer

namespace FencedCode

structure Recorded (σ : Type) where
  inner : σ
  /-- The languages it was asked to load, oldest first. -/
  loads : List String := []
  /-- How often it was asked to tokenize. -/
  uses : Nat := 0
  /-- The languages that fail to tokenize. -/
  failing : List String := []

def Tokenizer.recorded {σ : Type} (tk : Tokenizer σ) : Tokenizer (Recorded σ) where
  resolve s name := tk.resolve s.inner name
  isLoaded s id := tk.isLoaded s.inner id
  load s id :=
    let (inner, result) := tk.load s.inner id
    ({ s with inner, loads := s.loads ++ [id] }, result)
  tokenize s code id theme :=
    let s := { s with uses := s.uses + 1 }
    if s.failing.contains id then (s, .error (.tokenizeFailed id "grammar exploded"))
    else
      let (inner, lines) := tk.tokenize s.inner code id theme
      ({ s with inner }, lines)
  colors s theme := tk.colors s.inner theme

end FencedCode
