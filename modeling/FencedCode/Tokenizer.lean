import FencedCode.Error
import FencedCode.Style
import FencedCode.Theme

namespace FencedCode

structure Token where
  text : Text
  color : String
  font : FontStyle
  deriving DecidableEq

abbrev TokenLine := List Token

inductive LoadResult where
  | loaded
  | failed (cause : Error)
  deriving DecidableEq

/-- A tokenizer over states `σ`, which may change with every load and every use. -/
structure Tokenizer (σ : Type) where
  /-- The language that an id or alias names. -/
  resolve : σ → String → Option String
  /-- Whether a language can be tokenized. -/
  isLoaded : σ → String → Bool
  /-- Starts to load a language. The load is over at once if it comes with a result. -/
  load : σ → String → σ × Option LoadResult
  /-- Tokenizes code of a loaded language in the colours of a theme, line by line. -/
  tokenize : σ → Text → String → String → σ × Except Error (List TokenLine)
  /-- The base colours of a theme, if there is one of that name. -/
  colors : σ → String → Option ThemeColors

end FencedCode
