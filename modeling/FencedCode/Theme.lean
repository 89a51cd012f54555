import FencedCode.Grammar
import FencedCode.Style

namespace FencedCode

structure ThemeColors where
  foreground : String
  background : String
  deriving DecidableEq, Repr

structure Theme where
  id : String
  colors : ThemeColors
  styles : List (Kind × String × FontStyle)

namespace Theme

/-- Colour and font of a kind; a kind the theme does not name looks like plain text. -/
def style (t : Theme) (kind : Kind) : String × FontStyle :=
  (t.styles.lookup kind).getD (t.colors.foreground, .plain)

def mocha : Theme where
  id := "catppuccin-mocha"
  colors := ⟨"#cdd6f4", "#1e1e2e"⟩
  styles := [
    (.comment, "#6c7086", .italic),
    (.string, "#a6e3a1", .plain),
    (.character, "#a6e3a1", .plain),
    (.number, "#fab387", .plain),
    (.keyword, "#cba6f7", .plain),
    (.typeName, "#f9e2af", .plain),
    (.function, "#89b4fa", .plain),
    (.operator, "#89dceb", .plain),
    (.punctuation, "#9399b2", .plain),
    (.preprocessor, "#f5c2e7", .plain),
    (.macroCall, "#cba6f7", .plain),
    (.constant, "#fab387", .plain),
    (.special, "#f5c2e7", .plain),
    (.attr, "#f9e2af", .italic),
    (.lifetime, "#eba0ac", .italic),
    (.moduleName, "#b4befe", .plain),
    (.label, "#74c7ec", .underline),
    (.plain, "#cdd6f4", .plain)]

def dark : Theme where
  id := "github-dark"
  colors := ⟨"#c9d1d9", "#0d1117"⟩
  styles := [
    (.comment, "#8b949e", .italic),
    (.string, "#a5d6ff", .plain),
    (.character, "#a5d6ff", .plain),
    (.number, "#79c0ff", .plain),
    (.keyword, "#ff7b72", .plain),
    (.typeName, "#ffa657", .plain),
    (.function, "#d2a8ff", .plain),
    (.operator, "#ff7b72", .plain),
    (.punctuation, "#c9d1d9", .plain),
    (.preprocessor, "#ff7b72", .plain),
    (.macroCall, "#d2a8ff", .plain),
    (.constant, "#79c0ff", .plain),
    (.special, "#a5d6ff", .bold),
    (.attr, "#79c0ff", .plain),
    (.lifetime, "#ffa657", .italic),
    (.moduleName, "#ffa657", .plain),
    (.label, "#79c0ff", .underline),
    (.plain, "#c9d1d9", .plain)]

def light : Theme where
  id := "github-light"
  colors := ⟨"#24292f", "#ffffff"⟩
  styles := [
    (.comment, "#6e7781", .italic),
    (.string, "#0a3069", .plain),
    (.character, "#0a3069", .plain),
    (.number, "#0550ae", .plain),
    (.keyword, "#cf222e", .plain),
    (.typeName, "#953800", .plain),
    (.function, "#8250df", .plain),
    (.operator, "#cf222e", .plain),
    (.punctuation, "#24292f", .plain),
    (.preprocessor, "#cf222e", .plain),
    (.macroCall, "#8250df", .plain),
    (.constant, "#0550ae", .plain),
    (.special, "#0a3069", .bold),
    (.attr, "#0550ae", .plain),
    (.lifetime, "#953800", .italic),
    (.moduleName, "#953800", .plain),
    (.label, "#0550ae", .underline),
    (.plain, "#24292f", .plain)]

def bundled : List Theme := [mocha, dark, light]

def find? (id : String) : Option Theme := bundled.find? fun t => t.id == id

def after (id : String) : Theme :=
  match bundled.dropWhile fun t => t.id != id with
  | _ :: next :: _ => next
  | _ => mocha

end Theme

end FencedCode
