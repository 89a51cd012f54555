import FencedCode.Color
import FencedCode.Text

namespace FencedCode

structure Size where
  cols : Nat
  rows : Nat
  deriving DecidableEq, Repr

inductive Ink where
  /-- The terminal's own colour. -/
  | standard
  | darkGrey
  | rgb (color : Color)
  deriving DecidableEq, Repr

namespace Ink

def ofColor? : Option Color → Ink
  | none => standard
  | some c => rgb c

end Ink

structure Attributes where
  bold : Bool := false
  italic : Bool := false
  underline : Bool := false
  reverse : Bool := false
  deriving DecidableEq, Repr

/-- What is painted next on a row. A ground is the colour behind text; without one it is the
terminal's own. -/
inductive Piece where
  | text (content : Text) (ink : Ink) (ground : Option Color) (attributes : Attributes)
  /-- The ground alone, up to the end of the row. -/
  | clear (ground : Option Color)
  deriving DecidableEq

abbrev Row := List Piece

/-- The rows of a terminal that were painted, each with its number. -/
abbrev Screen := List (Nat × Row)

def Piece.content : Piece → Text
  | .text content _ _ _ => content
  | .clear _ => []

def Row.content (r : Row) : Text := r.flatMap Piece.content

end FencedCode
