import FencedCode.Columns
import FencedCode.Face
import FencedCode.Run
import FencedCode.Screen

namespace FencedCode.Row

/-- The colours of a line where its style says nothing. -/
structure Base where
  foreground : Option Color := none
  ground : Option Color := none
  deriving DecidableEq

/-- Paints runs from column `col` on. Once the last column is reached, what follows is left out. -/
def ofRuns (width : Char → Nat) (cols : Nat) (base : Base) (col : Nat) : List Run → Row
  | [] => []
  | r :: rs =>
    let face := (r.style.map Face.ofKey).getD {}
    let (content, next) := Columns.fit width cols col r.text
    .text content (.ofColor? (face.foreground <|> base.foreground)) base.ground
        { bold := face.bold, italic := face.italic, underline := face.underline } ::
      if cols ≤ next then [] else ofRuns width cols base next rs

def ofLine (width : Char → Nat) (cols : Nat) (base : Base) (start : Nat) (line : Text)
    (ds : List Decoration) : Row :=
  ofRuns width cols base 0 (Run.ofLine start line ds) ++ [.clear base.ground]

def filler : Row := [.text ['~'] .darkGrey none {}, .clear none]

def status (width : Char → Nat) (cols : Nat) (message : Text) : Row :=
  let (content, col) := Columns.fit width cols 0 message
  [.text (content ++ List.replicate (cols - col) ' ') .standard none { reverse := true }]

end FencedCode.Row
