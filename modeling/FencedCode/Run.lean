import FencedCode.Decoration
import FencedCode.Text

namespace FencedCode

structure Run where
  text : Text
  style : Option String
  deriving DecidableEq

namespace Run

def rest (line : Text) (pos : Nat) : List Run :=
  if pos < Text.size line then [⟨Text.drop line pos, none⟩] else []

/-- Cuts a line that starts at offset `start` of its document, from `pos` on. Of a decoration the
part on the line counts that no run has covered; it is passed over if it is empty or begins or ends
inside a character. -/
def cut (start : Nat) (line : Text) (pos : Nat) : List Decoration → List Run
  | [] => rest line pos
  | d :: ds =>
    let lo := max (d.start - start) pos
    let hi := min (d.stop - start) (Text.size line)
    if lo < hi ∧ Text.isBoundary line lo ∧ Text.isBoundary line hi then
      (if pos < lo then [⟨Text.slice line pos lo, none⟩] else []) ++
        ⟨Text.slice line lo hi, some d.style⟩ :: cut start line hi ds
    else cut start line pos ds

/-- The runs of a line under sorted decorations that do not overlap. -/
def ofLine (start : Nat) (line : Text) (ds : List Decoration) : List Run := cut start line 0 ds

end Run

end FencedCode
