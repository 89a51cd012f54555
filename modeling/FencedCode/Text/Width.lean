import FencedCode.Text.WidthTable

namespace FencedCode.Text

def isControl (c : Char) : Bool := c.toNat < 0x20 || (0x7f ≤ c.toNat && c.toNat < 0xa0)

/-- The columns of a character; a control character has no width. The Khmer sign beyyal is the one
character of three columns. -/
def width? (c : Char) : Option Nat :=
  if isControl c then none
  else if c.toNat < 0x7f then some 1
  else if c = '\u17d8' then some 3
  else if zeroWidthTable.contains c.toNat then some 0
  else if wideTable.contains c.toNat then some 2
  else some 1

def width (c : Char) : Nat := (width? c).getD 0

end FencedCode.Text
