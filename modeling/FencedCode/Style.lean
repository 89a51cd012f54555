namespace FencedCode

/-- Font flags of a token as a set of bits. Bits without a meaning are kept. -/
structure FontStyle where
  bits : UInt8 := 0
  deriving DecidableEq, Repr

namespace FontStyle

def plain : FontStyle := ⟨0⟩

def italic : FontStyle := ⟨1⟩

def bold : FontStyle := ⟨2⟩

def underline : FontStyle := ⟨4⟩

def contains (s t : FontStyle) : Bool := s.bits &&& t.bits == t.bits

end FontStyle

def styleKey (color : String) (font : FontStyle) : String :=
  "color: " ++ color ++ ";" ++
    (if font.contains .italic then "font-style: italic;" else "") ++
    (if font.contains .bold then "font-weight: bold;" else "") ++
    (if font.contains .underline then "text-decoration: underline;" else "")

end FencedCode
