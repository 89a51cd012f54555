import FencedCode.Key
import FencedCode.Screen

namespace FencedCode

namespace Terminal

def sequence (numbers : List Nat) (letter : Char) : String :=
  "\x1b[" ++ String.intercalate ";" (numbers.map toString) ++ letter.toString

def graphics (ink : Ink) (ground : Option Color) (a : Attributes) : String :=
  let foreground := match ink with
    | .standard => []
    | .darkGrey => [90]
    | .rgb c => [38, 2, c.red, c.green, c.blue]
  let background := match ground with
    | none => []
    | some c => [48, 2, c.red, c.green, c.blue]
  let marks := [(a.bold, 1), (a.italic, 3), (a.underline, 4), (a.reverse, 7)]
  sequence (0 :: foreground ++ background ++ (marks.filter (·.1)).map (·.2)) 'm'

def ofPiece : Piece → String
  | .text content ink ground a => graphics ink ground a ++ String.ofList content
  | .clear ground => graphics .standard ground {} ++ sequence [] 'K'

def ofScreen (s : Screen) : String :=
  String.join (s.map fun r => sequence [r.1 + 1, 1] 'H' ++ String.join (r.2.map ofPiece))

def enter : String := "\x1b[?1049h\x1b[?25l"

def leave : String := "\x1b[0m\x1b[?25h\x1b[?1049l"

def keys : Text → List Keystroke
  | '\x1b' :: '[' :: 'A' :: r => ⟨.up, false⟩ :: keys r
  | '\x1b' :: '[' :: 'B' :: r => ⟨.down, false⟩ :: keys r
  | '\x1b' :: '[' :: 'H' :: r => ⟨.home, false⟩ :: keys r
  | '\x1b' :: '[' :: 'F' :: r => ⟨.last, false⟩ :: keys r
  | '\x1b' :: '[' :: '1' :: '~' :: r => ⟨.home, false⟩ :: keys r
  | '\x1b' :: '[' :: '4' :: '~' :: r => ⟨.last, false⟩ :: keys r
  | '\x1b' :: '[' :: '5' :: '~' :: r => ⟨.pageUp, false⟩ :: keys r
  | '\x1b' :: '[' :: '6' :: '~' :: r => ⟨.pageDown, false⟩ :: keys r
  | '\x1b' :: '[' :: _ :: r => keys r
  | '\x1b' :: r => ⟨.escape, false⟩ :: keys r
  | '\r' :: r => ⟨.enter, false⟩ :: keys r
  | '\n' :: r => ⟨.enter, false⟩ :: keys r
  | '\t' :: r => ⟨.tab, false⟩ :: keys r
  | c :: r =>
    if 0 < c.toNat ∧ c.toNat ≤ 26 then ⟨.char (Char.ofNat (c.toNat + 96)), true⟩ :: keys r
    else ⟨.char c, false⟩ :: keys r
  | [] => []

end Terminal

end FencedCode
