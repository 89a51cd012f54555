import FencedCode.Text.Blank
import FencedCode.Text.Hex

namespace FencedCode

structure Color where
  red : Nat
  green : Nat
  blue : Nat
  deriving DecidableEq, Repr

namespace Color

/-- A channel written as a number in base sixteen, a plus sign before it allowed. -/
def channel? (s : Text) : Option Nat :=
  let digits := match s with
    | '+' :: d :: ds => d :: ds
    | s => s
  if digits.isEmpty then none
  else digits.foldlM (fun n c => (Text.hexValue? c).map (16 * n + ·)) 0

def shortChannel? (c : Char) : Option Nat := (channel? [c]).map (17 * ·)

def ofText? (s : Text) : Option Color :=
  match Text.trim s with
  | ['#', a, b, c, d, e, f] => do
    return ⟨← channel? [a, b], ← channel? [c, d], ← channel? [e, f]⟩
  | ['#', a, b, c] => do return ⟨← shortChannel? a, ← shortChannel? b, ← shortChannel? c⟩
  | _ => none

def channelText (n : Nat) : Text := [Nat.digitChar (n / 16 % 16), Nat.digitChar (n % 16)]

def toText (c : Color) : Text :=
  '#' :: channelText c.red ++ channelText c.green ++ channelText c.blue

end Color

end FencedCode
