import FencedCode.Interval

namespace FencedCode

inductive Bias where
  | left
  | right
  deriving DecidableEq, Repr

/-- The bytes from `start` to `oldEnd` were replaced by those from `start` to `newEnd`. -/
structure Edit where
  start : Nat
  oldEnd : Nat
  newEnd : Nat
  deriving DecidableEq, Repr

namespace Edit

def replace (start stop len : Nat) : Edit := ⟨start, stop, start + len⟩

def delta (e : Edit) : Int := (e.newEnd : Int) - e.oldEnd

def newRange (e : Edit) : Interval := .between e.start e.newEnd

/-- The replaced span and the interval share an offset of the old text. -/
def touches (e : Edit) (r : Interval) : Bool := e.start ≤ r.hi && r.lo ≤ e.oldEnd

/-- Where an offset of the old text lies in the new one. -/
def mapPos (e : Edit) (pos : Nat) (bias : Bias) : Nat :=
  if pos < e.start then pos
  else if e.oldEnd < pos || (pos == e.oldEnd && e.start < pos) then pos - e.oldEnd + e.newEnd
  else match bias with
    | .left => e.start
    | .right => e.newEnd

def mapInterval (e : Edit) (r : Interval) : Interval :=
  .between (e.mapPos r.lo .left) (e.mapPos r.hi .right)

end Edit

end FencedCode
