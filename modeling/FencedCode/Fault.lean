import FencedCode.Text

namespace FencedCode

/-- What can go wrong where a position is taken for granted. -/
inductive Fault where
  /-- No entry is there. -/
  | missing
  /-- More is taken away than there is. -/
  | negative
  /-- A piece of text does not begin and end between characters, in this order. -/
  | torn
  deriving DecidableEq, Repr

def entry {α : Type} (xs : List α) (i : Nat) : Except Fault α :=
  match xs[i]? with
  | some x => .ok x
  | none => .error .missing

def minus (a b : Nat) : Except Fault Nat := if b ≤ a then .ok (a - b) else .error .negative

def Text.piece (t : Text) (lo hi : Nat) : Except Fault Text :=
  if lo ≤ hi ∧ t.isBoundary lo ∧ t.isBoundary hi then .ok (t.slice lo hi) else .error .torn

theorem entry_eq_ok {α : Type} {xs : List α} {i : Nat} {x : α} (h : xs[i]? = some x) :
    entry xs i = .ok x := by
  rw [entry, h]

theorem minus_eq_ok {a b : Nat} (h : b ≤ a) : minus a b = .ok (a - b) := if_pos h

end FencedCode
