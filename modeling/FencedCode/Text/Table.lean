namespace FencedCode.Text

abbrev Table := Array (Nat × Nat)

namespace Table

def search (t : Table) (n lo hi : Nat) : Bool :=
  if lo < hi then
    let mid := (lo + hi) / 2
    match t[mid]? with
    | none => false
    | some (first, last) =>
      if n < first then search t n lo mid
      else if last < n then search t n (mid + 1) hi
      else true
  else false
termination_by hi - lo

def contains (t : Table) (n : Nat) : Bool := t.search n 0 t.size

end Table

end FencedCode.Text
