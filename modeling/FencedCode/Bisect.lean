namespace FencedCode

def bisect {α : Type} (p : α → Bool) (xs : List α) (base size : Nat) : Nat :=
  if 1 < size then
    let half := size / 2
    bisect p xs (if xs[base + half]?.any p then base + half else base) (size - half)
  else base
termination_by size

/-- The number of leading entries with the property, if none of the others has it. -/
def partitionPoint {α : Type} (p : α → Bool) (xs : List α) : Nat :=
  let base := bisect p xs 0 xs.length
  if xs[base]?.any p then base + 1 else base

end FencedCode
