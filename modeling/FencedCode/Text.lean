namespace FencedCode

/-- Text in reading order. Offsets into it count UTF-8 bytes. -/
abbrev Text := List Char

namespace Text

def size : Text → Nat
  | [] => 0
  | c :: cs => c.utf8Size + size cs

def take : Text → Nat → Text
  | [], _ => []
  | c :: cs, n => if c.utf8Size ≤ n then c :: take cs (n - c.utf8Size) else []

def drop : Text → Nat → Text
  | [], _ => []
  | c :: cs, n => if c.utf8Size ≤ n then drop cs (n - c.utf8Size) else c :: cs

def cover : Text → Nat → Text
  | [], _ => []
  | c :: cs, n => if n = 0 then [] else c :: cover cs (n - c.utf8Size)

def uncover : Text → Nat → Text
  | [], _ => []
  | c :: cs, n => if n = 0 then c :: cs else uncover cs (n - c.utf8Size)

/-- The last character boundary at or before the offset. -/
def floor (t : Text) (n : Nat) : Nat := size (take t n)

/-- The first character boundary at or after the offset, or the end of the text. -/
def ceil (t : Text) (n : Nat) : Nat := size (cover t n)

def isBoundary (t : Text) (n : Nat) : Bool := floor t n == n

def stepDown (t : Text) : Nat → Nat
  | 0 => 0
  | p + 1 => if t.isBoundary (p + 1) then p + 1 else stepDown t p

def stepUp (t : Text) (p : Nat) : Nat :=
  if p < size t ∧ t.isBoundary p = false then stepUp t (p + 1) else p
termination_by size t - p

def roundDown (t : Text) (n : Nat) : Nat := if size t ≤ n then size t else stepDown t n

def roundUp (t : Text) (n : Nat) : Nat := if size t ≤ n then size t else stepUp t n

/-- The text between two offsets, widened to whole characters. -/
def slice (t : Text) (lo hi : Nat) : Text := cover (drop t lo) (hi - floor t lo)

def byteAt : Text → Nat → Option UInt8
  | [], _ => none
  | c :: cs, n =>
    if n < c.utf8Size then (String.utf8EncodeChar c)[n]? else byteAt cs (n - c.utf8Size)

/-- The pieces of a text between separators; there is always at least one. -/
def split (separator : Char) : Text → List Text
  | [] => [[]]
  | c :: cs =>
    if c = separator then [] :: split separator cs
    else match split separator cs with
      | [] => [[c]]
      | p :: ps => (c :: p) :: ps

def lines (t : Text) : List Text := split '\n' t

def startsFrom (pos : Nat) : Text → List Nat
  | [] => []
  | c :: cs =>
    let next := pos + c.utf8Size
    if c = '\n' then next :: startsFrom next cs else startsFrom next cs

def starts (t : Text) : List Nat := 0 :: startsFrom 0 t

theorem take_append_drop (t : Text) (n : Nat) : take t n ++ drop t n = t := by
  induction t generalizing n with
  | nil => rfl
  | cons c cs ih => simp only [take, drop]; split <;> simp [ih]

theorem cover_append_uncover (t : Text) (n : Nat) : cover t n ++ uncover t n = t := by
  induction t generalizing n with
  | nil => rfl
  | cons c cs ih => simp only [cover, uncover]; split <;> simp [ih]

@[simp] theorem size_append (s t : Text) : size (s ++ t) = size s + size t := by
  induction s with
  | nil => simp [size]
  | cons c cs ih => simp [size, ih, Nat.add_assoc]

theorem floor_le (t : Text) (n : Nat) : floor t n ≤ n := by
  induction t generalizing n with
  | nil => simp [floor, take, size]
  | cons c cs ih =>
    simp only [floor, take]
    split
    · have := ih (n - c.utf8Size)
      simp only [floor] at this
      simp only [size]
      omega
    · simp [size]

theorem split_ne_nil (separator : Char) (t : Text) : split separator t ≠ [] := by
  cases t with
  | nil => simp [split]
  | cons c cs => simp only [split]; split <;> (try split) <;> simp

theorem lines_ne_nil (t : Text) : lines t ≠ [] := split_ne_nil '\n' t

end Text

end FencedCode
