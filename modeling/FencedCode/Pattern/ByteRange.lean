namespace FencedCode

abbrev ByteRange := Nat × Nat

namespace ByteRange

def encode (n : Nat) : List Nat :=
  if n < 0x80 then [n]
  else if n < 0x800 then [0xc0 + n / 0x40, 0x80 + n % 0x40]
  else if n < 0x10000 then [0xe0 + n / 0x1000, 0x80 + n / 0x40 % 0x40, 0x80 + n % 0x40]
  else [0xf0 + n / 0x40000, 0x80 + n / 0x1000 % 0x40, 0x80 + n / 0x40 % 0x40, 0x80 + n % 0x40]

/-- Where a block of code points that share all but their last bytes ends inside a range. -/
def blockEnd? (lo hi block : Nat) : Option Nat :=
  if lo / block = hi / block then none
  else if lo % block ≠ 0 then some ((lo / block + 1) * block - 1)
  else if hi % block ≠ block - 1 then some (hi / block * block - 1)
  else none

/-- The last code point of the first part if a range has to be cut: where the number of bytes
changes, or at the end of a block. -/
def cut? (lo hi : Nat) : Option Nat :=
  match [0x7f, 0x7ff, 0xffff].find? fun m => lo ≤ m && m < hi with
  | some m => some m
  | none => if hi ≤ 0x7f then none else blockEnd? lo hi 0x40 <|> blockEnd? lo hi 0x1000
      <|> blockEnd? lo hi 0x40000

def sequencesWithin : Nat → Nat → Nat → List (List ByteRange)
  | 0, _, _ => []
  | depth + 1, lo, hi =>
    if hi < lo then []
    else if lo < 0xe000 ∧ 0xd7ff < hi then
      sequencesWithin depth lo 0xd7ff ++ sequencesWithin depth 0xe000 hi
    else match cut? lo hi with
      | none => [(encode lo).zip (encode hi)]
      | some m => sequencesWithin depth lo m ++ sequencesWithin depth (m + 1) hi

def sequences (lo hi : Nat) : List (List ByteRange) := sequencesWithin 16 lo hi

end ByteRange

end FencedCode
