import FencedCode.Text.Class

namespace FencedCode

/-- A set of characters: ranges of code points, ends included, in increasing order and with a gap
between any two. -/
structure CharSet where
  ranges : Text.Table
  deriving DecidableEq

namespace CharSet

def contains (s : CharSet) (c : Char) : Bool := s.ranges.contains c.toNat

def empty : CharSet := ⟨#[]⟩

def single (c : Char) : CharSet := ⟨#[(c.toNat, c.toNat)]⟩

/-- Joins a range with those of the following that it meets; they start in increasing order. -/
def mergeFrom (r : Nat × Nat) : List (Nat × Nat) → List (Nat × Nat)
  | [] => [r]
  | s :: rs => if s.1 ≤ r.2 + 1 then mergeFrom (r.1, max r.2 s.2) rs else r :: mergeFrom s rs

def insertRange (r : Nat × Nat) : List (Nat × Nat) → List (Nat × Nat)
  | [] => [r]
  | s :: rs => if r.1 ≤ s.1 then r :: s :: rs else s :: insertRange r rs

def ofRanges (rs : List (Nat × Nat)) : CharSet :=
  match rs.foldr insertRange [] with
  | [] => empty
  | r :: rs => ⟨(mergeFrom r rs).toArray⟩

def join (ss : List CharSet) : CharSet := ofRanges (ss.flatMap fun s => s.ranges.toList)

def gapsFrom (first : Nat) : List (Nat × Nat) → List (Nat × Nat)
  | [] => if first ≤ 0x10ffff then [(first, 0x10ffff)] else []
  | r :: rs =>
    if first < r.1 then (first, r.1 - 1) :: gapsFrom (r.2 + 1) rs else gapsFrom (r.2 + 1) rs

def surrogates : CharSet := ⟨#[(0xd800, 0xdfff)]⟩

def complement (s : CharSet) : CharSet :=
  ⟨(gapsFrom 0 (join [s, surrogates]).ranges.toList).toArray⟩

def dot : CharSet := (single '\n').complement

def digit : CharSet := ⟨Text.digitTable⟩

def word : CharSet := ⟨Text.wordTable⟩

def blank : CharSet :=
  ⟨#[(9, 13), (0x20, 0x20), (0x85, 0x85), (0xa0, 0xa0), (0x1680, 0x1680), (0x2000, 0x200a),
    (0x2028, 0x2029), (0x202f, 0x202f), (0x205f, 0x205f), (0x3000, 0x3000)]⟩

def only? (s : CharSet) : Option Nat :=
  match s.ranges.toList with
  | [(lo, hi)] => if lo = hi then some lo else none
  | _ => none

def isAscii (s : CharSet) : Bool := s.ranges.all fun r => r.2 < 0x80

def bytesOf (n : Nat) : Nat :=
  if n < 0x80 then 1 else if n < 0x800 then 2 else if n < 0x10000 then 3 else 4

def minBytes? (s : CharSet) : Option Nat := s.ranges[0]?.map fun r => bytesOf r.1

def maxBytes? (s : CharSet) : Option Nat := s.ranges.back?.map fun r => bytesOf r.2

end CharSet

end FencedCode
