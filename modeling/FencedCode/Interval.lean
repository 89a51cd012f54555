namespace FencedCode

/-- The offsets from `lo` to `hi`, ends included. -/
structure Interval where
  lo : Nat
  hi : Nat
  lo_le_hi : lo ≤ hi := by omega
  deriving DecidableEq, Repr

namespace Interval

def between (a b : Nat) : Interval where
  lo := min a b
  hi := max a b

instance : Inhabited Interval := ⟨between 0 0⟩

def length (r : Interval) : Nat := r.hi - r.lo

def isEmpty (r : Interval) : Bool := r.lo == r.hi

def ends (r : Interval) : Nat × Nat := (r.lo, r.hi)

def touches (r : Interval) (pos : Nat) : Bool := r.lo ≤ pos && pos ≤ r.hi

/-- Two intervals intersect when some offset touches both. -/
def intersects (r s : Interval) : Bool := r.lo ≤ s.hi && s.lo ≤ r.hi

def inter? (r s : Interval) : Option Interval :=
  if r.intersects s then some (between (max r.lo s.lo) (min r.hi s.hi)) else none

def clamp (r : Interval) (len : Nat) : Interval := between (min r.lo len) (min r.hi len)

def extend (r : Interval) (pos : Nat) : Interval where
  lo := r.lo
  hi := max r.hi pos
  lo_le_hi := Nat.le_trans r.lo_le_hi (Nat.le_max_left _ _)

def before (r s : Interval) : Bool := r.lo < s.lo || (r.lo == s.lo && r.hi ≤ s.hi)

/-- Joins each interval of a list sorted by `before` to the one on its left where they touch. -/
def coalesce (current : Interval) : List Interval → List Interval
  | [] => [current]
  | r :: rs =>
    if r.lo ≤ current.hi then coalesce (current.extend r.hi) rs else current :: coalesce r rs

/-- The same offsets as disjoint intervals in increasing order. -/
def normalize (rs : List Interval) : List Interval :=
  match rs.mergeSort before with
  | [] => []
  | r :: rs => coalesce r rs

def carve (start stop : Nat) : List Interval → List Interval
  | [] => if start < stop then [between start stop] else []
  | cut :: cuts =>
    (if start < cut.lo then [between start cut.lo] else []) ++
      if stop ≤ cut.hi then [] else carve (max start cut.hi) stop cuts

/-- The parts of `rs` that no interval of `covered` covers. -/
def subtract (rs covered : List Interval) : List Interval :=
  (normalize rs).flatMap fun r => carve r.lo r.hi ((normalize covered).filter (·.intersects r))

end Interval

end FencedCode
