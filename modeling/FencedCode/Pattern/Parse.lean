import FencedCode.Pattern.Footprint
import FencedCode.Pattern.Token

namespace FencedCode.Pattern

structure Piece where
  pattern : Pattern
  depth : Nat

/-- How deeply an expression is nested that has others side by side inside: one alone is not
nested. -/
def nested : List Piece → Nat
  | [] => 0
  | [p] => p.depth
  | ps => (ps.map (·.depth)).foldl Nat.max 0 + 1

/-- What has been read of a group, or of the whole pattern: both lists have the latest first. -/
structure Level where
  /-- Capture index of the group, if it captures. -/
  index : Option Nat := none
  alternatives : List Piece := []
  items : List Piece := []

namespace Level

def push (l : Level) (p : Piece) : Level := { l with items := p :: l.items }

def alternative (l : Level) : Piece := ⟨row (l.items.reverse.map (·.pattern)), nested l.items⟩

def next (l : Level) : Level :=
  { l with alternatives := l.alternative :: l.alternatives, items := [] }

def inside (l : Level) : Piece :=
  ⟨choice (l.next.alternatives.reverse.map (·.pattern)), nested l.next.alternatives⟩

def group (l : Level) : Piece :=
  ⟨match l.index with
    | none => l.inside.pattern
    | some i => .group i l.inside.pattern,
    l.inside.depth + 1⟩

end Level

/-- Reads tokens inside the innermost level `l` with `outer` around it, the capture groups numbered
from `fresh` on. A repetition needs an item before it, and brackets have to pair. -/
def read? (fresh : Nat) (l : Level) (outer : List Level) : List Token → Option Piece
  | [] => if outer.isEmpty then some l.inside else none
  | .one set depth :: ts => read? fresh (l.push ⟨.one set, depth⟩) outer ts
  | .assertion a :: ts => read? fresh (l.push ⟨.assertion a, 0⟩) outer ts
  | .bar :: ts => read? fresh l.next outer ts
  | .times min max greedy :: ts =>
    match l.items with
    | [] => none
    | p :: ps =>
      read? fresh { l with items := ⟨p.pattern.turns min max greedy, p.depth + 1⟩ :: ps } outer ts
  | .openGroup true :: ts => read? (fresh + 1) { index := some fresh } (l :: outer) ts
  | .openGroup false :: ts => read? fresh {} (l :: outer) ts
  | .closeGroup :: ts =>
    match outer with
    | [] => none
    | around :: outer => read? fresh (around.push l.group) outer ts

def depthLimit : Nat := 250

def wellFormed? (s : Text) : Option Pattern := do
  let p ← Token.scan? s >>= read? 1 {} []
  if p.depth ≤ depthLimit then some p.pattern else none

/-- The pattern that a text writes, unless it is malformed, nested too deeply or too large. -/
def ofText? (s : Text) : Option Pattern := (wellFormed? s).filter fits

end FencedCode.Pattern
