import FencedCode.Document
import FencedCode.Text.Blank

namespace FencedCode.Fence

def tick : Char := '\x60'

/-- The tag of a line that opens a block: at least three ticks at its very start, then the tag up to
the next white space. -/
def tag? (line : Text) : Option Text :=
  if 3 ≤ (line.takeWhile (· == tick)).length then
    some ((line.dropWhile (· == tick)).takeWhile fun c => !Text.isBlank c)
  else none

/-- A line closes an open block when three ticks follow its leading white space. -/
def closes (line : Text) : Bool := [tick, tick, tick].isPrefixOf (Text.trim line)

/-- The first of some increasing intervals begins at or before an offset. For a block that ends
there this means that one of them intersects it, if those that end before the block have been
dropped. -/
def reaches (near : List Interval) (stop : Nat) : Bool :=
  match near with
  | [] => false
  | r :: _ => r.lo ≤ stop

/-- Reads the lines once and gives the starts of the opening fences whose block, closing fence
included, intersects one of the increasing disjoint intervals `near`. `opened` is the start of the
block being read; with none open, no line beyond `last` matters. -/
def scan (len last : Nat) (near : List Interval) (opened : Option Nat) : List Line → List Nat
  | [] =>
    match opened with
    | none => []
    | some start => if reaches (near.dropWhile (·.hi < start)) len then [start] else []
  | line :: rest =>
    match opened with
    | some start =>
      if closes line.text then
        let near := near.dropWhile (·.hi < start)
        if reaches near line.stop then start :: scan len last near none rest
        else scan len last near none rest
      else scan len last near opened rest
    | none =>
      if last < line.start then []
      else if (tag? line.text).isSome then scan len last near (some line.start) rest
      else scan len last near none rest

end FencedCode.Fence

namespace FencedCode.Ranges

def skip (near : List (Nat × Nat)) (lo next : Nat) : Except Fault Nat :=
  if next < near.length then do
    let r ← entry near next
    if r.2 < lo then skip near lo (next + 1) else return next
  else return next
termination_by near.length - next

/-- Whether that range touches a stretch, and which it is. -/
def touch (near : List (Nat × Nat)) (r : Interval) (next : Nat) : Except Fault (Bool × Nat) := do
  let next ← skip near r.lo next
  if next < near.length then
    return ((← entry near next).1 ≤ r.hi, next)
  else return (false, next)

end FencedCode.Ranges

namespace FencedCode.Document

def openersLast (d : Document) (near : List (Nat × Nat)) (opened : Option Nat) (next : Nat) :
    Except Fault (List Nat) := do
  match opened with
  | none => return []
  | some start =>
    let (hit, _) ← Ranges.touch near (.between start d.size) next
    return if hit then [start] else []

/-- Reads the lines from one on and tells where the fences open whose block touches one of the
ranges from `next` on. -/
def openersFrom (d : Document) (near : List (Nat × Nat)) (last : Nat) (opened : Option Nat)
    (next index : Nat) : Except Fault (List Nat) :=
  if index < d.lineCount then do
    match ← d.line index with
    | none => d.openersLast near opened next
    | some line =>
      match opened with
      | some start =>
        if Fence.closes line.text then
          let (hit, next) ← Ranges.touch near (.between start line.stop) next
          let rest ← openersFrom d near last none next (index + 1)
          return if hit then start :: rest else rest
        else openersFrom d near last opened next (index + 1)
      | none =>
        if last < line.start then return []
        else if (Fence.tag? line.text).isSome then
          openersFrom d near last (some line.start) next (index + 1)
        else openersFrom d near last none next (index + 1)
  else d.openersLast near opened next
termination_by d.lineCount - index

/-- Starts of the opening fences whose block touches one of some ranges. These should be disjoint
and in increasing order, but nothing fails if they come in any order and with their ends in any
order. -/
def openersNear (d : Document) (near : List (Nat × Nat)) : Except Fault (List Nat) :=
  match near.getLast? with
  | none => return []
  | some last => d.openersFrom near last.2 none 0 0

/-- The same without checks, near increasing disjoint intervals. -/
def openers (d : Document) (near : List Interval) : List Nat :=
  match near.getLast? with
  | none => []
  | some last => Fence.scan d.size last.hi near none d.lines

end FencedCode.Document
