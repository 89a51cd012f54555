import FencedCode.Bisect
import FencedCode.Edit
import FencedCode.Fault

namespace FencedCode

structure Line where
  /-- Position among the lines, from zero. -/
  index : Nat
  /-- Offset of the first byte. -/
  start : Nat
  /-- Offset just past the last byte. -/
  stop : Nat
  text : Text
  deriving DecidableEq, Inhabited

/-- The default document holds no text and has not been indexed: it has no line at all, while that
of an empty text has one. -/
structure Document where
  text : Text
  /-- The offsets at which lines start. -/
  starts : List Nat
  deriving DecidableEq, Inhabited

namespace Line

/-- Numbers lines from `index` and places them from the offset `start` on. -/
def indexed (index start : Nat) : List Text → List Line
  | [] => []
  | t :: ts =>
    let stop := start + Text.size t
    ⟨index, start, stop, t⟩ :: indexed (index + 1) (stop + 1) ts

end Line

namespace Document

def ofText (t : Text) : Document := ⟨t, t.starts⟩

def size (d : Document) : Nat := Text.size d.text

def lineCount (d : Document) : Nat := d.starts.length

/-- Where a line starts and ends: in front of the line break behind which the next one starts, or
with the text. -/
def bounds (d : Document) (index : Nat) : Except Fault (Nat × Nat) := do
  let start ← entry d.starts index
  match d.starts[index + 1]? with
  | some next => return (start, ← minus next 1)
  | none => return (start, d.size)

def readLine (d : Document) (index : Nat) : Except Fault Line := do
  let (start, stop) ← d.bounds index
  return ⟨index, start, stop, ← d.text.piece start stop⟩

def line (d : Document) (index : Nat) : Except Fault (Option Line) :=
  if d.lineCount ≤ index then return none else some <$> d.readLine index

/-- The line an offset lies in, the offset clamped to the text: the last one of those that start up
to it. -/
def lineAt (d : Document) (offset : Nat) : Except Fault Line := do
  let pos := min offset d.size
  d.readLine (← minus (partitionPoint (· ≤ pos) d.starts) 1)

def textBetween (d : Document) (lo hi : Nat) : Except Fault Text :=
  let start := d.text.roundDown lo
  let stop := d.text.roundUp hi
  if stop ≤ start then return [] else d.text.piece start stop

def byteAt (d : Document) (offset : Nat) : Option UInt8 := Text.byteAt d.text offset

-- The same answers without checks, for documents of which they are known to be there.

/-- All lines, none if the document has not been indexed. -/
def lines (d : Document) : List Line :=
  match d.starts with
  | [] => []
  | _ :: _ => Line.indexed 0 0 (Text.lines d.text)

def line? (d : Document) (index : Nat) : Option Line := d.lines[index]?

def lineAt? (d : Document) (offset : Nat) : Option Line :=
  let offset := min offset d.size
  (d.lines.takeWhile (·.start ≤ offset)).getLast?

def lineAt! (d : Document) (offset : Nat) : Line := (d.lineAt? offset).getD default

def slice (d : Document) (r : Interval) : Text := Text.slice d.text r.lo r.hi

/-- Replaces the text between two offsets, given in either order and rounded down to character
boundaries, and tells the edit that was made. -/
def apply (d : Document) (a b : Nat) (insert : Text) : Document × Edit :=
  let start := Text.floor d.text (min a b)
  let stop := Text.floor d.text (max b start)
  (ofText (Text.take d.text start ++ insert ++ Text.drop d.text stop),
    .replace start stop (Text.size insert))

def insert (d : Document) (pos : Nat) (t : Text) : Document × Edit := d.apply pos pos t

def delete (d : Document) (a b : Nat) : Document × Edit := d.apply a b []

end Document

end FencedCode
