import FencedCode.Bisect
import FencedCode.Edit

namespace FencedCode

structure Decoration where
  start : Nat
  stop : Nat
  /-- Style key. -/
  style : String
  deriving DecidableEq, Repr

namespace Decoration

def contains (d : Decoration) (pos : Nat) : Bool := d.start ≤ pos && pos < d.stop

def length (d : Decoration) : Nat := d.stop - d.start

def isEmpty (d : Decoration) : Bool := d.stop ≤ d.start

/-- The decoration after an edit, unless the edit reaches into it. -/
def map? (d : Decoration) (e : Edit) : Option Decoration :=
  if d.stop ≤ e.start then some d
  else if e.oldEnd ≤ d.start then
    some { d with
      start := d.start + e.newEnd - e.oldEnd
      stop := d.stop + e.newEnd - e.oldEnd }
  else none

def before (d e : Decoration) : Bool := d.start < e.start || (d.start == e.start && d.stop ≤ e.stop)

end Decoration

/-- The decorations of a document, sorted by `Decoration.before`. -/
abbrev DecorationSet := List Decoration

namespace DecorationSet

def inRange (ds : DecorationSet) (r : Interval) : List Decoration :=
  ((ds.drop (partitionPoint (fun d => d.stop ≤ r.lo) ds)).takeWhile fun d => d.start < r.hi).filter
    fun d => r.lo < d.stop

def map (ds : DecorationSet) (e : Edit) : DecorationSet := ds.filterMap (·.map? e)

def follow (ds : DecorationSet) (e : Edit) : DecorationSet × Nat :=
  let mapped := ds.map e
  (mapped, ds.length - mapped.length)

/-- Keeps the decorations whose start passes, adds others, and tells whether anything was removed or
added. -/
def update (ds : DecorationSet) (keep : Nat → Bool) (add : List Decoration) :
    DecorationSet × Bool :=
  let kept := ds.filter fun d => keep d.start
  ((kept ++ add).mergeSort Decoration.before, kept.length < ds.length || !add.isEmpty)

end DecorationSet

end FencedCode
