import FencedCode.Aliases
import FencedCode.Host

namespace FencedCode

structure Block where
  /-- Start of the opening fence line. -/
  start : Nat
  /-- First offset after the opening line's line break. -/
  bodyStart : Nat
  /-- Start of the closing fence line, or the end of the document. -/
  bodyStop : Nat
  /-- End of the closing fence line, or the end of the document. -/
  stop : Nat
  /-- Language the tag stands for. -/
  language : String
  /-- Tag as written. -/
  declared : String
  deriving DecidableEq, Inhabited

namespace Block

def body (b : Block) : Interval := .between b.bodyStart b.bodyStop

def span (b : Block) : Interval := .between b.start b.stop

/-- The block's body runs to the end of a document of this length. -/
def isOpen (b : Block) (len : Nat) : Bool := b.bodyStop == len

end Block

def plainTag : String := "text"

/-- The language a declared tag stands for. -/
def Aliases.resolve (m : Aliases) (declared : String) : String :=
  let tag := if declared.isEmpty then plainTag else declared
  (m.get? tag).getD tag

namespace Document

def blockAt? (d : Document) (aliases : Aliases) (opener : Line) : Option Block :=
  let declared := String.ofList ((Fence.tag? opener.text).getD [])
  let bodyStart := opener.stop + 1
  let close := (d.lines.drop (opener.index + 1)).find? fun line => Fence.closes line.text
  let bodyStop := (close.map (·.start)).getD d.size
  if bodyStart < d.size ∧ bodyStart < bodyStop then
    some {
      start := opener.start
      bodyStart
      bodyStop
      stop := (close.map (·.stop)).getD d.size
      language := aliases.resolve declared
      declared }
  else none

/-- The blocks that the lines around the given offsets open, each line read once, in document
order. -/
def blocksAt (d : Document) (aliases : Aliases) (markers : List Nat) : List Block :=
  (((markers.map d.lineAt!).eraseDupsBy fun a b => a.start == b.start).filterMap
    (d.blockAt? aliases)).mergeSort fun a b => a.start ≤ b.start

end Document

/-- The blocks that intersect one of the intervals, each once, in document order. -/
def Host.locate (h : Host) (aliases : Aliases) (near : List Interval) : List Block :=
  h.document.blocksAt aliases (h.openers (Interval.normalize near))

end FencedCode
