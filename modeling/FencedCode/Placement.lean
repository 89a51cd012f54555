import FencedCode.Block
import FencedCode.Decoration
import FencedCode.Tokenizer

namespace FencedCode.Placement

def line (stop cursor : Nat) : TokenLine → List Decoration × Nat
  | [] => ([], cursor)
  | t :: ts =>
    if t.text.isEmpty then line stop cursor ts
    else if stop ≤ cursor then ([], cursor)
    else
      let next := min (cursor + Text.size t.text) stop
      let (ds, last) := line stop next ts
      (⟨cursor, next, styleKey t.color t.font⟩ :: ds, last)

def skipBreak (byteAt : Nat → Option UInt8) (stop cursor : Nat) : Nat :=
  if cursor < stop ∧ byteAt cursor = some 10 then cursor + 1 else cursor

def lines (byteAt : Nat → Option UInt8) (stop cursor : Nat) : List TokenLine → List Decoration
  | [] => []
  | l :: ls =>
    let (ds, last) := line stop cursor l
    ds ++ lines byteAt stop (skipBreak byteAt stop last) ls

end FencedCode.Placement

namespace FencedCode

/-- The decorations of the tokens of a block. Each token takes as many bytes as its text has,
whatever the document holds there. -/
def Host.place (h : Host) (b : Block) (tokens : List TokenLine) : List Decoration :=
  Placement.lines h.byteAt b.bodyStop b.bodyStart tokens

end FencedCode
