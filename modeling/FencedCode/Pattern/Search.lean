import FencedCode.Pattern.Automaton
import FencedCode.Text

namespace FencedCode

structure Place where
  prev : Option Char
  next : Option Char
  offset : Nat

/-- A way to go on: the state to enter, where the match would start, and what is known of the
capture group asked for. -/
structure Way where
  state : Nat
  start : Nat
  /-- Where the group was last entered. -/
  entered : Nat
  /-- The last complete span of the group. -/
  group : Option Interval
  deriving DecidableEq

def Way.fresh (offset : Nat) : Way := ⟨0, offset, offset, none⟩

structure Progress where
  /-- Per state one more than the offset of the place where it was last entered. -/
  marks : Array Nat
  /-- Ways that consumed the next character, in order. -/
  ways : List Way
  /-- The first way that is complete; those after it do not count. -/
  accepted : Option Way

namespace Automaton

def step (wanted : Nat) (here : Place) (w : Way) : AutomatonState → List Way × Option Way
  | .take set next =>
    ([], if here.next.any set.contains then some { w with state := next } else none)
  | .check a next =>
    (if a.holds here.prev here.next then [{ w with state := next }] else [], none)
  | .fork first second => ([{ w with state := first }, { w with state := second }], none)
  | .enter group next =>
    let w := { w with state := next }
    ([if group = wanted then { w with entered := here.offset } else w], none)
  | .leave group next =>
    let w := { w with state := next }
    ([if group = wanted then { w with group := some (.between w.entered here.offset) } else w],
      none)
  | .pass next => ([{ w with state := next }], none)
  | .accept => ([], none)

/-- Follows ways at a place until each has consumed the next character, or one is complete. Each
state is entered once and leads to two at most, which bounds the steps. Ways that consumed the
character are gathered in `taken`, the latest first. -/
def spread (a : Automaton) (wanted : Nat) (here : Place) :
    Nat → List Way → Array Nat → List Way → Progress
  | 0, _, marks, taken => ⟨marks, taken.reverse, none⟩
  | _, [], marks, taken => ⟨marks, taken.reverse, none⟩
  | steps + 1, w :: ws, marks, taken =>
    if marks[w.state]? = some (here.offset + 1) then spread a wanted here steps ws marks taken
    else match a[w.state]? with
      | none => spread a wanted here steps ws marks taken
      | some .accept => ⟨marks, taken.reverse, some w⟩
      | some s =>
        let marks := marks.setIfInBounds w.state (here.offset + 1)
        match step wanted here w s with
        | (on, none) => spread a wanted here steps (on ++ ws) marks taken
        | (on, some t) => spread a wanted here steps (on ++ ws) marks (t :: taken)

/-- Follows ways through the text from a place on. The best match so far is kept until no way that
is preferred to it remains. -/
def follow (a : Automaton) (wanted : Nat) (ways : List Way) (marks : Array Nat)
    (best : Option Match) (prev : Option Char) (offset : Nat) (t : Text) : Option Match :=
  let ways := if best.isNone then ways ++ [.fresh offset] else ways
  let p := a.spread wanted ⟨prev, t.head?, offset⟩ (ways.length + 2 * a.size) ways marks []
  let best := match p.accepted with
    | some w => some ⟨.between w.start offset, w.group⟩
    | none => best
  match t with
  | [] => best
  | c :: cs =>
    if best.isSome && p.ways.isEmpty then best
    else a.follow wanted p.ways p.marks best (some c) (offset + c.utf8Size) cs

/-- The first match that starts at or after an offset, with the span of the capture group `wanted`;
assertions see the whole text. -/
def findGroup (a : Automaton) (wanted : Nat) (t : Text) (start : Nat) : Option Match :=
  let before := Text.cover t start
  a.follow wanted [] (Array.replicate a.size 0) none before.getLast? (Text.size before)
    (Text.uncover t start)

/-- The first match at or after an offset, given the first at or after an earlier one: that is
still the first unless it starts too soon, and where there was none there is none. -/
def findNext (a : Automaton) (wanted : Nat) (t : Text) (start : Nat) (known : Option Match) :
    Option Match :=
  known.bind fun m => if start ≤ m.span.lo then some m else a.findGroup wanted t start

/-- The span of the first match that starts at or after an offset. -/
def find (a : Automaton) (t : Text) (start : Nat) : Option Interval :=
  (a.findGroup 0 t start).map (·.span)

end Automaton

end FencedCode
