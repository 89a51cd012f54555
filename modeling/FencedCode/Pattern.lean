import FencedCode.Interval
import FencedCode.Pattern.CharSet

namespace FencedCode

inductive Assertion where
  | textStart
  | textEnd
  | wordBoundary
  | insideWord
  deriving DecidableEq

/-- Whether an assertion holds between two neighbouring characters, `none` at an end of the text. -/
def Assertion.holds (a : Assertion) (prev next : Option Char) : Bool :=
  match a with
  | .textStart => prev.isNone
  | .textEnd => next.isNone
  | .wordBoundary => prev.any Text.isWord != next.any Text.isWord
  | .insideWord => prev.any Text.isWord == next.any Text.isWord

/-- A regular expression. Of two ways to match, the one tried first is taken: the left alternative,
and with `greedy` one more turn of a repetition. -/
inductive Pattern where
  | empty
  | one (set : CharSet)
  | assertion (a : Assertion)
  | seq (p q : Pattern)
  | alt (p q : Pattern)
  | repeated (p : Pattern) (min : Nat) (max : Option Nat) (greedy : Bool)
  | group (index : Nat) (p : Pattern)
  deriving DecidableEq

namespace Pattern

def minLength : Pattern → Option Nat
  | empty => some 0
  | one set => set.minBytes?
  | assertion _ => some 0
  | seq p q => do return (← p.minLength) + (← q.minLength)
  | alt p q => do return Nat.min (← p.minLength) (← q.minLength)
  | repeated p min _ _ => p.minLength.map (· * min)
  | group _ p => p.minLength

def maxLength : Pattern → Option Nat
  | empty => some 0
  | one set => set.maxBytes?
  | assertion _ => some 0
  | seq p q => do return (← p.maxLength) + (← q.maxLength)
  | alt p q => do return Nat.max (← p.maxLength) (← q.maxLength)
  | repeated p _ max _ => do return (← p.maxLength) * (← max)
  | group _ p => p.maxLength

def consumes (p : Pattern) : Bool := p.minLength.any (0 < ·)

def asksForWords : Pattern → Bool
  | assertion a => a = .wordBoundary || a = .insideWord
  | seq p q => p.asksForWords || q.asksForWords
  | alt p q => p.asksForWords || q.asksForWords
  | repeated p _ _ _ => p.asksForWords
  | group _ p => p.asksForWords
  | _ => false

def items : Pattern → List Pattern
  | empty => []
  | seq p q => p.items ++ q.items
  | p => [p]

def ofItems : List Pattern → Pattern
  | [] => empty
  | [p] => p
  | p :: ps => seq p (ofItems ps)

def row (ps : List Pattern) : Pattern := ofItems (ps.flatMap items)

def alternatives : Pattern → List Pattern
  | alt p q => p.alternatives ++ q.alternatives
  | p => [p]

def ofAlternatives : List Pattern → Pattern
  | [] => one .empty
  | [p] => p
  | p :: ps => alt p (ofAlternatives ps)

def isLiteral : Pattern → Bool
  | one set => set.only?.isSome
  | seq p q => p.isLiteral && q.isLiteral
  | _ => false

/-- The items of a row with the characters between them put together into words. -/
def segments : List Pattern → List Pattern
  | [] => []
  | p :: ps =>
    match segments ps with
    | [] => [p]
    | q :: qs => if p.isLiteral && q.isLiteral then seq p q :: qs else p :: q :: qs

/-- The set that alternatives are if all of them are characters, or all of them sets of other
sizes. -/
def joined? (ps : List Pattern) : Option CharSet := do
  let sets ← ps.mapM fun p => match p with
    | one set => some set
    | _ => none
  if sets.all (·.only?.isSome) || sets.all (·.only?.isNone) then some (.join sets) else none

def common : List Pattern → List Pattern → List Pattern
  | p :: ps, q :: qs => if p = q then p :: common ps qs else []
  | _, _ => []

/-- The segments that all rows start with alike. Nothing counts unless each row has at least two
segments. -/
def shared (rows : List (List Pattern)) : List Pattern :=
  match rows with
  | [] => []
  | r :: rs => if rows.all (1 < ·.length) then rs.foldl common r else []

def parts : Pattern → Nat
  | seq p q => p.parts + q.parts + 1
  | alt p q => p.parts + q.parts + 1
  | repeated p _ _ _ => p.parts + 1
  | group _ p => p.parts + 1
  | _ => 1

/-- Ordered alternatives with at most `depth` shared beginnings taken out one inside the other. A
shared beginning is matched once, and what follows it is the choice that is left; so a longer
beginning comes before an earlier alternative. -/
def choiceWithin : Nat → List Pattern → Pattern
  | 0, ps => ofAlternatives (ps.flatMap alternatives)
  | depth + 1, ps =>
    let ps := ps.flatMap alternatives
    match ps with
    | [p] => p
    | ps =>
      match joined? ps with
      | some set => one set
      | none =>
        let rows := ps.map fun p => segments p.items
        match shared rows with
        | [] => ofAlternatives ps
        | start =>
          row (start ++ [choiceWithin depth (rows.map fun r => row (r.drop start.length))])

/-- Ordered alternatives; choices among them are dissolved, and what all of them start with is taken
out. -/
def choice (ps : List Pattern) : Pattern := choiceWithin (ps.foldl (fun n p => n + p.parts) 0) ps

/-- A repetition; one turn of a pattern that consumes nothing does as well as many. -/
def turns (p : Pattern) (min : Nat) (max : Option Nat) (greedy : Bool) : Pattern :=
  let idle := p.maxLength = some 0
  let min := if idle then Nat.min min 1 else min
  let max := if idle then some (Nat.min (max.getD 1) 1) else max
  if max = some 0 then empty
  else if min = 1 ∧ max = some 1 then p
  else repeated p min max greedy

end Pattern

/-- Where a pattern was found, and where the capture group asked for lies, if it took part. -/
structure Match where
  span : Interval
  group : Option Interval
  deriving DecidableEq

end FencedCode
