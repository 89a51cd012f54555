import FencedCode.Pattern

namespace FencedCode

inductive AutomatonState where
  /-- Consumes a character of a set. -/
  | take (set : CharSet) (next : Nat)
  | check (a : Assertion) (next : Nat)
  /-- Goes on to either state, of which the first is to be preferred. -/
  | fork (first second : Nat)
  | enter (group next : Nat)
  | leave (group next : Nat)
  | pass (next : Nat)
  | accept
  deriving DecidableEq

/-- States by their numbers. The first one is where a match starts. -/
abbrev Automaton := Array AutomatonState

namespace Pattern

def size : Pattern → Nat
  | empty => 1
  | one _ => 1
  | assertion _ => 1
  | seq p q => p.size + q.size
  | alt p q => p.size + q.size + 1
  | repeated p 0 none _ => p.size + if p.consumes then 1 else 2
  | repeated p (min + 1) none _ => p.size * (min + 1) + 1
  | repeated p min (some max) _ => p.size * min + (p.size + 1) * (max - min) + 1
  | group _ p => p.size + 2

def fork (greedy : Bool) (more stop : Nat) : AutomatonState :=
  if greedy then .fork more stop else .fork stop more

def times {α : Type} (f : α → α) : Nat → α → α
  | 0, x => x
  | n + 1, x => times f n (f x)

/-- Adds the states of a pattern, the last of which go on to `next`. An unbounded repetition of what
may consume nothing starts with one turn or none, and decides after each turn about another. -/
def layOut : Pattern → Nat → Automaton → Automaton
  | empty, next, a => a.push (.pass next)
  | one set, next, a => a.push (.take set next)
  | assertion c, next, a => a.push (.check c next)
  | seq p q, next, a => q.layOut next (p.layOut (a.size + p.size) a)
  | alt p q, next, a =>
    let first := a.size + 1
    q.layOut next (p.layOut next (a.push (.fork first (first + p.size))))
  | repeated p 0 none greedy, next, a =>
    let first := a.size + 1
    let again := fork greedy first next
    if p.consumes then p.layOut a.size (a.push again)
    else (p.layOut (first + p.size) (a.push again)).push again
  | repeated p (min + 1) none greedy, next, a =>
    let size := p.size
    let a := times (fun a => p.layOut (a.size + size) a) min a
    (p.layOut (a.size + size) a).push (fork greedy a.size next)
  | repeated p min (some max) greedy, next, a =>
    let size := p.size
    let stop := a.size + size * min + (size + 1) * (max - min)
    let a := times (fun a => p.layOut (a.size + size) a) min a
    let a := times
      (fun a => p.layOut (a.size + 1 + size) (a.push (fork greedy (a.size + 1) stop))) (max - min) a
    a.push (.pass next)
  | group i p, next, a =>
    let first := a.size + 1
    (p.layOut (first + p.size) (a.push (.enter i first))).push (.leave i next)

def automaton (p : Pattern) : Automaton := (p.layOut p.size #[]).push .accept

end Pattern

end FencedCode
