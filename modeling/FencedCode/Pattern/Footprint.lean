import FencedCode.Pattern
import FencedCode.Pattern.ByteRange
import Std.Data.HashMap

namespace FencedCode

/-- What has been laid out of an automaton: its states, and the memory they take besides the fixed
part of each. States are numbered from zero in the order they are laid out. -/
structure Footprint where
  states : Nat := 0
  extra : Nat := 0

namespace Footprint

structure Edge where
  range : ByteRange
  next : Nat
  deriving DecidableEq

def bytes (f : Footprint) : Nat := 32 * f.states + f.extra

def limit : Nat := 10 * 1024 * 1024

def add (f : Footprint) (states extra : Nat) : Footprint := ⟨f.states + states, f.extra + extra⟩

def fan (f : Footprint) (edges : Nat) : Footprint := f.add 1 (8 * edges)

def union (f : Footprint) (branches : Nat) : Footprint := f.add 1 (4 * branches)

def mix (hash : UInt64) (n : Nat) : UInt64 := (hash ^^^ n.toUInt64) * 1099511628211

def slot (size : Nat) (key : List Nat) : Nat := (key.foldl mix 14695981039346656037).toNat % size

/-- Remembers states by their edges in so many slots; a newer state displaces an older one. -/
abbrev Memory := Std.HashMap Nat (List Edge × Nat)

def state (size : Nat) (fresh : Footprint → Footprint) (edges : List Edge) (f : Footprint)
    (known : Memory) : Nat × Footprint × Memory :=
  let i := slot size (edges.flatMap fun e => [e.range.1, e.range.2, e.next])
  match known[i]? with
  | some (es, n) =>
    if es = edges then (n, f, known) else (f.states, fresh f, known.insert i (edges, f.states))
  | none => (f.states, fresh f, known.insert i (edges, f.states))

def grouped : List (List ByteRange) → List (ByteRange × List (List ByteRange))
  | [] => []
  | [] :: ss => grouped ss
  | (r :: s) :: ss =>
    match grouped ss with
    | [] => [(r, [s])]
    | (q, ts) :: gs => if r = q then (q, s :: ts) :: gs else (r, [s]) :: (q, ts) :: gs

/-- Lays out the states that read sequences of byte ranges up to the state `target`; equal states
are shared as far as they are remembered. -/
def readers (target : Nat) :
    Nat → List (List ByteRange) → Footprint → Memory → Nat × Footprint × Memory
  | 0, _, f, known => (target, f, known)
  | depth + 1, seqs, f, known =>
    if seqs.all List.isEmpty then (target, f, known)
    else
      let (edges, f, known) := (grouped seqs).foldl
        (fun (edges, f, known) (range, rest) =>
          let (next, f, known) := readers target depth rest f known
          (⟨range, next⟩ :: edges, f, known))
        (([] : List Edge), f, known)
      state 10000 (·.fan edges.length) edges.reverse f known

def sequences (set : CharSet) : List (List ByteRange) :=
  set.ranges.toList.flatMap fun r => ByteRange.sequences r.1 r.2

def forwardSet (f : Footprint) (set : CharSet) : Footprint :=
  (readers f.states 5 (sequences set) (f.add 1 0) {}).2.1

/-- One sequence of byte ranges read backward: a state for each, shared as far as it is
remembered. -/
def chain (target : Nat) (seq : List ByteRange) (f : Footprint) (known : Memory) :
    Footprint × Memory :=
  let (_, f, known) := seq.foldl
    (fun (next, f, known) range =>
      let i := slot 1000 [next, range.1, range.2]
      match known[i]? with
      | some ([e], n) =>
        if e = ⟨range, next⟩ then (n, f, known)
        else (f.states, f.add 1 0, known.insert i ([⟨range, next⟩], f.states))
      | _ => (f.states, f.add 1 0, known.insert i ([⟨range, next⟩], f.states)))
    (target, f, known)
  (f, known)

def backwardSet (f : Footprint) (set : CharSet) : Footprint :=
  let seqs := sequences set
  let target := f.states + 1
  ((seqs.foldl (fun (f, known) seq => chain target seq f known)
    ((f.union seqs.length).add 1 0, {})).1)

end Footprint

inductive Direction where
  | forward
  | backward
  deriving DecidableEq

namespace Footprint

def set (f : Footprint) (d : Direction) (s : CharSet) : Footprint :=
  match s.only? with
  | some n => f.add (CharSet.bytesOf n) 0
  | none =>
    if s.isAscii then (f.add 1 0).fan s.ranges.size
    else match d with
      | .forward => f.forwardSet s
      | .backward => f.backwardSet s

/-- The words of a list without their first byte, by that byte; words that start alike are put
together. -/
def byFirst : List (List Nat) → List (Nat × List (List Nat))
  | [] => []
  | [] :: ws => byFirst ws
  | (b :: w) :: ws =>
    let groups := byFirst ws
    match groups.lookup b with
    | some vs => (b, w :: vs) :: groups.filter (·.1 ≠ b)
    | none => (b, [w]) :: groups

/-- Words cut where one of them ends, except where that tells nothing new. -/
def chunks : List (List Nat) → List (List (List Nat)) :=
  fun ws => go [] [] ws
where
  /-- `done` has the chunks that are complete and `chunk` the words since, both the latest first. -/
  go (done : List (List (List Nat))) (chunk : List (List Nat)) :
      List (List Nat) → List (List (List Nat))
    | [] => (chunk.reverse :: done).reverse
    | [] :: ws =>
      if chunk.isEmpty && !done.isEmpty && done.all List.isEmpty then go done chunk ws
      else go (chunk.reverse :: done) [] ws
    | (b :: w) :: ws => go done ((b :: w) :: chunk) ws

/-- A tree of words, down to a depth: in each node the words that go on, one chunk after the other,
and between two chunks the end of a word. -/
def tree : Nat → List (List Nat) → Footprint → Footprint
  | 0, _, f => f
  | depth + 1, ws, f =>
    if ws.all List.isEmpty then f
    else
      let cs := chunks ws
      let full := cs.filter fun c => !c.isEmpty
      let f := full.foldl
        (fun f c =>
          let groups := byFirst c
          let f := groups.foldl (fun f g => tree depth g.2 f) f
          if groups.length = 1 then f.add 1 0 else f.fan groups.length)
        f
      f.union (full.length + (cs.length - 1))

def words (f : Footprint) (d : Direction) (ws : List (List Nat)) : Footprint :=
  let ws := match d with
    | .forward => ws
    | .backward => ws.map List.reverse
  tree (ws.foldl (fun n w => Nat.max n w.length) 0 + 1) ws (f.add 1 0)

/-- One more alternative has been laid out, as the one with number `nth` from zero: a state to
choose between them comes after the second. -/
def alternative (nth : Nat) (f : Footprint) : Footprint :=
  (if nth = 1 then f.add 2 0 else f).add 0 4

def repeatedly (lay : Footprint → Footprint) : Nat → Footprint → Footprint
  | 0, f => f
  | n + 1, f => if limit < f.bytes then f else repeatedly lay n (lay f)

def copies (uniform : Bool) (lay : Footprint → Footprint) (n : Nat) (f : Footprint) : Footprint :=
  if uniform then
    let one := lay {}
    f.add (n * one.states) (n * one.extra)
  else repeatedly lay n f

end Footprint

namespace Pattern

def isUniform : Pattern → Bool
  | one set => set.only?.isSome || set.isAscii
  | seq p q => p.isUniform && q.isUniform
  | alt p q => p.isUniform && q.isUniform
  | repeated p _ _ _ => p.isUniform
  | group _ p => p.isUniform
  | _ => true

def literalBytes : Pattern → List Nat
  | one set => (set.only?.map ByteRange.encode).getD []
  | seq p q => p.literalBytes ++ q.literalBytes
  | _ => []

def words? (p : Pattern) : Option (List (List Nat)) :=
  if p.alternatives.all isLiteral then some (p.alternatives.map literalBytes) else none

/-- Lays out a pattern. If it is one of several alternatives, `nth` is its number among them, and an
alternative that branches itself stands for those that remain. -/
def lay (d : Direction) : Pattern → Option Nat → Footprint → Footprint
  | empty, nth, f => finish nth (f.add 1 0)
  | one set, nth, f => finish nth (f.set d set)
  | assertion _, nth, f => finish nth (f.add 1 0)
  | seq p q, nth, f =>
    finish nth (match d with
      | .forward => q.lay d none (p.lay d none f)
      | .backward => p.lay d none (q.lay d none f))
  | alt p q, some n, f => q.lay d (some (n + 1)) (p.lay d (some n) f)
  | alt p q, none, f =>
    match words? (alt p q) with
    | some ws => f.words d ws
    | none => q.lay d (some 1) (p.lay d (some 0) f)
  | repeated p 0 (some 1) _, nth, f => finish nth ((p.lay d none (f.union 2)).add 1 0)
  | repeated p 0 none _, nth, f =>
    finish nth (if p.consumes then p.lay d none (f.union 2)
      else (((p.lay d none f).union 2).union 2).add 1 0)
  | repeated p (min + 1) none _, nth, f =>
    finish nth ((Footprint.copies p.isUniform (p.lay d none) (min + 1) f).union 2)
  | repeated p min (some max) _, nth, f =>
    let f := if min = 0 then f.add 1 0 else Footprint.copies p.isUniform (p.lay d none) min f
    finish nth (if min = max then f
      else Footprint.copies p.isUniform (fun f => p.lay d none (f.union 2)) (max - min) (f.add 1 0))
  | group _ p, nth, f =>
    finish nth (match d with
      | .forward => (p.lay d none (f.add 1 0)).add 1 0
      | .backward => p.lay d none f)
where
  finish (nth : Option Nat) (f : Footprint) : Footprint :=
    match nth with
    | none => f
    | some n => f.alternative n

def startsText : Pattern → Bool
  | assertion .textStart => true
  | seq p q => p.startsText || (p.maxLength = some 0 && q.startsText)
  | alt p q => p.startsText && q.startsText
  | repeated p min _ _ => min ≠ 0 && p.startsText
  | group _ p => p.startsText
  | _ => false

def endsText : Pattern → Bool
  | assertion .textEnd => true
  | seq p q => q.endsText || (p.endsText && q.maxLength = some 0)
  | alt p q => p.endsText && q.endsText
  | repeated p min _ _ => min ≠ 0 && p.endsText
  | group _ p => p.endsText
  | _ => false

/-- The whole automaton: first states that pass over what comes before a match, unless it is fixed
where a match starts, then the pattern, and the end. Only forward are captures kept. -/
def footprint (d : Direction) (p : Pattern) : Nat :=
  let start : Footprint := {}
  match d with
  | .forward =>
    let start := if p.startsText then start.add 1 0 else ((start.union 2).add 1 0).fan 1
    ((p.lay d none (start.add 1 0)).add 2 0).bytes
  | .backward =>
    let start := if p.endsText then start.add 1 0 else ((start.union 2).add 1 0).fan 1
    ((p.lay d none start).add 1 0).bytes

/-- More memory than a pattern takes in either direction, quickly found. -/
def footprintBound : Pattern → Nat
  | one set => 128 + (if set.isAscii then 8 else 3000) * set.ranges.size
  | seq p q => p.footprintBound + q.footprintBound
  | alt p q => p.footprintBound + q.footprintBound + 144
  | repeated p min max _ => (p.footprintBound + 64) * (min + max.getD 0 + 2)
  | group _ p => p.footprintBound + 64
  | _ => 32

def fits (p : Pattern) : Bool :=
  p.footprintBound + 256 ≤ Footprint.limit
    || (p.footprint .forward ≤ Footprint.limit && p.footprint .backward ≤ Footprint.limit)

end Pattern

end FencedCode
