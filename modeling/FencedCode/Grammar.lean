import FencedCode.Error
import FencedCode.Pattern.Parse
import FencedCode.Pattern.Search

namespace FencedCode

inductive Kind where
  | comment
  | string
  | character
  | number
  | keyword
  | typeName
  | function
  | operator
  | punctuation
  | preprocessor
  | macroCall
  | constant
  | special
  | attr
  | lifetime
  | moduleName
  | label
  | plain
  deriving DecidableEq, Repr

namespace Kind

def all : List Kind :=
  [comment, string, character, number, keyword, typeName, function, operator, punctuation,
    preprocessor, macroCall, constant, special, attr, lifetime, moduleName, label, plain]

def name : Kind → String
  | comment => "Comment"
  | string => "String"
  | character => "Char"
  | number => "Number"
  | keyword => "Keyword"
  | typeName => "Type"
  | function => "Function"
  | operator => "Operator"
  | punctuation => "Punctuation"
  | preprocessor => "Preprocessor"
  | macroCall => "Macro"
  | constant => "Constant"
  | special => "Special"
  | attr => "Attribute"
  | lifetime => "Lifetime"
  | moduleName => "Module"
  | label => "Label"
  | plain => "Default"

def ofName? (name : String) : Option Kind := all.find? fun k => k.name == name

end Kind

structure Span where
  start : Nat
  stop : Nat
  kind : Kind
  deriving DecidableEq, Repr

def Span.between (start stop : Nat) (kind : Kind) : List Span :=
  if start < stop then [⟨start, stop, kind⟩] else []

structure PatternRule where
  name : String
  pattern : Automaton
  kind : Kind
  /-- Of rules that match at one place the one with the higher priority counts. -/
  priority : Int
  /-- The capture group that makes the span; the rest of the match is context. Zero is the whole. -/
  group : Nat := 0

structure MultilineRule where
  name : String
  opener : Automaton
  closer : Automaton
  kind : Kind
  /-- Names the construct in the state of a line that ends inside it. -/
  id : Nat
  /-- A closing match right after an odd number of these does not count. -/
  escape : Option Char := none

/-- Where a line ends: inside the multi-line construct with this number, or, with zero, in none. -/
structure LineState where
  id : Nat := 0
  deriving DecidableEq, Repr

def LineState.isInside (s : LineState) : Bool := s.id != 0

def LineState.isNormal (s : LineState) : Bool := s.id == 0

structure Grammar where
  id : String
  /-- By falling priority; of equal priority in the order they were added. -/
  patterns : List PatternRule := []
  /-- In the order they were added. -/
  multilines : List MultilineRule := []

namespace PatternRule

def token (r : PatternRule) (m : Match) : Option Interval :=
  if r.group = 0 then some m.span else m.group

/-- The span of the first token at or after an offset. Only the first match is looked at: if the
group that makes the token took no part in it, there is none. -/
def find (r : PatternRule) (t : Text) (start : Nat) : Option Interval :=
  if start < Text.size t then (r.pattern.findGroup r.group t start).bind r.token else none

end PatternRule

namespace MultilineRule

def findOpen (r : MultilineRule) (t : Text) (start : Nat) : Option Interval :=
  if start < Text.size t then r.opener.find t start else none

/-- An odd number of escape characters stands right before `pos`, looking back to `back` at most. -/
def isEscaped (r : MultilineRule) (t : Text) (back pos : Nat) : Bool :=
  match r.escape with
  | none => false
  | some e => ((Text.drop (Text.take t pos) back).reverse.takeWhile (· == e)).length % 2 == 1

def closeFrom (r : MultilineRule) (t : Text) (back pos : Nat) : Option Nat :=
  if pos < Text.size t then
    match r.closer.find t pos with
    | none => none
    | some m =>
      if r.isEscaped t back m.lo then r.closeFrom t back (max m.hi (pos + 1)) else some m.hi
  else none
termination_by Text.size t - pos

def findClose (r : MultilineRule) (t : Text) (start : Nat) : Option Nat := r.closeFrom t start start

end MultilineRule

namespace Grammar

def addPattern (g : Grammar) (r : PatternRule) : Grammar :=
  { g with patterns := (g.patterns ++ [r]).mergeSort fun a b => b.priority ≤ a.priority }

def addMultiline (g : Grammar) (r : MultilineRule) : Grammar :=
  { g with multilines := g.multilines ++ [r] }

def multiline? (g : Grammar) (s : LineState) : Option MultilineRule :=
  g.multilines.find? fun r => r.id == s.id

inductive Candidate where
  /-- A multi-line construct, with the end of its opening match. -/
  | multiline (rule : MultilineRule) (opened : Nat)
  /-- A construct within the line, with its end. -/
  | pattern (rule : PatternRule) (stop : Nat)

/-- The entry with the least offset; of several, the first. -/
def earliest {α : Type} : List (Nat × α) → Option (Nat × α)
  | [] => none
  | e :: es =>
    match earliest es with
    | none => some e
    | some f => if f.1 < e.1 then some f else some e

structure Outlook where
  openers : List (MultilineRule × Option Match)
  patterns : List (PatternRule × Option Match)

def outlook (g : Grammar) (t : Text) (pos : Nat) : Outlook where
  openers := g.multilines.map fun r => (r, r.opener.findGroup 0 t pos)
  patterns := g.patterns.map fun r => (r, r.pattern.findGroup r.group t pos)

namespace Outlook

/-- What lies ahead of a later offset. Only matches that start before it are looked for again: any
other is still the first. -/
def advance (o : Outlook) (t : Text) (pos : Nat) : Outlook where
  openers := o.openers.map fun (r, m) => (r, r.opener.findNext 0 t pos m)
  patterns := o.patterns.map fun (r, m) => (r, r.pattern.findNext r.group t pos m)

/-- The next construct. Of several that start at one place a multi-line one comes first, then the
patterns by priority; empty matches of patterns do not count. -/
def next? (o : Outlook) : Option (Nat × Candidate) :=
  earliest <|
    (o.openers.filterMap fun (r, m) => m.map fun m => (m.span.lo, .multiline r m.span.hi)) ++
    (o.patterns.filterMap fun (r, m) => (m.bind r.token).bind fun i =>
      if i.lo < i.hi then some (i.lo, .pattern r i.hi) else none)

/-- The spans of a line from an offset on, with what lies ahead of it, and the state the line ends
in. There is no answer when a construct ends where the search for it began: the search would never
get past it. -/
def spans (o : Outlook) (t : Text) (pos : Nat) : Option (List Span × LineState) :=
  if pos < Text.size t then
    match o.next? with
    | none => some (Span.between pos (Text.size t) .plain, {})
    | some (start, .multiline rule opened) =>
      match rule.findClose t opened with
      | none =>
        let covered := Span.between start (Text.size t) rule.kind
        some (Span.between pos start .plain ++ covered, ⟨rule.id⟩)
      | some stop =>
        if pos < stop then
          ((o.advance t stop).spans t stop).map fun (spans, state) =>
            (Span.between pos start .plain ++ Span.between start stop rule.kind ++ spans, state)
        else none
    | some (start, .pattern rule stop) =>
      if pos < stop then
        ((o.advance t stop).spans t stop).map fun (spans, state) =>
          (Span.between pos start .plain ++ Span.between start stop rule.kind ++ spans, state)
      else none
  else some ([], {})
termination_by Text.size t - pos

end Outlook

def spansFrom (g : Grammar) (t : Text) (pos : Nat) : Option (List Span × LineState) :=
  (g.outlook t pos).spans t pos

def highlightLine (g : Grammar) (t : Text) (state : LineState) : Option (List Span × LineState) :=
  match g.multiline? state with
  | none => g.spansFrom t 0
  | some rule =>
    match rule.findClose t 0 with
    | none => some (Span.between 0 (Text.size t) rule.kind, state)
    | some stop =>
      (g.spansFrom t stop).map fun (spans, state) =>
        (Span.between 0 stop rule.kind ++ spans, state)

/-- The spans of consecutive lines, each starting in the state that the one before ends in. -/
def highlightLines (g : Grammar) (state : LineState) :
    List Text → Option (List (List Span × LineState))
  | [] => some []
  | t :: ts => do
    let line ← g.highlightLine t state
    let rest ← g.highlightLines line.2 ts
    return line :: rest

end Grammar

end FencedCode
