import FencedCode.Grammar

namespace FencedCode

structure PatternSource where
  name : String
  pattern : String
  kind : Kind
  priority : Int
  group : Nat

namespace PatternSource

def whole (name pattern : String) (kind : Kind) (priority : Int) : PatternSource :=
  ⟨name, pattern, kind, priority, 0⟩

def captured (name pattern : String) (kind : Kind) (priority : Int) : PatternSource :=
  ⟨name, pattern, kind, priority, 1⟩

def words (name : String) (ws : List String) (kind : Kind) (priority : Int) : PatternSource :=
  whole name ("\\b(" ++ String.intercalate "|" ws ++ ")\\b") kind priority

end PatternSource

structure MultilineSource where
  name : String
  opener : String
  closer : String
  kind : Kind
  id : Nat
  escape : Option Char

namespace MultilineSource

def plain (name opener closer : String) (kind : Kind) (id : Nat) : MultilineSource :=
  ⟨name, opener, closer, kind, id, none⟩

def escaped (name opener closer : String) (kind : Kind) (id : Nat) : MultilineSource :=
  ⟨name, opener, closer, kind, id, some '\\'⟩

end MultilineSource

structure GrammarSource where
  id : String
  aliases : List String
  multilines : List MultilineSource
  patterns : List PatternSource

namespace Pattern

def compile (s : String) : Except Error Automaton :=
  match ofText? s.toList with
  | some p => .ok p.automaton
  | none => .error (.malformedPattern s)

end Pattern

def PatternSource.compile (s : PatternSource) : Except Error PatternRule := do
  return {
    name := s.name, pattern := ← Pattern.compile s.pattern, kind := s.kind,
    priority := s.priority, group := s.group }

def MultilineSource.compile (s : MultilineSource) : Except Error MultilineRule := do
  return {
    name := s.name, opener := ← Pattern.compile s.opener, closer := ← Pattern.compile s.closer,
    kind := s.kind, id := s.id, escape := s.escape }

/-- The grammar with all rules added in the order written, unless a pattern is malformed. -/
def GrammarSource.compile (s : GrammarSource) : Except Error Grammar := do
  let multilines ← s.multilines.mapM (·.compile)
  let patterns ← s.patterns.mapM (·.compile)
  return patterns.foldl .addPattern (multilines.foldl .addMultiline { id := s.id })

end FencedCode
