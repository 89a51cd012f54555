import FencedCode.Toml.Document

namespace FencedCode.Toml

def isControl (c : Char) : Bool := c.toNat < 0x20 || c.toNat == 0x7f

/-- Length of the longest run of a character, `run` of which have just been passed. -/
def longestRun (q : Char) (run : Nat) : Text → Nat
  | [] => run
  | c :: r => if c = q then longestRun q (run + 1) r else max run (longestRun q 0 r)

def hexDigits (n : Nat) : Text :=
  [n / 4096 % 16, n / 256 % 16, n / 16 % 16, n % 16].map fun d =>
    (Nat.digitChar d).toUpper

/-- How a character is escaped, if it has to be; a line break stands as it is in a text over several
lines. -/
def escapeOf? (severalLines : Bool) (c : Char) : Option Text :=
  match c with
  | '\x08' => some ['\\', 'b']
  | '\t' => some ['\\', 't']
  | '\n' => if severalLines then none else some ['\\', 'n']
  | '\x0c' => some ['\\', 'f']
  | '\r' => some ['\\', 'r']
  | '\\' => some ['\\', '\\']
  | c => if isControl c then some ('\\' :: 'u' :: hexDigits c.toNat) else none

/-- The inside of a basic text. At most `quotes` quotes in a row stand as they are; `run` of them
have just been written. -/
def escaped (severalLines : Bool) (quotes run : Nat) : Text → Text
  | [] => []
  | c :: r =>
    if c = '\x22' then
      if run < quotes then c :: escaped severalLines quotes (run + 1) r
      else '\\' :: c :: escaped severalLines quotes 0 r
    else match escapeOf? severalLines c with
      | some e => e ++ escaped severalLines quotes 0 r
      | none => c :: escaped severalLines quotes 0 r

inductive Quoting where
  | basic
  | literal
  | basicLines
  | literalLines
  deriving DecidableEq

def needsEscape (s : Text) : Bool := s.any fun c => isControl c && c != '\t' && c != '\n'

/-- The first way to quote a text that needs no escapes; if all of them do, that on one line. -/
def quotingOf (s : Text) : Quoting :=
  let newline := s.contains '\n'
  let backslash := s.contains '\\'
  let double := longestRun '\x22' 0 s
  let single := longestRun '\x27' 0 s
  if needsEscape s then if newline then .basicLines else .basic
  else if !backslash && double == 0 && !newline then .basic
  else if single == 0 && !newline then .literal
  else if !backslash && double ≤ 2 then .basicLines
  else if single ≤ 2 then .literalLines
  else if newline then .basicLines
  else .basic

/-- A text in three quotes on each side starts on a line of its own if it has several lines. -/
def lineStart (s : Text) : Text := if s.contains '\n' then ['\n'] else []

def quote : Quoting → Text → Text
  | .basic, s => '\x22' :: escaped false 0 0 s ++ ['\x22']
  | .literal, s => '\x27' :: s ++ ['\x27']
  | .basicLines, s =>
    ['\x22', '\x22', '\x22'] ++ lineStart s ++ escaped true 2 0 s ++ ['\x22', '\x22', '\x22']
  | .literalLines, s =>
    ['\x27', '\x27', '\x27'] ++ lineStart s ++ s ++ ['\x27', '\x27', '\x27']

def writeValue (s : Text) : Text := quote (quotingOf s) s

def writeKey (s : Text) : Text :=
  if !s.isEmpty && s.all isBare then s
  else if s.any fun c => isControl c && c != '\t' then quote .basic s
  else if !s.contains '\\' && !s.contains '\x22' then quote .basic s
  else if !s.contains '\x27' then quote .literal s
  else quote .basic s

def writeEntry (key value : Text) : Text :=
  writeKey key ++ [' ', '=', ' '] ++ writeValue value ++ ['\n']

end FencedCode.Toml
