import FencedCode.Pattern.Parse

namespace FencedCode

inductive LogLevel where
  | off
  | error
  | warn
  | info
  | debug
  | trace
  deriving DecidableEq, Repr

namespace LogLevel

def rank : LogLevel → Nat
  | off => 0
  | error => 1
  | warn => 2
  | info => 3
  | debug => 4
  | trace => 5

def all : List LogLevel := [off, error, warn, info, debug, trace]

def name : LogLevel → String
  | off => "off"
  | error => "error"
  | warn => "warn"
  | info => "info"
  | debug => "debug"
  | trace => "trace"

def ofText? (s : Text) : Option LogLevel :=
  let digits := if s.head? = some '+' then s.tail else s
  if !digits.isEmpty && digits.all Char.isDigit then
    let n := digits.foldl (fun n c => 10 * n + (c.toNat - 48)) 0
    all.find? (·.rank == n)
  else if s.isEmpty then some error
  else all.find? fun l => l.name.toList == s.map Char.toLower

end LogLevel

structure LogEvent where
  target : Text
  fields : List Text
  level : LogLevel

structure LogField where
  name : Text
  /-- It asks for a value, which only spans are searched for. -/
  hasValue : Bool
  deriving DecidableEq

namespace LogField

def isDecimal (s : Text) : Bool :=
  let isExponent c := c = 'e' ∨ c = 'E'
  let mantissa := s.takeWhile fun c => !isExponent c
  let exponent := s.drop mantissa.length
  let digits := mantissa.filter (· != '.')
  !digits.isEmpty && digits.all Char.isDigit && mantissa.length ≤ digits.length + 1
    && match exponent with
      | [] => true
      | _ :: '+' :: e | _ :: '-' :: e | _ :: e => !e.isEmpty && e.all Char.isDigit

def isNumber (s : Text) : Bool :=
  isDecimal s || ["inf", "infinity", "nan"].contains (String.ofList (s.map Char.toLower))

def isValue (s : Text) : Bool :=
  (match s with
    | '+' :: r => isNumber r
    | _ => false)
  || (Pattern.wellFormed? s).any fun p => !p.asksForWords

def ofText? (s : Text) : Option LogField :=
  match Text.split '=' s with
  | name :: value :: _ => if isValue value then some ⟨name, true⟩ else none
  | _ => if s.isEmpty then none else some ⟨s, false⟩

end LogField

structure LogDirective where
  /-- What their target begins with. -/
  target : Option Text := none
  /-- The span they have to be in, by its name. -/
  span : Option Text := none
  /-- The fields they have to have. -/
  fields : List LogField := []
  level : LogLevel := .trace
  deriving DecidableEq

namespace LogDirective

inductive Part where
  | start
  /-- A level or a target, which reaches from the start on. -/
  | name
  | span (start : Nat)
  | field (start : Nat)
  /-- What follows the fields. -/
  | fieldsEnd
  /-- What follows the brackets around span and fields. -/
  | spanEnd
  | level (start : Nat)

/-- A level after an equals sign; none means all of it. -/
def levelAfter? (s : Text) : Option LogLevel :=
  if s.isEmpty then some .trace else LogLevel.ofText? s

/-- Reads a directive character by character. Its parts are cut out of `whole`, the text with its
leading blanks, at the offsets found without them. -/
def read? (whole : Text) (d : LogDirective) (part : Part) (offset : Nat) :
    Text → Option LogDirective
  | [] =>
    match part with
    | .name =>
      match LogLevel.ofText? whole with
      | some level => some { d with level }
      | none => some { d with target := some whole }
    | .level start => (levelAfter? (Text.drop whole start)).map fun level => { d with level }
    | .spanEnd => some d
    | _ => none
  | c :: cs =>
    let before := Text.take whole offset
    let after := offset + c.utf8Size
    match part, c with
    | .start, '[' => read? whole d (.span after) after cs
    | .start, c =>
      if c = '-' ∨ c = ':' ∨ c = '_' ∨ Text.isAlphanumeric c then read? whole d .name after cs
      else none
    | .name, '=' => read? whole { d with target := some before } (.level after) after cs
    | .name, '[' => read? whole { d with target := some before } (.span after) after cs
    | .name, _ => read? whole d .name after cs
    | .span start, ']' =>
      read? whole { d with span := some (Text.drop before start) } .spanEnd after cs
    | .span start, '\x7b' =>
      let name := Text.drop before start
      let span := if name.isEmpty then none else some name
      read? whole { d with span } (.field after) after cs
    | .span start, _ => read? whole d (.span start) after cs
    | .field start, '\x7d' =>
      match LogField.ofText? (Text.drop before start) with
      | some f => read? whole { d with fields := d.fields ++ [f] } .fieldsEnd after cs
      | none => none
    | .field start, _ => read? whole d (.field start) after cs
    | .fieldsEnd, ']' => read? whole d .spanEnd after cs
    | .spanEnd, '=' => read? whole d (.level after) after cs
    | .level start, _ => read? whole d (.level start) after cs
    | _, _ => none

/-- A directive as it is written: a level, a target, or both with an equals sign between them, and
perhaps the name of a span and a field in brackets after the target. -/
def ofText? (s : Text) : Option LogDirective := read? s {} .start 0 (Text.trim s)

/-- It is about events wherever they happen. Spans, and values of fields, are never asked about when
an event is written outside all spans. -/
def isStatic (d : LogDirective) : Bool := d.span.isNone && d.fields.all fun f => !f.hasValue

def concerns (d : LogDirective) (e : LogEvent) : Bool :=
  (d.target.getD []).isPrefixOf e.target && d.fields.all fun f => e.fields.contains f.name

def outranks (d e : LogDirective) : Bool :=
  let length (d : LogDirective) := (d.target.map (Text.size · + 1)).getD 0
  let names (d : LogDirective) := d.fields.map fun f => String.ofList f.name
  length e < length d
    || (length e = length d && (e.fields.length < d.fields.length
      || (e.fields.length = d.fields.length && !(names d).lex (names e) (· < ·))))

end LogDirective

/-- Directives of a filter; of two that are alike but for the level the later counts. -/
abbrev LogFilter := List LogDirective

namespace LogFilter

def ofText? (s : Text) : Option LogFilter := do
  let ds ← ((Text.split ',' s).filter fun p => !p.isEmpty).mapM LogDirective.ofText?
  return if ds.isEmpty then [{ level := .error }] else ds

def standard : LogFilter :=
  [{ level := .warn }, { target := some "fencelight".toList, level := .info }]

def directive? (f : LogFilter) (e : LogEvent) : Option LogDirective :=
  (f.filter fun d => d.isStatic && d.concerns e).foldl
    (fun best d =>
      match best with
      | none => some d
      | some b => if d.outranks b then some d else some b)
    none

def enabled (f : LogFilter) (e : LogEvent) : Bool :=
  (f.directive? e).any fun d => e.level.rank ≤ d.level.rank

/-- The filter of the first value that is not blank; the standard one if there is none or it is
malformed. -/
def choose (values : List (Option String)) : LogFilter :=
  let given := values.filterMap fun v => v.map fun s => Text.trim s.toList
  match given.find? fun s => !s.isEmpty with
  | none => standard
  | some s => (ofText? s).getD standard

end LogFilter

end FencedCode
