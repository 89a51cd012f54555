import FencedCode.Toml.Scalar
import FencedCode.Toml.Table

namespace FencedCode.Toml

def isBare (c : Char) : Bool := c.isAlphanum || c == '-' || c == '_'

def simpleKey? : Text → Option (Text × Text)
  | '\x22' :: r => basic? r
  | '\x27' :: r => literal? r
  | s =>
    let name := s.takeWhile isBare
    if name.isEmpty then none else some (name, s.dropWhile isBare)

def keys? (s : Text) : Option (List String × Text) :=
  match simpleKey? (skipSpace s) with
  | none => none
  | some (k, r) =>
    match skipSpace r with
    | '.' :: t =>
      if t.length < s.length then (keys? t).map fun x => (String.ofList k :: x.1, x.2) else none
    | t => some ([String.ofList k], t)
termination_by s.length

/-- How deep values may be nested, and how many parts a key may have. -/
def maxDepth : Nat := 79

def path? (s : Text) : Option (List String × String × Text) :=
  match keys? s with
  | none => none
  | some (ks, r) =>
    if ks.length ≤ maxDepth then ks.getLast?.map fun k => (ks.dropLast, k, r) else none

def skipFiller (s : Text) : Text :=
  match s with
  | ' ' :: r => skipFiller r
  | '\t' :: r => skipFiller r
  | '\n' :: r => skipFiller r
  | '\r' :: '\n' :: r => skipFiller r
  | '#' :: r =>
    match newline? (r.dropWhile isPrintable) with
    | none => '#' :: r
    | some t => if t.length ≤ r.length then skipFiller t else '#' :: r
  | r => r
termination_by s.length

abbrev Reader := Text → Option (Item × Text)

def array? (value : Reader) (s : Text) : Option Text :=
  match skipFiller s with
  | ']' :: r => some r
  | t =>
    match value t with
    | none => none
    | some (_, r) =>
      match skipFiller r with
      | ']' :: r => some r
      | ',' :: r => if r.length < s.length then array? value r else none
      | _ => none
termination_by s.length

def entry? (value : Reader) (s : Text) : Option (Entry × Text) :=
  match path? s with
  | some (path, key, '=' :: r) => (value (skipSpace r)).map fun x => (⟨path, key, x.1⟩, x.2)
  | _ => none

def bracedEntries? (value : Reader) (s : Text) : Option (List Entry × Text) :=
  match entry? value s with
  | none => none
  | some (e, r) =>
    match skipSpace r with
    | '\x7d' :: r => some ([e], r)
    | ',' :: r =>
      if r.length < s.length then (bracedEntries? value r).map fun x => (e :: x.1, x.2) else none
    | _ => none
termination_by s.length

def braced? (value : Reader) (s : Text) : Option (Item × Text) := do
  let (es, r) ← match skipSpace s with
    | '\x7d' :: r => some ([], r)
    | _ => bracedEntries? value s
  return (.braced (← Table.empty.assignAll es), r)

def valueWith? (inner : Reader) : Reader
  | '\x22' :: r => (quoted? ('\x22' :: r)).map fun x => (.text x.1, x.2)
  | '\x27' :: r => (quoted? ('\x27' :: r)).map fun x => (.text x.1, x.2)
  | '[' :: r => (array? inner r).map fun r => (.other, r)
  | '\x7b' :: r => braced? inner r
  | s =>
    match moment? s with
    | some (m, r) => some (.moment m, r)
    | none => (plainValue? s).map fun r => (.other, r)

def flatValue? : Reader
  | '[' :: _ => none
  | '\x7b' :: _ => none
  | s => valueWith? (fun _ => none) s

/-- A value with others nested in it, so many levels deep at most. -/
def value? : Nat → Reader
  | 0 => flatValue?
  | depth + 1 => valueWith? (value? depth)

def lineEnd? (s : Text) : Option Text :=
  let s := match skipSpace s with
    | '#' :: r => r.dropWhile isPrintable
    | r => r
  match s with
  | [] => some []
  | s => newline? s

inductive Statement where
  /-- A header in single brackets, or with `repeated` in double ones. -/
  | header (repeated : Bool) (path : List String) (key : String)
  | entry (e : Entry)

def statement? (s : Text) : Option (Statement × Text) :=
  match s with
  | '[' :: '[' :: r =>
    match path? r with
    | some (path, key, ']' :: ']' :: r) => (lineEnd? r).map fun r => (.header true path key, r)
    | _ => none
  | '[' :: r =>
    match path? r with
    | some (path, key, ']' :: r) => (lineEnd? r).map fun r => (.header false path key, r)
    | _ => none
  | s =>
    match entry? (value? maxDepth) s with
    | some (e, r) => (lineEnd? r).map fun r => (.entry e, r)
    | none => none

def statements? (s : Text) : Option (List Statement) :=
  match skipSpace s with
  | [] => some []
  | t =>
    match lineEnd? t with
    | some r => if r.length < s.length then statements? r else none
    | none =>
      match statement? t with
      | none => none
      | some (st, r) =>
        if r.length < s.length then (statements? r).map (st :: ·) else none
termination_by s.length

structure Section where
  repeated : Bool
  path : List String
  key : String
  entries : List Entry

def sections : List Statement → List Entry × List Section
  | [] => ([], [])
  | .entry e :: ss => (e :: (sections ss).1, (sections ss).2)
  | .header repeated path key :: ss =>
    ([], ⟨repeated, path, key, (sections ss).1⟩ :: (sections ss).2)

def Table.addSection (t : Table) (s : Section) : Option Table :=
  if s.repeated then t.addTables s.path s.key s.entries else t.addTable s.path s.key s.entries

def tableOf? (ss : List Statement) : Option Table := do
  let root ← Table.empty.assignAll (sections ss).1
  (sections ss).2.foldlM Table.addSection root

/-- The table of a document, a byte order mark before it passed over. -/
def document? (s : Text) : Option Table := do
  tableOf? (← statements? (match s with
    | '\ufeff' :: r => r
    | s => s))

end FencedCode.Toml
