import FencedCode.Text

namespace FencedCode.Toml

mutual
/-- What a key stands for. Numbers, booleans and arrays are not kept. -/
inductive Item where
  | text (s : Text)
  /-- A date, a time or both. -/
  | moment (s : Text)
  /-- A number, a boolean or an array. -/
  | other
  /-- A table within braces. -/
  | braced (t : Table)
  | table (t : Table)
  /-- The tables under headers in double brackets. -/
  | tables (ts : List Table)
inductive Table where
  /-- With `implied`, no header names the table; with `dotted`, a dotted key made it. -/
  | mk (implied dotted : Bool) (entries : List (String × Item))
end

namespace Table

def implied : Table → Bool
  | mk implied _ _ => implied

def dotted : Table → Bool
  | mk _ dotted _ => dotted

def entries : Table → List (String × Item)
  | mk _ _ entries => entries

def empty : Table := mk false false []

def get? (t : Table) (key : String) : Option Item := t.entries.lookup key

def put (key : String) (item : Item) : List (String × Item) → List (String × Item)
  | [] => [(key, item)]
  | e :: es => if e.1 = key then (key, item) :: es else e :: put key item es

def set (t : Table) (key : String) (item : Item) : Table :=
  mk t.implied t.dotted (put key item t.entries)

/-- Changes the table at the end of a path. Tables missing on the way are made; the last of several
tables stands for all; a dotted key may not lead through a table that has a header. -/
def update (viaDots : Bool) (change : Table → Option Table) : List String → Table → Option Table
  | [], t => change t
  | key :: path, t =>
    match t.get? key with
    | none => (update viaDots change path (mk true viaDots [])).map fun c => t.set key (.table c)
    | some (.table c) =>
      if viaDots && !c.implied then none
      else (update viaDots change path c).map fun c => t.set key (.table c)
    | some (.tables ts) =>
      match ts.getLast? with
      | none => none
      | some last =>
        (update viaDots change path last).map fun c => t.set key (.tables (ts.dropLast ++ [c]))
    | some _ => none

/-- Sets the item of a dotted key, which must be new. -/
def assign (t : Table) (path : List String) (key : String) (item : Item) : Option Table :=
  t.update true
    (fun c =>
      if c.dotted == path.isEmpty then none
      else match c.get? key with
        | none => some (c.set key item)
        | some _ => none)
    path

end Table

structure Entry where
  path : List String
  key : String
  item : Item

namespace Table

def assignAll (t : Table) (es : List Entry) : Option Table :=
  es.foldlM (fun t e => t.assign e.path e.key e.item) t

/-- Adds the table under a header in single brackets. It may have come up before as part of the path
of another header only. -/
def addTable (root : Table) (path : List String) (key : String) (es : List Entry) : Option Table :=
  root.update false
    (fun parent =>
      match parent.get? key with
      | none => (empty.assignAll es).map fun t => parent.set key (.table t)
      | some (.table t) =>
        if t.implied && !t.dotted then
          ((mk false false t.entries).assignAll es).map fun t => parent.set key (.table t)
        else none
      | some _ => none)
    path

def addTables (root : Table) (path : List String) (key : String) (es : List Entry) : Option Table :=
  root.update false
    (fun parent =>
      match parent.get? key with
      | none => (empty.assignAll es).map fun t => parent.set key (.tables [t])
      | some (.tables ts) =>
        (empty.assignAll es).map fun t => parent.set key (.tables (ts ++ [t]))
      | some _ => none)
    path

end Table

end FencedCode.Toml
