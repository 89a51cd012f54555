import FencedCode.Toml.Quoted

namespace FencedCode.Toml

def isDigitOf (base : Nat) (c : Char) : Bool := (Text.hexValue? c).any (· < base)

def moreDigits? (base : Nat) : Text → Option (Text × Text)
  | [] => some ([], [])
  | '_' :: [] => none
  | '_' :: c :: r =>
    if isDigitOf base c then (moreDigits? base r).map fun x => (c :: x.1, x.2) else none
  | c :: r =>
    if isDigitOf base c then (moreDigits? base r).map fun x => (c :: x.1, x.2)
    else some ([], c :: r)

def digits? (base : Nat) : Text → Option (Text × Text)
  | [] => none
  | c :: r => if isDigitOf base c then (moreDigits? base r).map fun x => (c :: x.1, x.2) else none

/-- Digits of a decimal number, which has no leading zero unless it is zero. -/
def decimal? : Text → Option (Text × Text)
  | '0' :: r => some (['0'], r)
  | r => digits? 10 r

def sign : Text → Bool × Text
  | '-' :: r => (true, r)
  | '+' :: r => (false, r)
  | r => (false, r)

def valueOf (base : Nat) (digits : Text) : Nat :=
  digits.foldl (fun n c => base * n + (Text.hexValue? c).getD 0) 0

def maxInteger : Nat := 0x7fffffffffffffff

/-- An integer of 64 bits. Only decimal ones may have a sign. -/
def integer? (s : Text) : Option Text :=
  let based (base : Nat) (r : Text) : Option Text := do
    let (ds, r) ← digits? base r
    if valueOf base ds ≤ maxInteger then some r else none
  match s with
  | '0' :: 'x' :: r => based 16 r
  | '0' :: 'o' :: r => based 8 r
  | '0' :: 'b' :: r => based 2 r
  | s => do
    let (negative, r) := sign s
    let (ds, r) ← decimal? r
    if valueOf 10 ds ≤ maxInteger + (if negative then 1 else 0) then some r else none

def exponent? : Text → Option (Int × Text)
  | c :: r =>
    if c = 'e' ∨ c = 'E' then do
      let (negative, r) := sign r
      let (ds, r) ← digits? 10 r
      let n : Int := valueOf 10 ds
      some (if negative then -n else n, r)
    else none
  | [] => none

/-- Whether `n` times ten to the power `e` is rounded to infinity by a float of 64 bits. -/
def overflows (n : Nat) (e : Int) : Bool :=
  let limit := Nat.pow 2 1024 - Nat.pow 2 970
  let size := (Nat.toDigits 10 n).length + e
  if n = 0 ∨ size < 300 then false
  else if 400 < size then true
  else if 0 ≤ e then limit ≤ n * Nat.pow 10 e.toNat
  else limit * Nat.pow 10 (-e).toNat ≤ n

/-- A float with a fraction or an exponent, or one of the special floats. A positive one must not be
too large. -/
def float? (s : Text) : Option Text :=
  let (negative, r) := sign s
  match r with
  | 'i' :: 'n' :: 'f' :: r => some r
  | 'n' :: 'a' :: 'n' :: r => some r
  | r => do
    let (whole, r) ← decimal? r
    match r with
    | '.' :: r =>
      let (fraction, r) ← digits? 10 r
      let (e, r) ← match r with
        | 'e' :: _ => exponent? r
        | 'E' :: _ => exponent? r
        | r => some (0, r)
      if !negative && overflows (valueOf 10 (whole ++ fraction)) (e - fraction.length) then none
      else some r
    | r =>
      let (e, r) ← exponent? r
      if !negative && overflows (valueOf 10 whole) e then none else some r

def field? (count lo hi : Nat) (s : Text) : Option (Nat × Text) :=
  let ds := s.take count
  let n := valueOf 10 ds
  if ds.length = count ∧ ds.all Char.isDigit ∧ lo ≤ n ∧ n ≤ hi then some (n, s.drop count) else none

def symbol? (c : Char) : Text → Option Text
  | d :: r => if d = c then some r else none
  | [] => none

def daysIn (year month : Nat) : Nat :=
  if month = 2 then
    if year % 4 = 0 ∧ (year % 100 ≠ 0 ∨ year % 400 = 0) then 29 else 28
  else if month = 4 ∨ month = 6 ∨ month = 9 ∨ month = 11 then 30
  else 31

def date? (s : Text) : Option (Text × Text) := do
  let (year, r) ← field? 4 0 9999 s
  let (month, r) ← field? 2 1 12 (← symbol? '-' r)
  let (day, r) ← field? 2 1 31 (← symbol? '-' r)
  if day ≤ daysIn year month then some (s.take 10, r) else none

/-- The fraction of a second down to the ninth digit, without zeros at its end. -/
def fraction (digits : Text) : Text :=
  match ((digits.take 9).reverse.dropWhile (· == '0')).reverse with
  | [] => []
  | ds => '.' :: ds

def time? (s : Text) : Option (Text × Text) := do
  let (_, r) ← field? 2 0 23 s
  let (_, r) ← field? 2 0 59 (← symbol? ':' r)
  let (_, r) ← field? 2 0 60 (← symbol? ':' r)
  match r with
  | '.' :: r =>
    match r.takeWhile Char.isDigit with
    | [] => none
    | ds => some (s.take 8 ++ fraction ds, r.dropWhile Char.isDigit)
  | r => some (s.take 8, r)

/-- The distance of a time from universal time, and what follows; it is not negative if it is
zero. -/
def offset? (s : Text) : Option (Text × Text) := do
  match s with
  | 'Z' :: r => some (['Z'], r)
  | 'z' :: r => some (['Z'], r)
  | c :: r =>
    if c = '+' ∨ c = '-' then
      let (hours, t) ← field? 2 0 23 r
      let (minutes, t) ← field? 2 0 59 (← symbol? ':' t)
      some ((if hours + minutes = 0 then '+' else c) :: r.take 5, t)
    else none
  | [] => none

def moment? (s : Text) : Option (Text × Text) :=
  match date? s with
  | none => time? s
  | some (date, r) =>
    match r with
    | c :: t =>
      if c = 'T' ∨ c = 't' ∨ c = ' ' then
        match time? t with
        | none => some (date, r)
        | some (time, t) =>
          match offset? t with
          | none => some (date ++ 'T' :: time, t)
          | some (offset, t) => some (date ++ 'T' :: time ++ offset, t)
      else some (date, r)
    | [] => some (date, r)

def plainValue? (s : Text) : Option Text :=
  match s with
  | 't' :: 'r' :: 'u' :: 'e' :: r => some r
  | 'f' :: 'a' :: 'l' :: 's' :: 'e' :: r => some r
  | s => float? s <|> integer? s

end FencedCode.Toml
