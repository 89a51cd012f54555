import FencedCode.Text
import FencedCode.Text.Hex

namespace FencedCode.Toml

def isSpace (c : Char) : Bool := c == ' ' || c == '\t'

def skipSpace (s : Text) : Text := s.dropWhile isSpace

/-- Characters that may stand as they are: all but the control characters, tabs allowed. -/
def isPrintable (c : Char) : Bool := c == '\t' || (0x20 ≤ c.toNat && c.toNat != 0x7f)

def newline? : Text → Option Text
  | '\n' :: r => some r
  | '\r' :: '\n' :: r => some r
  | _ => none

def scalar? (digits : Text) : Option Char := do
  let n ← digits.foldlM (fun n c => (Text.hexValue? c).map (16 * n + ·)) 0
  if n.isValidChar then some (Char.ofNat n) else none

def escape? : Text → Option (Char × Text)
  | 'b' :: r => some ('\x08', r)
  | 't' :: r => some ('\t', r)
  | 'n' :: r => some ('\n', r)
  | 'f' :: r => some ('\x0c', r)
  | 'r' :: r => some ('\r', r)
  | '\x22' :: r => some ('\x22', r)
  | '\\' :: r => some ('\\', r)
  | 'u' :: a :: b :: c :: d :: r => (scalar? [a, b, c, d]).map (·, r)
  | 'U' :: a :: b :: c :: d :: e :: f :: g :: h :: r =>
    (scalar? [a, b, c, d, e, f, g, h]).map (·, r)
  | _ => none

theorem escape?_length {s r : Text} {c : Char} (h : escape? s = some (c, r)) :
    r.length < s.length := by
  unfold escape? at h
  split at h <;> first
    | contradiction
    | (obtain ⟨_, -, h⟩ := Option.map_eq_some_iff.1 h
       simp only [Prod.mk.injEq] at h
       simp only [← h.2, List.length_cons]; omega)
    | (simp only [Option.some.injEq, Prod.mk.injEq] at h; simp [h.2])

def basic? (s : Text) : Option (Text × Text) :=
  match s with
  | [] => none
  | '\x22' :: r => some ([], r)
  | '\\' :: r =>
    match _h : escape? r with
    | none => none
    | some (c, r) => (basic? r).map fun x => (c :: x.1, x.2)
  | c :: r => if isPrintable c then (basic? r).map fun x => (c :: x.1, x.2) else none
termination_by s.length
decreasing_by
  · have := escape?_length _h
    simp only [List.length_cons]
    omega
  · simp

def literal? : Text → Option (Text × Text)
  | [] => none
  | '\x27' :: r => some ([], r)
  | c :: r => if isPrintable c then (literal? r).map fun x => (c :: x.1, x.2) else none

/-- Up to two quotes may stand right before the three that close a text over several lines. -/
def lastQuotes (q : Char) : Text → Text × Text
  | a :: b :: r => if a = q then if b = q then ([q, q], r) else ([q], b :: r) else ([], a :: b :: r)
  | [a] => if a = q then ([q], []) else ([], [a])
  | [] => ([], [])

def skipBlank : Text → Text
  | ' ' :: r => skipBlank r
  | '\t' :: r => skipBlank r
  | '\n' :: r => skipBlank r
  | '\r' :: '\n' :: r => skipBlank r
  | r => r

theorem skipBlank_length (s : Text) : (skipBlank s).length ≤ s.length := by
  fun_induction skipBlank s <;> grind

/-- A basic text over several lines. A backslash at the end of a line joins it to the next word. -/
def basicLines? (s : Text) : Option (Text × Text) :=
  match s with
  | [] => none
  | '\x22' :: '\x22' :: '\x22' :: r => some (lastQuotes '\x22' r)
  | '\\' :: r =>
    match _h : escape? r with
    | some (c, r) => (basicLines? r).map fun x => (c :: x.1, x.2)
    | none => if (newline? (skipSpace r)).isSome then basicLines? (skipBlank r) else none
  | '\n' :: r => (basicLines? r).map fun x => ('\n' :: x.1, x.2)
  | '\r' :: '\n' :: r => (basicLines? r).map fun x => ('\n' :: x.1, x.2)
  | c :: r => if isPrintable c then (basicLines? r).map fun x => (c :: x.1, x.2) else none
termination_by s.length
decreasing_by
  · have := escape?_length _h
    simp only [List.length_cons]
    omega
  · have := skipBlank_length r
    simp only [List.length_cons]
    omega
  all_goals
    simp only [List.length_cons]
    omega

def literalLines? : Text → Option (Text × Text)
  | [] => none
  | '\x27' :: '\x27' :: '\x27' :: r => some (lastQuotes '\x27' r)
  | '\n' :: r => (literalLines? r).map fun x => ('\n' :: x.1, x.2)
  | '\r' :: '\n' :: r => (literalLines? r).map fun x => ('\n' :: x.1, x.2)
  | c :: r => if isPrintable c then (literalLines? r).map fun x => (c :: x.1, x.2) else none

def skipNewline (s : Text) : Text := (newline? s).getD s

def quoted? : Text → Option (Text × Text)
  | '\x22' :: '\x22' :: '\x22' :: r => basicLines? (skipNewline r)
  | '\x22' :: r => basic? r
  | '\x27' :: '\x27' :: '\x27' :: r => literalLines? (skipNewline r)
  | '\x27' :: r => literal? r
  | _ => none

end FencedCode.Toml
