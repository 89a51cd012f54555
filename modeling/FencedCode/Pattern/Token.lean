import FencedCode.Pattern
import FencedCode.Text.Blank

namespace FencedCode.Pattern

inductive Token where
  /-- One character of a set, written as an expression nested so deeply. -/
  | one (set : CharSet) (depth : Nat)
  | assertion (a : Assertion)
  | times (min : Nat) (max : Option Nat) (greedy : Bool)
  | openGroup (capturing : Bool)
  | closeGroup
  | bar
  deriving DecidableEq

namespace Token

inductive Escape where
  | char (c : Char)
  | set (s : CharSet)
  | assertion (a : Assertion)

/-- Punctuation stands for itself, except the angle brackets; of letters only some have a meaning,
and digits have none. -/
def Escape.of? (c : Char) : Option Escape :=
  match c with
  | 'd' => some (.set .digit)
  | 'D' => some (.set CharSet.digit.complement)
  | 's' => some (.set .blank)
  | 'S' => some (.set CharSet.blank.complement)
  | 'w' => some (.set .word)
  | 'W' => some (.set CharSet.word.complement)
  | 'b' => some (.assertion .wordBoundary)
  | 'B' => some (.assertion .insideWord)
  | 'A' => some (.assertion .textStart)
  | 'z' => some (.assertion .textEnd)
  | 'a' => some (.char '\x07')
  | 'f' => some (.char '\x0c')
  | 'n' => some (.char '\n')
  | 'r' => some (.char '\r')
  | 't' => some (.char '\t')
  | 'v' => some (.char '\x0b')
  | c => if c.toNat < 0x80 && !c.isAlphanum && c != '<' && c != '>' then some (.char c) else none

/-- A character of a bracket expression, which may begin or end a range, or a set, which may
not. -/
inductive Member where
  | char (c : Char)
  | set (s : CharSet)

def Member.entry : Member → CharSet
  | .char c => .single c
  | .set s => s

def member? : Text → Option (Member × Text)
  | [] => none
  | '\\' :: [] => none
  | '\\' :: c :: cs =>
    match Escape.of? c with
    | some (.char c) => some (.char c, cs)
    | some (.set s) => some (.set s, cs)
    | _ => none
  | c :: cs => some (.char c, cs)

theorem member?_length {s cs : Text} {m : Member} (h : member? s = some (m, cs)) :
    cs.length < s.length := by
  unfold member? at h
  split at h
  · simp at h
  · simp at h
  · split at h <;> simp at h
    · rw [← h.2]; simp only [List.length_cons]; omega
    · rw [← h.2]; simp only [List.length_cons]; omega
  · simp at h; rw [← h.2]; simp

/-- The entries of a bracket expression up to its closing bracket, and what follows that. Two
hyphens, ampersands or tildes in a row and a further opening bracket are not accepted. -/
def items? (acc : List CharSet) (s : Text) : Option (List CharSet × Text) :=
  match s with
  | [] => none
  | ']' :: cs => some (acc.reverse, cs)
  | '[' :: _ => none
  | '-' :: '-' :: _ => none
  | '&' :: '&' :: _ => none
  | '~' :: '~' :: _ => none
  | s =>
    match _h : member? s with
    | none => none
    | some (m, '-' :: ']' :: cs) => items? (m.entry :: acc) ('-' :: ']' :: cs)
    | some (_, '-' :: '-' :: _) => none
    | some (m, '-' :: cs) =>
      match m, _h' : member? cs with
      | .char lo, some (.char hi, cs) =>
        if lo ≤ hi then items? (⟨#[(lo.toNat, hi.toNat)]⟩ :: acc) cs else none
      | _, _ => none
    | some (m, cs) => items? (m.entry :: acc) cs
termination_by s.length
decreasing_by
  · exact member?_length ‹_›
  · have hs := member?_length _h
    have hcs := member?_length _h'
    simp only [List.length_cons] at hs
    omega
  · exact member?_length ‹_›

/-- The hyphens at the start of a bracket expression, which stand for themselves, as does a closing
bracket in the very first place. -/
def leading : Text → List CharSet × Text
  | ']' :: cs => ([.single ']'], cs)
  | cs => ((cs.takeWhile (· == '-')).map .single, cs.dropWhile (· == '-'))

def afterHat (s : Text) : Text := if s.head? = some '^' then s.tail else s

/-- The set of a bracket expression with the given entries, or with `negated` its complement, and
how deeply it is nested: entries nest inside the brackets only if there are several. -/
def bracketed (entries : List CharSet) (negated : Bool) : CharSet × Nat :=
  let set := CharSet.join entries
  (if negated then set.complement else set, if entries.length = 1 then 1 else 2)

def set? (s : Text) : Option ((CharSet × Nat) × Text) :=
  (items? (leading (afterHat s)).1.reverse (leading (afterHat s)).2).map fun r =>
    (bracketed r.1 (s.head? = some '^'), r.2)

def decimal (digits : Text) : Nat :=
  digits.foldl (fun n c => 10 * n + (c.toNat - '0'.toNat)) 0

/-- A decimal number of at most 32 bits with blanks around it, and what follows. -/
def count? (s : Text) : Option (Nat × Text) :=
  match (Text.trimStart s).takeWhile Char.isDigit with
  | [] => none
  | digits =>
    if decimal digits ≤ 0xffffffff then
      some (decimal digits, Text.trimStart ((Text.trimStart s).dropWhile Char.isDigit))
    else none

def counts? (s : Text) : Option (Nat × Option Nat × Text) :=
  match count? s with
  | some (n, '\x7d' :: cs) => some (n, some n, cs)
  | some (n, ',' :: '\x7d' :: cs) => some (n, none, cs)
  | some (n, ',' :: cs) =>
    match count? cs with
    | some (m, '\x7d' :: cs) => if n ≤ m then some (n, some m, cs) else none
    | _ => none
  | _ => none

def lazy (s : Text) : Bool × Text :=
  match s with
  | '?' :: cs => (true, cs)
  | cs => (false, cs)

theorem items?_length {acc is : List CharSet} {s cs : Text} (h : items? acc s = some (is, cs)) :
    cs.length < s.length := by
  fun_induction items? acc s <;> try contradiction
  case case2 =>
    simp only [Option.some.injEq, Prod.mk.injEq] at h
    simp [h.2]
  case case8 hm ih => exact Nat.lt_trans (ih h) (member?_length hm)
  case case10 hm hm' _ _ ih =>
    have hs := member?_length hm
    have hcs := member?_length hm'
    have hr := ih h
    simp only [List.length_cons] at hs
    omega
  case case13 hm ih => exact Nat.lt_trans (ih h) (member?_length hm)

theorem leading_length (s : Text) : (leading s).2.length ≤ s.length := by
  unfold leading
  split
  · simp
  · exact (List.dropWhile_sublist _).length_le

theorem set?_length {s cs : Text} {set : CharSet × Nat} (h : set? s = some (set, cs)) :
    cs.length < s.length := by
  obtain ⟨r, hr, heq⟩ := Option.map_eq_some_iff.1 h
  have h1 := items?_length (show items? _ _ = some (r.1, r.2) from hr)
  have h2 := leading_length (afterHat s)
  have h3 : (afterHat s).length ≤ s.length := by unfold afterHat; split <;> simp
  rw [← (Prod.mk.inj heq).2]
  omega

theorem count?_length {s cs : Text} {n : Nat} (h : count? s = some (n, cs)) :
    cs.length ≤ s.length := by
  unfold count? at h
  split at h
  · contradiction
  · split at h
    · rw [← (Prod.mk.inj (Option.some.inj h)).2]
      exact ((List.dropWhile_sublist _).trans
        ((List.dropWhile_sublist _).trans (List.dropWhile_sublist _))).length_le
    · contradiction

theorem counts?_length {s cs : Text} {n : Nat} {m : Option Nat} (h : counts? s = some (n, m, cs)) :
    cs.length < s.length := by
  unfold counts? at h
  split at h
  · have := count?_length ‹_›
    simp only [Option.some.injEq, Prod.mk.injEq] at h
    simp only [← h.2.2, List.length_cons] at *
    omega
  · have := count?_length ‹_›
    simp only [Option.some.injEq, Prod.mk.injEq] at h
    simp only [← h.2.2, List.length_cons] at *
    omega
  · split at h
    · have h1 := count?_length ‹count? s = _›
      have h2 := count?_length ‹count? _ = some (_, '\x7d' :: _)›
      split at h
      · simp only [Option.some.injEq, Prod.mk.injEq] at h
        simp only [← h.2.2, List.length_cons] at *
        omega
      · contradiction
    · contradiction
  · contradiction

theorem lazy_length (s : Text) : (lazy s).2.length ≤ s.length := by
  unfold lazy; split <;> simp

def scan? (s : Text) : Option (List Token) :=
  match s with
  | [] => some []
  | '\\' :: [] => none
  | '\\' :: c :: cs =>
    match Escape.of? c with
    | some (.char c) => (scan? cs).map (.one (.single c) 0 :: ·)
    | some (.set s) => (scan? cs).map (.one s 0 :: ·)
    | some (.assertion a) => (scan? cs).map (.assertion a :: ·)
    | none => none
  | '[' :: cs =>
    match _h : set? cs with
    | some ((set, depth), cs) => (scan? cs).map (.one set depth :: ·)
    | none => none
  | '(' :: '?' :: ':' :: cs => (scan? cs).map (.openGroup false :: ·)
  | '(' :: '?' :: _ => none
  | '(' :: cs => (scan? cs).map (.openGroup true :: ·)
  | ')' :: cs => (scan? cs).map (.closeGroup :: ·)
  | '|' :: cs => (scan? cs).map (.bar :: ·)
  | '.' :: cs => (scan? cs).map (.one .dot 0 :: ·)
  | '^' :: cs => (scan? cs).map (.assertion .textStart :: ·)
  | '$' :: cs => (scan? cs).map (.assertion .textEnd :: ·)
  | '*' :: cs => (scan? (lazy cs).2).map (.times 0 none (!(lazy cs).1) :: ·)
  | '+' :: cs => (scan? (lazy cs).2).map (.times 1 none (!(lazy cs).1) :: ·)
  | '?' :: cs => (scan? (lazy cs).2).map (.times 0 (some 1) (!(lazy cs).1) :: ·)
  | '\x7b' :: cs =>
    match _h : counts? cs with
    | some (min, max, cs) => (scan? (lazy cs).2).map (.times min max (!(lazy cs).1) :: ·)
    | none => none
  | c :: cs => (scan? cs).map (.one (.single c) 0 :: ·)
termination_by s.length
decreasing_by
  all_goals simp only [List.length_cons]
  all_goals try have := lazy_length cs
  all_goals try have := set?_length _h
  all_goals try have := counts?_length _h
  all_goals omega

end Token
end FencedCode.Pattern
