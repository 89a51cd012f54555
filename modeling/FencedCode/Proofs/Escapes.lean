import FencedCode.Proofs.Bundled
import FencedCode.Proofs.Leftmost
import Mathlib.Data.List.Induction

namespace FencedCode

namespace Text

/-- Whether the character behind a text is passed over: it follows an `e` that is not itself passed
over. -/
def escapes (e : Char) (t : Text) : Bool := t.foldl (fun skip c => !skip && c == e) false

/-- Reads a text from left to right, from an offset on. The character after an `e` is skipped, and
just past the first `d` that is not skipped the reading stops. -/
def firstUnescaped (e d : Char) (skip : Bool) (pos : Nat) : Text → Option Nat
  | [] => none
  | c :: cs =>
    if skip then firstUnescaped e d false (pos + c.utf8Size) cs
    else if c = d then some (pos + c.utf8Size)
    else firstUnescaped e d (c == e) (pos + c.utf8Size) cs

variable {e d : Char}

theorem escapes_concat (e : Char) (t : Text) (c : Char) :
    escapes e (t ++ [c]) = (!escapes e t && c == e) := by
  simp [escapes, List.foldl_append]

/-- A run of escape characters escapes what follows if their number is odd. -/
theorem escapes_eq (e : Char) (t : Text) :
    escapes e t = ((t.reverse.takeWhile (· == e)).length % 2 == 1) := by
  induction t using List.reverseRecOn with
  | nil => rfl
  | append_singleton t c ih =>
    rw [escapes_concat, ih, List.reverse_concat, List.takeWhile_cons]
    by_cases hc : c = e
    · simp only [hc, BEq.rfl, Bool.and_true, if_true, List.length_cons]
      rcases Nat.mod_two_eq_zero_or_one (t.reverse.takeWhile (· == e)).length with h | h
      · simp [h, Nat.add_mod]
      · simp [h, Nat.add_mod]
    · simp [hc]

/-- One character further, the reading has stopped, or knows whether the next is passed over. -/
theorem firstUnescaped_cons (u : Text) (pos : Nat) (c : Char) (v : Text) :
    firstUnescaped e d (escapes e u) pos (c :: v) =
      if c = d ∧ escapes e u = false then some (pos + c.utf8Size)
      else firstUnescaped e d (escapes e (u ++ [c])) (pos + c.utf8Size) v := by
  rw [firstUnescaped, escapes_concat]
  cases escapes e u with
  | true => simp
  | false => simp

theorem firstUnescaped_append (u : Text) {w : Text} (hd : d ∉ w) (pos : Nat) (z : Text) :
    firstUnescaped e d (escapes e u) pos (w ++ z) =
      firstUnescaped e d (escapes e (u ++ w)) (pos + size w) z := by
  induction w generalizing u pos with
  | nil => simp [size]
  | cons c w ih =>
    obtain ⟨hc, hw⟩ : d ≠ c ∧ d ∉ w := by simpa using hd
    have hsize : pos + size (c :: w) = pos + c.utf8Size + size w := (Nat.add_assoc _ _ _).symm
    rw [List.cons_append, firstUnescaped_cons, if_neg fun h => hc h.1.symm, ih _ hw, hsize,
      List.append_assoc, List.singleton_append]

theorem firstUnescaped_eq_none_iff (u : Text) (pos : Nat) (v : Text) :
    firstUnescaped e d (escapes e u) pos v = none ↔
      ∀ w z, v = w ++ d :: z → escapes e (u ++ w) := by
  induction v generalizing u pos with
  | nil => simp [firstUnescaped]
  | cons c v ih =>
    rw [firstUnescaped_cons]
    split_ifs with hstop
    · obtain ⟨rfl, hu⟩ := hstop
      refine iff_of_false not_false fun h => ?_
      have hskip := h [] v rfl
      rw [List.append_nil, hu] at hskip
      cases hskip
    · rw [ih]
      constructor
      · intro h w z hw
        cases w with
        | nil =>
          obtain ⟨rfl, -⟩ := List.cons.inj hw
          simpa using hstop
        | cons c' w =>
          obtain ⟨rfl, hv⟩ := List.cons.inj hw
          simpa using h w z hv
      · intro h w z hw
        simpa using h (c :: w) z (by rw [hw, List.cons_append])

end Text

namespace MultilineRule

variable {r : MultilineRule} {e d : Char}

theorem isEscaped_eq (hescape : r.escape = some e) {t x w z : Text} (ht : t = x ++ w ++ z) :
    r.isEscaped t (Text.size x) (Text.size (x ++ w)) = Text.escapes e w := by
  unfold isEscaped
  rw [hescape, ht, Text.take_append_size, Text.drop_append_size, Text.escapes_eq]

/-- The search from one delimiter to the next goes as the reading does: with `x` in front of the
construct and `u` read of it. -/
theorem closeFrom_eq (hescape : r.escape = some e) (hcloser : r.closer.Spells d)
    {t x u v : Text} (ht : t = x ++ u ++ v) :
    r.closeFrom t (Text.size x) (Text.size (x ++ u)) =
      Text.firstUnescaped e d (Text.escapes e u) (Text.size (x ++ u)) v := by
  induction hn : v.length using Nat.strong_induction_on generalizing u v with
  | _ n ih =>
    rw [closeFrom]
    by_cases hmem : d ∈ v
    · obtain ⟨y, z, rfl, hd⟩ := List.eq_append_cons_of_mem hmem
      have hstart : Text.size (x ++ u ++ y) = Text.size (x ++ u) + Text.size y :=
        Text.size_append _ _
      have hstop : Text.size (x ++ u ++ y ++ [d]) = Text.size (x ++ u ++ y) + d.utf8Size :=
        Text.size_append _ _
      have hpos := d.utf8Size_pos
      have hrest : Text.size (d :: z) = d.utf8Size + Text.size z := rfl
      have hlt : Text.size (x ++ u) < Text.size t := by
        rw [ht, Text.size_append (x ++ u), Text.size_append y]
        omega
      have hescaped := isEscaped_eq hescape (show t = x ++ (u ++ y) ++ d :: z by simp [ht])
      rw [← List.append_assoc] at hescaped
      obtain ⟨m, hm, hlo, hhi⟩ :=
        hcloser.find_of_mem (show t = x ++ u ++ y ++ d :: z by simp [ht]) hd
      rw [if_pos hlt, hm]
      dsimp only
      rw [hlo, hhi, max_eq_left (by omega), hescaped, Text.firstUnescaped_append u hd,
        Text.firstUnescaped_cons, ← hstart, ← hstop]
      cases hskip : Text.escapes e (u ++ y) with
      | true =>
        -- the search goes on behind the delimiter, which is no escape character
        have hread := ih z.length (by simp [← hn]; omega)
          (show t = x ++ (u ++ y ++ [d]) ++ z by simp [ht]) rfl
        rw [← List.append_assoc, ← List.append_assoc] at hread
        simpa using hread
      | false => simp
    · rw [hcloser.find_of_notMem ht hmem]
      have hnone := Text.firstUnescaped_append (e := e) u hmem (Text.size (x ++ u)) []
      rw [List.append_nil] at hnone
      rw [hnone]
      split_ifs <;> rfl

/-- A construct that ends with a character `d`, unless it is escaped with `e`, ends where the
reading from left to right stops, and it is left open if each `d` ahead is passed over. -/
theorem findClose_eq_firstUnescaped (hescape : r.escape = some e) (hcloser : r.closer.Spells d)
    {t : Text} {start : Nat} (hstart : t.isBoundary start) :
    r.findClose t start = Text.firstUnescaped e d false start (Text.drop t start) ∧
      (r.findClose t start = none ↔
        ∀ w z, Text.drop t start = w ++ d :: z → Text.escapes e w) := by
  obtain ⟨x, y, rfl, rfl⟩ := Text.isBoundary_iff.1 hstart
  have hread : r.findClose (x ++ y) (Text.size x) =
      Text.firstUnescaped e d (Text.escapes e []) (Text.size x) y := by
    have hclose := closeFrom_eq hescape hcloser (show x ++ y = x ++ [] ++ y by simp)
    rwa [List.append_nil] at hclose
  rw [Text.drop_append_size]
  refine ⟨hread, ?_⟩
  rw [hread, Text.firstUnescaped_eq_none_iff]
  rfl

def string : MultilineRule where
  name := "string"
  opener := (Pattern.one (.single '"')).automaton
  closer := (Pattern.one (.single '"')).automaton
  kind := .string
  id := 2
  escape := some '\\'

theorem findClose_eq_firstUnescaped_quotes :
    (MultilineSource.escaped "string" "\"" "\"" .string 2).compile = .ok string ∧
      string.findClose "é\\\"\\\\\" \"".toList 2 = some 7 ∧
      string.findClose "é\\\"\\".toList 2 = none := by
  have hcloser : string.closer.Spells '"' := Automaton.spells_single '"'
  have hclosed : Text.isBoundary "é\\\"\\\\\" \"".toList 2 := by decide
  have hopen : Text.isBoundary "é\\\"\\".toList 2 := by decide
  refine ⟨by with_unfolding_all rfl, ?_, ?_⟩
  · exact (findClose_eq_firstUnescaped rfl hcloser hclosed).1.trans (by decide)
  · exact (findClose_eq_firstUnescaped rfl hcloser hopen).1.trans (by decide)

end MultilineRule

namespace Catalog

theorem escaped_closers : ∀ s ∈ sources, ∀ m ∈ s.multilines, ∀ e ∈ m.escape,
    ∃ d ∈ ['"', '`', '\''], m.closer = String.singleton d ∧ d ≠ e := by
  -- a decision of the statement itself might go through all characters
  have hclosers : sources.all fun s => s.multilines.all fun m => m.escape.all fun e =>
      ['"', '`', '\''].any fun d => m.closer == String.singleton d && d != e := by
    decide
  simpa only [List.all_eq_true, Option.all_eq_true, List.any_eq_true, Bool.and_eq_true, beq_iff_eq,
    bne_iff_ne, Option.mem_def] using hclosers

theorem compile_closers : ∀ d ∈ ['"', '`', '\''],
    Pattern.compile (String.singleton d) = .ok (Pattern.one (.single d)).automaton := by
  simp only [List.forall_mem_cons]
  refine ⟨?_, ?_, ?_, List.forall_mem_nil _⟩
  all_goals with_unfolding_all rfl

/-- The closing pattern of an escaped construct in a bundled grammar is one character, and not the
one that escapes. -/
theorem closer_spells {id : String} {g : Grammar} (h : compile id = .ok g) {r : MultilineRule}
    (hr : r ∈ g.multilines) {e : Char} (he : r.escape = some e) :
    ∃ d, d ≠ e ∧ r.closer.Spells d := by
  obtain ⟨s, hs, hg⟩ := exists_source h
  obtain ⟨m, hm, hmr⟩ := s.exists_multiline hg hr
  obtain ⟨-, hcloser, hescape⟩ := MultilineSource.compile_eq_ok hmr
  obtain ⟨d, hd, hd', hne⟩ := escaped_closers s hs m hm e (hescape ▸ he)
  rw [hd', compile_closers d hd] at hcloser
  exact ⟨d, hne, Except.ok.inj hcloser ▸ Automaton.spells_single d⟩

end Catalog

end FencedCode
