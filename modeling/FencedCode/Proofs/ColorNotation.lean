import FencedCode.Color
import Mathlib.Data.Option.Basic
import Mathlib.Tactic.SplitIfs

namespace FencedCode

namespace Text

def IsHexDigit (c : Char) (n : Nat) : Prop :=
  n < 16 ∧ (c = Nat.digitChar n ∨ c = (Nat.digitChar n).toUpper)

instance (c : Char) (n : Nat) : Decidable (IsHexDigit c n) := inferInstanceAs (Decidable (_ ∧ _))

theorem hexValue?_digitChar : ∀ n < 16, hexValue? (Nat.digitChar n) = some n ∧
    hexValue? (Nat.digitChar n).toUpper = some n := by decide

theorem toNat_lt_of_hexValue? {c : Char} {n : Nat} (h : hexValue? c = some n) : c.toNat < 128 := by
  simp only [hexValue?, Char.le_def, UInt32.le_iff_toNat_le] at h
  split_ifs at h with h1 h2 h3
  · exact Nat.lt_of_le_of_lt h1.2 (by decide)
  · exact Nat.lt_of_le_of_lt h2.2 (by decide)
  · exact Nat.lt_of_le_of_lt h3.2 (by decide)

theorem hexValue?_ascii :
    ∀ k < 128, ∀ n ∈ hexValue? (Char.ofNat k), IsHexDigit (Char.ofNat k) n := by
  decide

theorem hexValue?_eq_some_iff {c : Char} {n : Nat} : hexValue? c = some n ↔ IsHexDigit c n := by
  constructor
  · intro h
    have hc := hexValue?_ascii c.toNat (toNat_lt_of_hexValue? h)
    rw [Char.ofNat_toNat] at hc
    exact hc n h
  · rintro ⟨hn, rfl | rfl⟩
    · exact (hexValue?_digitChar n hn).1
    · exact (hexValue?_digitChar n hn).2

end Text

namespace Color

open Text

def TwoDigits (a b : Char) (n : Nat) : Prop :=
  ∃ x y, IsHexDigit a x ∧ IsHexDigit b y ∧ n = 16 * x + y

/-- A channel written in two characters as it is read: in two digits, or as a plus sign and one. -/
def Pair (a b : Char) (n : Nat) : Prop := TwoDigits a b n ∨ a = '+' ∧ IsHexDigit b n

/-- A colour in writing, for a way to write a channel in two characters. -/
inductive Written (channel : Char → Char → Nat → Prop) : Text → Color → Prop
  | long {a a' b b' c c' : Char} {x y z : Nat} (ha : channel a a' x) (hb : channel b b' y)
      (hc : channel c c' z) : Written channel ['#', a, a', b, b', c, c'] ⟨x, y, z⟩
  | short {a b c : Char} {x y z : Nat} (ha : IsHexDigit a x) (hb : IsHexDigit b y)
      (hc : IsHexDigit c z) :
      Written channel ['#', a, b, c] ⟨16 * x + x, 16 * y + y, 16 * z + z⟩

theorem not_isHexDigit_plus (n : Nat) : ¬ IsHexDigit '+' n := by
  rw [← hexValue?_eq_some_iff]
  simp [hexValue?]

theorem channel?_digit (c : Char) : channel? [c] = hexValue? c := by
  simp [channel?]

theorem channel?_eq_some_iff {a b : Char} {n : Nat} : channel? [a, b] = some n ↔ Pair a b n := by
  unfold Pair TwoDigits
  by_cases ha : a = '+'
  · subst ha
    simp [channel?, not_isHexDigit_plus, hexValue?_eq_some_iff]
  · have hread : channel? [a, b] =
        (hexValue? a).bind fun x => (hexValue? b).map (16 * x + ·) := by simp [channel?, ha]
    simp only [hread, Option.bind_eq_some_iff, Option.map_eq_some_iff, hexValue?_eq_some_iff, ha,
      false_and, or_false]
    constructor
    · rintro ⟨x, hx, y, hy, rfl⟩
      exact ⟨x, y, hx, hy, rfl⟩
    · rintro ⟨x, y, hx, hy, rfl⟩
      exact ⟨x, hx, y, hy, rfl⟩

theorem shortChannel?_eq_some_iff {c : Char} {n : Nat} :
    shortChannel? c = some n ↔ ∃ x, IsHexDigit c x ∧ n = 16 * x + x := by
  have hdouble : ∀ x, 17 * x = n ↔ n = 16 * x + x := by omega
  simp only [shortChannel?, channel?_digit, Option.map_eq_some_iff, hexValue?_eq_some_iff, hdouble]

/-- A text is read as a colour exactly if it is one in writing, a plus sign and a digit allowed for
two digits. -/
theorem ofText?_eq_some_iff {s : Text} {c : Color} :
    ofText? s = some c ↔ Written Pair (trim s) c := by
  unfold ofText?
  generalize trim s = t
  constructor
  · intro h
    split at h
    · simp only [Option.bind_eq_bind, Option.bind_eq_some_iff, channel?_eq_some_iff,
        Option.pure_def, Option.some.injEq] at h
      obtain ⟨x, hx, y, hy, z, hz, rfl⟩ := h
      exact .long hx hy hz
    · simp only [Option.bind_eq_bind, Option.bind_eq_some_iff, shortChannel?_eq_some_iff,
        Option.pure_def, Option.some.injEq] at h
      obtain ⟨_, ⟨x, hx, rfl⟩, _, ⟨y, hy, rfl⟩, _, ⟨z, hz, rfl⟩, rfl⟩ := h
      exact .short hx hy hz
    · cases h
  · rintro (⟨ha, hb, hc⟩ | ⟨ha, hb, hc⟩)
    · simp [channel?_eq_some_iff.2 ha, channel?_eq_some_iff.2 hb, channel?_eq_some_iff.2 hc]
    · simp [shortChannel?_eq_some_iff.2 ⟨_, ha, rfl⟩, shortChannel?_eq_some_iff.2 ⟨_, hb, rfl⟩,
        shortChannel?_eq_some_iff.2 ⟨_, hc, rfl⟩]

theorem TwoDigits.plus_ne {a b : Char} {n : Nat} (h : TwoDigits a b n) : '+' ≠ a ∧ '+' ≠ b := by
  obtain ⟨x, y, ha, hb, -⟩ := h
  constructor
  · rintro rfl
    exact not_isHexDigit_plus x ha
  · rintro rfl
    exact not_isHexDigit_plus y hb

theorem Pair.twoDigits {a b : Char} {n : Nat} (h : Pair a b n) (ha : '+' ≠ a) : TwoDigits a b n :=
  h.resolve_right fun hplus => ha hplus.1.symm

/-- Without a plus sign what is read is a colour in digits, and no such colour has one. -/
theorem written_twoDigits_iff {t : Text} {c : Color} :
    Written TwoDigits t c ↔ Written Pair t c ∧ '+' ∉ t := by
  have hne : ∀ {a : Char} {x : Nat}, IsHexDigit a x → '+' ≠ a := by
    rintro a x ha rfl
    exact not_isHexDigit_plus x ha
  constructor
  · rintro (⟨ha, hb, hc⟩ | ⟨ha, hb, hc⟩)
    · refine ⟨.long (.inl ha) (.inl hb) (.inl hc), ?_⟩
      simp [ha.plus_ne, hb.plus_ne, hc.plus_ne]
    · refine ⟨.short ha hb hc, ?_⟩
      simp [hne ha, hne hb, hne hc]
  · rintro ⟨⟨ha, hb, hc⟩ | ⟨ha, hb, hc⟩, hplus⟩
    · simp only [List.mem_cons, not_or] at hplus
      obtain ⟨-, ha', -, hb', -, hc', -⟩ := hplus
      exact .long (ha.twoDigits ha') (hb.twoDigits hb') (hc.twoDigits hc')
    · exact .short ha hb hc

/-- Every colour in digits is read, and as the colour that it is. What is read besides has a plus
sign in it, in place of the first digit of a channel; so reading keeps to digits exactly on the
texts that have no plus sign in them or are not read at all. -/
theorem ofText?_digits_iff (s : Text) :
    (∀ c, ofText? s = some c ↔ Written Pair (trim s) c) ∧
      (∀ c, Written TwoDigits (trim s) c ↔ ofText? s = some c ∧ '+' ∉ trim s) ∧
      ((∀ c, ofText? s = some c ↔ Written TwoDigits (trim s) c) ↔
        '+' ∉ trim s ∨ ofText? s = none) := by
  have hread : ∀ c, ofText? s = some c ↔ Written Pair (trim s) c := fun _ => ofText?_eq_some_iff
  have hdigits : ∀ c, Written TwoDigits (trim s) c ↔ ofText? s = some c ∧ '+' ∉ trim s := by
    intro c
    rw [written_twoDigits_iff, hread]
  refine ⟨hread, hdigits, ?_⟩
  constructor
  · intro h
    by_cases hplus : '+' ∈ trim s
    · refine .inr (Option.eq_none_iff_forall_ne_some.2 fun c hc => ?_)
      exact ((hdigits c).1 ((h c).1 hc)).2 hplus
    · exact .inl hplus
  · intro h c
    rw [hdigits, iff_self_and]
    intro hc
    rcases h with h | h
    · exact h
    · rw [h] at hc
      cases hc

/-- Three plus signs with a digit behind each are read as a colour, and they are none in digits. -/
theorem ofText?_plusSigns :
    ofText? "#+1+2+3".toList = some ⟨1, 2, 3⟩ ∧
      ∀ c, ¬ Written TwoDigits (trim "#+1+2+3".toList) c := by
  refine ⟨by decide, fun c h => ?_⟩
  exact (written_twoDigits_iff.1 h).2 (by decide)

/-- White space around a colour does not count, nor does the case of its digits. -/
example : ofText? " #1E1e2e\n".toList = some ⟨0x1e, 0x1e, 0x2e⟩ ∧
    ofText? "#fC0".toList = some ⟨0xff, 0xcc, 0⟩ ∧ ofText? "#ééé".toList = none := by decide

end Color

end FencedCode
