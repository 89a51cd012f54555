import FencedCode.Face
import FencedCode.Theme
import Mathlib.Data.List.DropRight
import Mathlib.Data.Nat.Bitwise
import Mathlib.Tactic.SplitIfs

namespace FencedCode

namespace Text

theorem trimStart_trimStart (t : Text) : trimStart (trimStart t) = trimStart t :=
  List.dropWhile_idempotent isBlank t

theorem trimEnd_trimEnd (t : Text) : trimEnd (trimEnd t) = trimEnd t :=
  List.rdropWhile_idempotent isBlank t

theorem trimStart_trimEnd {t : Text} (h : trimStart t = t) : trimStart (trimEnd t) = trimEnd t := by
  cases hend : trimEnd t with
  | nil => rfl
  | cons c u =>
    obtain ⟨v, rfl⟩ : c :: u <+: t := hend ▸ List.rdropWhile_prefix isBlank t
    have hc := List.dropWhile_eq_self_iff.1 h (by simp)
    exact List.dropWhile_cons_of_neg (by simpa using hc)

theorem trim_trim (t : Text) : trim (trim t) = trim t := by
  unfold trim
  rw [trimStart_trimEnd (trimStart_trimStart t), trimEnd_trimEnd]

theorem trim_cons_blank {c : Char} (h : isBlank c) (t : Text) : trim (c :: t) = trim t := by
  unfold trim trimStart
  rw [List.dropWhile_cons_of_pos h]

theorem split_append_cons {separator : Char} {p : Text} (h : separator ∉ p) (t : Text) :
    split separator (p ++ separator :: t) = p :: split separator t := by
  induction p with
  | nil => simp [split]
  | cons c p ih =>
    obtain ⟨hc, hp⟩ := not_or.1 fun h' => h (List.mem_cons.2 h')
    rw [List.cons_append, split, if_neg (Ne.symm hc), ih hp]

/-- Pieces with a separator behind each are found again, and nothing behind the last one. -/
theorem split_flatMap {separator : Char} {ps : List Text} (h : ∀ p ∈ ps, separator ∉ p) :
    split separator (ps.flatMap (· ++ [separator])) = ps ++ [[]] := by
  induction ps with
  | nil => rfl
  | cons p ps ih =>
    obtain ⟨hp, hps⟩ := List.forall_mem_cons.1 h
    rw [List.flatMap_cons, List.append_assoc, List.singleton_append, split_append_cons hp, ih hps]
    rfl

end Text

namespace FontStyle

theorem contains_eq_testBit (s : FontStyle) {t : FontStyle} {i : Nat} (h : t.bits.toNat = 2 ^ i) :
    s.contains t = s.bits.toNat.testBit i := by
  have hand : (s.bits &&& t.bits).toNat = (s.bits.toNat.testBit i).toNat * 2 ^ i := by
    rw [UInt8.toNat_and, h, Nat.and_two_pow]
  have hpos : 2 ^ i ≠ 0 := (Nat.two_pow_pos i).ne'
  rw [contains, Bool.eq_iff_iff, beq_iff_eq, ← UInt8.toNat_inj, hand, h]
  cases s.bits.toNat.testBit i <;> simp [hpos.symm]

end FontStyle

def declarations (color : String) (font : FontStyle) : List Text :=
  ["color: ".toList ++ color.toList] ++
    (if font.contains .italic then ["font-style: italic".toList] else []) ++
    (if font.contains .bold then ["font-weight: bold".toList] else []) ++
    (if font.contains .underline then ["text-decoration: underline".toList] else [])

theorem toList_styleKey (color : String) (font : FontStyle) :
    (styleKey color font).toList = (declarations color font).flatMap (· ++ [';']) := by
  unfold styleKey declarations
  split_ifs <;> simp

namespace Face

theorem declare_color (f : Face) (color : Text) :
    f.declare ("color: ".toList ++ color) = { f with foreground := Color.ofText? color } := by
  have hvalue : Color.ofText? (Text.trim (' ' :: color)) = Color.ofText? color := by
    unfold Color.ofText?
    rw [Text.trim_trim, Text.trim_cons_blank (by decide)]
  rw [← hvalue]
  rfl

theorem declare_italic (f : Face) :
    f.declare "font-style: italic".toList = { f with italic := true } := rfl

theorem declare_bold (f : Face) :
    f.declare "font-weight: bold".toList = { f with bold := true } := rfl

theorem declare_underline (f : Face) :
    f.declare "text-decoration: underline".toList = { f with underline := true } := rfl

theorem foldl_declare_if (f : Face) (b : Bool) (d : Text) :
    (if b then [d] else []).foldl declare f = if b then f.declare d else f := by
  cases b <;> rfl

theorem foldl_declare_declarations (color : String) (font : FontStyle) :
    (declarations color font).foldl declare {} =
      { foreground := Color.ofText? color.toList
        bold := font.contains .bold
        italic := font.contains .italic
        underline := font.contains .underline } := by
  unfold declarations
  rw [List.foldl_append, List.foldl_append, List.foldl_append, foldl_declare_if, foldl_declare_if,
    foldl_declare_if, List.foldl_cons, List.foldl_nil, declare_color, declare_italic, declare_bold,
    declare_underline]
  split_ifs <;> simp [*]

end Face

theorem notMem_declarations {color : String} (h : ';' ∉ color.toList) (font : FontStyle) :
    ∀ d ∈ declarations color font, ';' ∉ d := by
  intro d hd
  have hcolor : ';' ∉ "color: ".toList ++ color.toList := by
    rw [List.mem_append, not_or]
    exact ⟨by decide, h⟩
  have hif : ∀ {b : Bool} {e : Text}, ';' ∉ e → d ∈ (if b then [e] else []) → ';' ∉ d := by
    intro b e he hd
    cases b with
    | false => exact absurd hd List.not_mem_nil
    | true => exact List.mem_singleton.1 hd ▸ he
  simp only [declarations, List.mem_append, List.mem_singleton] at hd
  rcases hd with ((rfl | hd) | hd) | hd
  · exact hcolor
  · exact hif (by decide) hd
  · exact hif (by decide) hd
  · exact hif (by decide) hd

namespace Theme

def palette (t : Theme) : List String :=
  t.colors.foreground :: t.colors.background :: t.styles.map (·.2.1)

theorem style_mem_palette (t : Theme) (kind : Kind) : (t.style kind).1 ∈ t.palette := by
  unfold style palette
  cases hkind : t.styles.lookup kind with
  | none => exact List.mem_cons_self
  | some style =>
    obtain ⟨before, behind, hstyles, -⟩ := List.lookup_eq_some_iff.1 hkind
    refine List.mem_cons_of_mem _ (List.mem_cons_of_mem _ ?_)
    rw [hstyles]
    simp

end Theme

/-- What a style key was made from is read off it again, for every colour without a semicolon and
every set of flags, those without a meaning included; and no colour of a theme has a semicolon. -/
theorem Face.ofKey_styleKey :
    (∀ (color : String) (font : FontStyle), ';' ∉ color.toList →
      ofKey (styleKey color font) =
        { foreground := Color.ofText? color.toList
          italic := font.bits.toNat.testBit 0
          bold := font.bits.toNat.testBit 1
          underline := font.bits.toNat.testBit 2 }) ∧
      ∀ t ∈ Theme.bundled, (∀ kind, (t.style kind).1 ∈ t.palette) ∧
        ∀ color ∈ t.palette, ';' ∉ color.toList := by
  constructor
  · intro color font h
    have hitalic : font.contains .italic = font.bits.toNat.testBit 0 :=
      font.contains_eq_testBit rfl
    have hbold : font.contains .bold = font.bits.toNat.testBit 1 := font.contains_eq_testBit rfl
    have hunderline : font.contains .underline = font.bits.toNat.testBit 2 :=
      font.contains_eq_testBit rfl
    rw [ofKey, toList_styleKey, Text.split_flatMap (notMem_declarations h font), List.foldl_append,
      foldl_declare_declarations, hitalic, hbold, hunderline]
    rfl
  · refine fun t ht => ⟨t.style_mem_palette, ?_⟩
    revert t
    decide

/-- White between blanks, and a colour that reads like a declaration, in a font of which all bits
are set but the one for bold. -/
theorem Face.ofKey_styleKey_allButBold :
    ofKey (styleKey " #FfF " ⟨0xfd⟩) = ⟨some ⟨255, 255, 255⟩, false, true, true⟩ ∧
      ofKey (styleKey "font-weight: bold" ⟨0xfd⟩) = ⟨none, false, true, true⟩ := by
  obtain ⟨hread, -⟩ := ofKey_styleKey
  have hwhite := hread " #FfF " ⟨0xfd⟩ (by decide)
  have hbold := hread "font-weight: bold" ⟨0xfd⟩ (by decide)
  exact ⟨hwhite.trans (by decide), hbold.trans (by decide)⟩

end FencedCode
