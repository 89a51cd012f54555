import FencedCode.Placement
import FencedCode.Proofs.Boundaries

namespace FencedCode

namespace Text

variable {t : Text} {pos : Nat}

/-- Around an offset there is a character, whose bytes stand from the boundary up to it on. -/
theorem exists_around (h : pos < size t) :
    ∃ (c : Char) (k : Nat), pos = floor t pos + k ∧ k < c.utf8Size ∧
      ∀ i, i < c.utf8Size → byteAt t (floor t pos + i) = (String.utf8EncodeChar c)[i]? := by
  have hle := floor_le t pos
  obtain ⟨c, y, hdrop⟩ : ∃ c y, drop t pos = c :: y := by
    apply List.exists_cons_of_ne_nil
    intro hnil
    have hsize := floor_add_size_drop t pos
    rw [hnil, size] at hsize
    omega
  have ht : t = take t pos ++ c :: y := by rw [← hdrop, take_append_drop]
  -- behind the character there is a boundary, so it lies behind the offset
  have hb : t.isBoundary (floor t pos + c.utf8Size) :=
    isBoundary_iff.2 ⟨take t pos ++ [c], y, by simp [← ht], by simp [size, floor]⟩
  have hlt : pos < floor t pos + c.utf8Size := by
    by_contra! hge
    have := (floor_isGreatest t pos).2 ⟨le_min hge (le_size_of_isBoundary hb), hb⟩
    have := c.utf8Size_pos
    omega
  have hat : At t (floor t pos) [c] := ⟨take t pos, y, by simp [← ht], rfl⟩
  refine ⟨c, pos - floor t pos, by omega, by omega, fun i hi => ?_⟩
  rw [hat.byteAt_eq (by simpa [size] using hi), byteAt, if_pos hi]

theorem byteAt_eq_none (h : size t ≤ pos) : byteAt t pos = none := by
  obtain ⟨k, rfl⟩ := Nat.exists_eq_add_of_le h
  have hright := byteAt_append_right t [] k
  rwa [List.append_nil] at hright

theorem byteAt_floor_of_size_le (h : size t ≤ pos) : byteAt t (floor t pos) = byteAt t pos := by
  have hfloor : floor t pos = size t := by rw [← roundDown_eq_floor, roundDown, if_pos h]
  rw [hfloor, byteAt_eq_none h, byteAt_eq_none le_rfl]

/-- Looked for from the boundary up to an offset, a line break is found where it stands. -/
theorem byteAt_floor_eq_newline_iff :
    byteAt t (floor t pos) = some 10 ↔ byteAt t pos = some 10 := by
  rcases Nat.lt_or_ge pos (size t) with h | h
  · obtain ⟨c, k, hpos, hk, hbyte⟩ := exists_around h
    -- only a line break has its byte, and it has no other
    have hself : 10 ∈ String.utf8EncodeChar c → floor t pos = pos := by
      intro hmem
      obtain rfl := eq_newline_of_mem_utf8EncodeChar hmem
      have : k = 0 := Nat.lt_one_iff.1 hk
      omega
    have hfirst := hbyte 0 c.utf8Size_pos
    have hhere := hbyte k hk
    rw [Nat.add_zero] at hfirst
    rw [← hpos] at hhere
    constructor
    · intro h10
      rwa [hself (List.mem_of_getElem? (hfirst.symm.trans h10))] at h10
    · intro h10
      rwa [hself (List.mem_of_getElem? (hhere.symm.trans h10))]
  · rw [byteAt_floor_of_size_le h]

/-- The byte at the boundary up to an offset is the one at the offset only where the two are the
same, as no other byte of a character could begin one. -/
theorem byteAt_floor_eq_iff :
    byteAt t (floor t pos) = byteAt t pos ↔ t.isBoundary pos ∨ size t ≤ pos := by
  constructor
  · intro heq
    by_contra! hout
    obtain ⟨hb, hlt⟩ := hout
    obtain ⟨c, k, hpos, hk, hbyte⟩ := exists_around hlt
    have hk0 : k ≠ 0 := by
      rintro rfl
      exact hb (hpos ▸ isBoundary_floor t pos)
    have hlen := String.length_utf8EncodeChar c
    have hsame : (String.utf8EncodeChar c)[0]? = (String.utf8EncodeChar c)[k]? := by
      rw [← hbyte 0 c.utf8Size_pos, ← hbyte k hk, Nat.add_zero, ← hpos, heq]
    rw [List.getElem?_eq_getElem (by omega), List.getElem?_eq_getElem (by omega),
      Option.some.injEq] at hsame
    have hbegins : (String.utf8EncodeChar c)[0].IsUTF8FirstByte :=
      UInt8.isUTF8FirstByte_getElem_utf8EncodeChar.2 rfl
    rw [hsame] at hbegins
    exact hk0 (UInt8.isUTF8FirstByte_getElem_utf8EncodeChar.1 hbegins)
  · rintro (hb | hle)
    · rw [floor_eq_self hb]
    · exact byteAt_floor_of_size_le hle

end Text

namespace Placement

variable {byteAt byteAt' : Nat → Option UInt8}

/-- Laying out tokens asks for nothing but where line breaks are. -/
theorem lines_congr (h : ∀ pos, byteAt pos = some 10 ↔ byteAt' pos = some 10) (stop cursor : Nat)
    (ls : List TokenLine) : lines byteAt stop cursor ls = lines byteAt' stop cursor ls := by
  have hskip : ∀ c, skipBreak byteAt stop c = skipBreak byteAt' stop c := by
    intro c
    unfold skipBreak
    simp only [h c]
  induction ls generalizing cursor with
  | nil => rfl
  | cons l ls ih => simp only [lines, hskip, ih]

end Placement

namespace Document

variable (d : Document) (pos : Nat)

theorem byteOfSlice_eq : d.byteOfSlice pos = d.byteAt (Text.floor d.text pos) := by
  have hbyte : d.byteAt (Text.floor d.text pos) = Text.byteAt (Text.drop d.text pos) 0 := by
    have h := Text.byteAt_append_right (Text.take d.text pos) (Text.drop d.text pos) 0
    rwa [Text.take_append_drop] at h
  have hslice : d.slice (.between pos (pos + 1)) =
      Text.cover (Text.drop d.text pos) (pos + 1 - Text.floor d.text pos) := by
    simp [slice, Text.slice]
  rw [byteOfSlice, hslice, hbyte]
  have hle := Text.floor_le d.text pos
  cases Text.drop d.text pos with
  | nil => rfl
  | cons c cs =>
    -- the first character is covered, as something of the text lies behind the boundary
    rw [Text.cover, if_neg (by omega)]
    simp [Text.byteAt, c.utf8Size_pos]

theorem byteOfSlice_eq_newline_iff :
    d.byteOfSlice pos = some 10 ↔ d.byteAt pos = some 10 := by
  rw [byteOfSlice_eq]
  exact Text.byteAt_floor_eq_newline_iff

end Document

/-- For every document and block and all tokens, wherever these leave the cursor: shown by an editor
that hands out text only, so that a byte is read through the text around it, the tokens get the same
decorations as where the bytes are known. This is so although the two ways to read a byte disagree
at each offset inside a character. -/
theorem Host.place_hosted (d : Document) (openers : Option (List Nat)) (b : Block)
    (tokens : List TokenLine) :
    (d.hosted openers).place b tokens = d.host.place b tokens ∧
      ∀ pos, (d.hosted openers).byteAt pos = d.host.byteAt pos ↔
        d.text.isBoundary pos ∨ d.size ≤ pos := by
  constructor
  · exact Placement.lines_congr d.byteOfSlice_eq_newline_iff b.bodyStop b.bodyStart tokens
  · intro pos
    change d.byteOfSlice pos = d.byteAt pos ↔ _
    rw [Document.byteOfSlice_eq]
    exact Text.byteAt_floor_eq_iff

/-- The first token ends inside a character; the line break behind the second is stepped over. -/
example : ((Document.ofText "```\né\nb".toList).hosted none).place ⟨0, 4, 8, 8, "text", ""⟩
    [[⟨['a'], "#A", .plain⟩], [⟨['b'], "#B", .plain⟩], [⟨['c'], "#A", .plain⟩]] =
    [⟨4, 5, "color: #A;"⟩, ⟨5, 6, "color: #B;"⟩, ⟨7, 8, "color: #A;"⟩] := by decide +kernel

end FencedCode
