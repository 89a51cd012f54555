import FencedCode.Document
import FencedCode.Proofs.Boundaries

namespace FencedCode.Document

/-- What replacing the text between two offsets comes to, whichever of them is the lower: the piece
`y` between the boundaries at or before them gives way to `s`, and the edit told says so. -/
def Exchanged (d : Document) (a b : Nat) (s : Text) (r : Document × Edit) : Prop :=
  ∃ x y z : Text, d.text = x ++ y ++ z ∧
    IsGreatest {k | k ≤ min (min a b) d.size ∧ d.text.isBoundary k} (Text.size x) ∧
    IsGreatest {k | k ≤ min (max a b) d.size ∧ d.text.isBoundary k} (Text.size (x ++ y)) ∧
    r.1.text = x ++ s ++ z ∧
    r.2 = ⟨Text.size x, Text.size (x ++ y), Text.size x + Text.size s⟩ ∧
    (r.1.size : Int) = d.size + r.2.delta

variable {d : Document} {a b : Nat} {s : Text} {r : Document × Edit}

theorem Exchanged.oldEnd_eq (h : d.Exchanged a b s r) :
    r.2.oldEnd = Text.floor d.text (max a b) := by
  obtain ⟨x, y, z, -, -, hstop, -, hedit, -⟩ := h
  rw [hedit]
  exact hstop.unique (Text.floor_isGreatest d.text (max a b))

theorem apply_eq (d : Document) (a b : Nat) (s : Text) : d.apply a b s =
    (ofText (Text.take d.text (min a b) ++ s ++ Text.drop d.text b),
      .replace (Text.floor d.text (min a b)) (Text.floor d.text b) (Text.size s)) := by
  -- the end given second lies behind the start, also when the start has been rounded
  have hstop : max b (Text.floor d.text (min a b)) = b := by
    apply max_eq_left
    exact (Text.floor_le d.text _).trans (min_le_right a b)
  simp only [apply, hstop, Text.take_floor, Text.drop_floor]

/-- The text between the lower of the offsets and the second of them is replaced. -/
theorem exchanged_apply (d : Document) (a b : Nat) (s : Text) :
    d.Exchanged (min a b) b s (d.apply a b s) := by
  have hmin : min (min a b) b = min a b := min_eq_left (min_le_right a b)
  have hmax : max (min a b) b = b := max_eq_right (min_le_right a b)
  obtain ⟨y, hy, ht⟩ := Text.eq_take_append_drop d.text (min_le_right a b)
  have hsize : Text.size (Text.take d.text (min a b) ++ y) = Text.floor d.text b := by
    rw [← hy]
    rfl
  rw [apply_eq]
  refine ⟨Text.take d.text (min a b), y, Text.drop d.text b, ht, ?_, ?_, rfl, ?_, ?_⟩
  · rw [hmin]
    exact Text.floor_isGreatest d.text (min a b)
  · rw [hmax, hsize]
    exact Text.floor_isGreatest d.text b
  · rw [hsize]
    rfl
  · have hle := Text.floor_mono d.text (min_le_right a b)
    have hlen := Text.floor_add_size_drop d.text b
    have hfloor : Text.size (Text.take d.text (min a b)) = Text.floor d.text (min a b) := rfl
    simp only [size, ofText, Text.size_append, hfloor, Edit.delta, Edit.replace]
    omega

theorem exchanged_apply_iff (d : Document) (a b : Nat) (s : Text) :
    d.Exchanged a b s (d.apply a b s) ↔ Text.floor d.text a ≤ Text.floor d.text b := by
  have h := exchanged_apply d a b s
  have hmax : max (min a b) b = b := max_eq_right (min_le_right a b)
  constructor
  · intro h'
    have hend := h'.oldEnd_eq.symm.trans h.oldEnd_eq
    rw [hmax] at hend
    rw [← hend]
    exact Text.floor_mono d.text (le_max_left a b)
  · intro hle
    -- the higher of the offsets comes to lie where the second does
    have hfloor : Text.floor d.text (max a b) = Text.floor d.text (max (min a b) b) := by
      rw [hmax]
      rcases Nat.le_total a b with hab | hab
      · rw [max_eq_right hab]
      · rw [max_eq_left hab]
        exact le_antisymm hle (Text.floor_mono d.text hab)
    obtain ⟨x, y, z, ht, hstart, hstop, htext, hedit, hsize⟩ := h
    refine ⟨x, y, z, ht, ?_, ?_, htext, hedit, hsize⟩
    · rwa [min_eq_left (min_le_right a b)] at hstart
    · rw [hstop.unique (Text.floor_isGreatest d.text _), ← hfloor]
      exact Text.floor_isGreatest d.text (max a b)

/-- The text between the lower of the offsets and the second one is replaced, for every text and all
offsets, and the edit told is the one made. This is what lies between the two offsets, in whichever
order they are given, exactly if the first does not come to lie behind the second. -/
theorem apply_exchanged_iff (d : Document) (a b : Nat) (s : Text) :
    d.Exchanged (min a b) b s (d.apply a b s) ∧
      (d.Exchanged a b s (d.apply a b s) ↔ Text.floor d.text a ≤ Text.floor d.text b) :=
  ⟨exchanged_apply d a b s, exchanged_apply_iff d a b s⟩

/-- Given the ends in reverse, the letter is put in front of the word and the word stays. -/
theorem apply_reversed_inserts :
    ((ofText "hello".toList).apply 5 0 "x".toList).1.text = "xhello".toList ∧
      ¬ (ofText "hello".toList).Exchanged 5 0 "x".toList
        ((ofText "hello".toList).apply 5 0 "x".toList) := by
  refine ⟨by decide, ?_⟩
  rw [exchanged_apply_iff]
  decide

end FencedCode.Document
