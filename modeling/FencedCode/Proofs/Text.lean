import FencedCode.Text
import Mathlib.Data.List.Sort

namespace FencedCode.Text

theorem eq_nil_of_size_eq_zero {t : Text} (h : size t = 0) : t = [] := by
  cases t with
  | nil => rfl
  | cons c cs =>
    have := c.utf8Size_pos
    simp only [size] at h
    omega

/-- Two ways to cut a text: the earlier cut cuts the longer first part as well. -/
theorem append_eq_append_of_size_le {x y x' y' : Text} (h : x ++ y = x' ++ y')
    (hs : size x ≤ size x') : ∃ z, x' = x ++ z ∧ y = z ++ y' := by
  rcases List.append_eq_append_iff.1 h with ⟨z, hx, hy⟩ | ⟨z, hx, hy⟩
  · exact ⟨z, hx, hy⟩
  · have hz : z = [] := by
      apply eq_nil_of_size_eq_zero
      rw [hx, size_append] at hs
      omega
    exact ⟨[], by simp [hx, hz], by simp [hy, hz]⟩

theorem take_append_size (x y : Text) : take (x ++ y) (size x) = x := by
  induction x with
  | nil =>
    cases y with
    | nil => rfl
    | cons c cs => simp [take, size, c.utf8Size_pos.ne']
  | cons c cs ih => simp [take, size, ih]

theorem drop_append_size (x y : Text) : drop (x ++ y) (size x) = y := by
  have h := take_append_drop (x ++ y) (size x)
  rw [take_append_size] at h
  exact List.append_cancel_left h

theorem drop_take_self {t : Text} {n : Nat} (h : t.isBoundary n) : drop (take t n) n = [] := by
  have hsize : size (take t n) = n := beq_iff_eq.1 h
  have hdrop := drop_append_size (take t n) []
  rwa [List.append_nil, hsize] at hdrop

theorem cover_append_size (x y : Text) : cover (x ++ y) (size x) = x := by
  induction x with
  | nil => cases y <;> simp [cover, size]
  | cons c cs ih =>
    have := c.utf8Size_pos
    simp only [List.cons_append, cover, size]
    rw [if_neg (by omega), Nat.add_sub_cancel_left, ih]

theorem floor_append_size (x y : Text) : floor (x ++ y) (size x) = size x := by
  rw [floor, take_append_size]

theorem take_isPrefix (t : Text) {m n : Nat} (h : m ≤ n) : take t m <+: take t n := by
  induction t generalizing m n with
  | nil => simp [take]
  | cons c cs ih =>
    by_cases hm : c.utf8Size ≤ m
    · simp only [take, if_pos hm, if_pos (hm.trans h)]
      exact List.cons_prefix_cons.2 ⟨rfl, ih (by omega)⟩
    · simp [take, if_neg hm]

theorem eq_take_append_drop (t : Text) {m n : Nat} (h : m ≤ n) :
    ∃ z, take t n = take t m ++ z ∧ t = take t m ++ z ++ drop t n := by
  obtain ⟨z, hz⟩ := take_isPrefix t h
  exact ⟨z, hz.symm, by rw [hz, take_append_drop]⟩

theorem take_floor (t : Text) (n : Nat) : take t (floor t n) = take t n := by
  conv_lhs => rw [← take_append_drop t n]
  rw [take_append_drop, floor]
  have h := take_append_size (take t n) (drop t n)
  rwa [take_append_drop] at h

/-- The piece `w` stands at the offset `pos` of a text. -/
def At (t : Text) (pos : Nat) (w : Text) : Prop := ∃ x y, t = x ++ w ++ y ∧ size x = pos

theorem At.slice_eq {t w : Text} {pos : Nat} (h : At t pos w) :
    slice t pos (pos + size w) = w := by
  obtain ⟨x, y, rfl, rfl⟩ := h
  rw [List.append_assoc, slice, drop_append_size, floor_append_size, Nat.add_sub_cancel_left,
    cover_append_size]

theorem byteAt_append_left (x y : Text) {k : Nat} (h : k < size x) :
    byteAt (x ++ y) k = byteAt x k := by
  induction x generalizing k with
  | nil => simp [size] at h
  | cons c cs ih =>
    simp only [List.cons_append, byteAt]
    split
    · rfl
    · simp only [size] at h
      exact ih (by omega)

theorem byteAt_append_right (x y : Text) (k : Nat) : byteAt (x ++ y) (size x + k) = byteAt y k := by
  induction x with
  | nil => simp [size]
  | cons c cs ih =>
    have := c.utf8Size_pos
    simp only [List.cons_append, byteAt, size]
    rw [if_neg (by omega), ← ih]
    congr 1
    omega

theorem size_lt_size_append_cons (x : Text) (c : Char) (y : Text) :
    size x < size (x ++ c :: y) := by
  have := c.utf8Size_pos
  simp only [size_append, size]
  omega

theorem byteAt_newline (x y : Text) : byteAt (x ++ '\n' :: y) (size x) = some 10 :=
  byteAt_append_right x ('\n' :: y) 0

/-- In the UTF-8 form the byte of a line break stands for nothing else: the bytes of a longer form
are at least 128. -/
theorem eq_newline_of_mem_utf8EncodeChar {c : Char} (h : 10 ∈ String.utf8EncodeChar c) :
    c = '\n' := by
  have h10 : (10 : UInt8).toNat = 10 := rfl
  have hval : c.val.toNat = 10 := by
    unfold String.utf8EncodeChar at h
    dsimp only at h
    split_ifs at h <;>
      simp only [List.mem_cons, List.not_mem_nil, or_false, ← UInt8.toNat_inj, h10,
        UInt8.toNat_ofNat'] at h <;> omega
  exact Char.ext (UInt32.toNat_inj.1 hval)

theorem At.byteAt_eq {t w : Text} {pos : Nat} (h : At t pos w) {k : Nat} (hk : k < size w) :
    byteAt t (pos + k) = byteAt w k := by
  obtain ⟨x, y, rfl, rfl⟩ := h
  rw [List.append_assoc, byteAt_append_right, byteAt_append_left _ _ hk]

theorem At.append_left {x y w : Text} {pos : Nat} (h : At (x ++ y) pos w)
    (hs : pos + size w ≤ size x) (z : Text) : At (x ++ z) pos w := by
  obtain ⟨u, v, he, rfl⟩ := h
  obtain ⟨s, rfl, -⟩ := append_eq_append_of_size_le he.symm (by rwa [size_append])
  exact ⟨u, s ++ z, by simp, rfl⟩

theorem At.append_right {x y w : Text} {k : Nat} (h : At (x ++ y) (size x + k) w) (z : Text) :
    At (z ++ y) (size z + k) w := by
  obtain ⟨u, v, he, hu⟩ := h
  rw [List.append_assoc] at he
  obtain ⟨s, rfl, rfl⟩ := append_eq_append_of_size_le he (by omega)
  exact ⟨z ++ s, v, by simp, by simp only [size_append] at hu ⊢; omega⟩

/-- The lines of two texts joined: the last line of the first runs on into the first line of the
second. -/
theorem split_append (separator : Char) (x y : Text) : ∃ as a b bs,
    split separator x = as ++ [a] ∧ split separator y = b :: bs ∧
      split separator (x ++ y) = as ++ (a ++ b) :: bs := by
  obtain ⟨b, bs, hy⟩ := List.exists_cons_of_ne_nil (split_ne_nil separator y)
  induction x with
  | nil => exact ⟨[], [], b, bs, rfl, hy, by simpa using hy⟩
  | cons c cs ih =>
    obtain ⟨as, a, b', bs', hx, hy', hxy⟩ := ih
    obtain ⟨rfl, rfl⟩ : b' = b ∧ bs' = bs := by simpa [hy] using hy'.symm
    by_cases hc : c = separator
    · exact ⟨[] :: as, a, b', bs', by simp [split, hc, hx], hy, by simp [split, hc, hxy]⟩
    · cases as with
      | nil => exact ⟨[], c :: a, b', bs', by simp [split, hc, hx], hy, by simp [split, hc, hxy]⟩
      | cons s ss =>
        exact ⟨(c :: s) :: ss, a, b', bs', by simp [split, hc, hx], hy, by simp [split, hc, hxy]⟩

end FencedCode.Text
