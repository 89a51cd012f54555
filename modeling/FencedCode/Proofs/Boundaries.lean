import FencedCode.Proofs.Matches
import Mathlib.Order.Bounds.Basic

namespace FencedCode.Text

variable {t : Text} {m n : Nat}

theorem isBoundary_floor (t : Text) (n : Nat) : t.isBoundary (floor t n) :=
  isBoundary_iff.2 ⟨take t n, drop t n, (take_append_drop t n).symm, rfl⟩

theorem isBoundary_ceil (t : Text) (n : Nat) : t.isBoundary (ceil t n) :=
  isBoundary_iff.2 ⟨cover t n, uncover t n, (cover_append_uncover t n).symm, rfl⟩

theorem floor_eq_self (h : t.isBoundary n) : floor t n = n := beq_iff_eq.1 h

theorem floor_mono (t : Text) (h : m ≤ n) : floor t m ≤ floor t n := by
  obtain ⟨z, hz⟩ := take_isPrefix t h
  unfold floor
  rw [← hz, size_append]
  apply Nat.le_add_right

theorem floor_le_size (t : Text) (n : Nat) : floor t n ≤ size t :=
  le_size_of_isBoundary (isBoundary_floor t n)

theorem drop_floor (t : Text) (n : Nat) : drop t (floor t n) = drop t n := by
  have h := take_append_drop t (floor t n)
  rw [take_floor] at h
  exact List.append_cancel_left (h.trans (take_append_drop t n).symm)

theorem floor_add_size_drop (t : Text) (n : Nat) : floor t n + size (drop t n) = size t := by
  conv_rhs => rw [← take_append_drop t n, size_append]
  rfl

/-- The last boundary up to an offset, or up to the end of the text. -/
theorem floor_isGreatest (t : Text) (n : Nat) :
    IsGreatest {k | k ≤ min n (size t) ∧ t.isBoundary k} (floor t n) := by
  constructor
  · exact ⟨le_min (floor_le t n) (floor_le_size t n), isBoundary_floor t n⟩
  · rintro k ⟨hk, hb⟩
    rw [← floor_eq_self hb]
    apply floor_mono
    exact hk.trans (min_le_left _ _)

theorem cover_isPrefix (x y : Text) (h : n ≤ size x) : cover (x ++ y) n <+: x := by
  induction x generalizing n with
  | nil =>
    obtain rfl : n = 0 := Nat.le_zero.1 h
    cases y <;> simp [cover]
  | cons c cs ih =>
    simp only [List.cons_append, cover]
    split_ifs with h0
    · exact List.nil_prefix
    · simp only [size] at h
      apply List.cons_prefix_cons.2
      exact ⟨rfl, ih (by omega)⟩

theorem cover_eq_self (h : size t ≤ n) : cover t n = t := by
  induction t generalizing n with
  | nil => rfl
  | cons c cs ih =>
    have hc := c.utf8Size_pos
    simp only [size] at h
    unfold cover
    rw [if_neg (by omega), ih (by omega)]

theorem cover_zero (t : Text) : cover t 0 = [] := by
  cases t <;> rfl

theorem cover_append (x y : Text) (h : size x ≤ n) :
    cover (x ++ y) n = x ++ cover y (n - size x) := by
  induction x generalizing n with
  | nil => rfl
  | cons c cs ih =>
    have hc := c.utf8Size_pos
    simp only [size] at h
    rw [List.cons_append, cover, if_neg (by omega), ih (by omega), size, Nat.sub_sub]
    rfl

theorem cover_ceil (t : Text) (n : Nat) : cover t (ceil t n) = cover t n := by
  have h := cover_append_size (cover t n) (uncover t n)
  rwa [cover_append_uncover] at h

/-- The first boundary from an offset on, or from the end of the text. -/
theorem ceil_isLeast (t : Text) (n : Nat) :
    IsLeast {k | min n (size t) ≤ k ∧ t.isBoundary k} (ceil t n) := by
  rcases Nat.le_total n (size t) with h | h
  · rw [min_eq_left h]
    refine ⟨⟨le_size_cover h, isBoundary_ceil t n⟩, ?_⟩
    rintro k ⟨hk, hb⟩
    obtain ⟨x, y, rfl, rfl⟩ := isBoundary_iff.1 hb
    obtain ⟨z, hz⟩ := cover_isPrefix x y hk
    have hsize := congrArg size hz
    rw [size_append] at hsize
    unfold ceil
    omega
  · have hceil : ceil t n = size t := by rw [ceil, cover_eq_self h]
    rw [min_eq_right h, hceil]
    exact ⟨⟨le_rfl, isBoundary_size t⟩, fun k hk => hk.1⟩

/-- Between the boundaries that two offsets are widened to lies the text between the offsets. -/
theorem slice_floor_ceil (t : Text) (lo hi : Nat) :
    slice t (floor t lo) (ceil t hi) = slice t lo hi := by
  unfold slice
  rw [drop_floor, floor_eq_self (isBoundary_floor t lo)]
  rcases Nat.le_total (floor t lo) hi with h | h
  · have hceil : ceil t hi = floor t lo + ceil (drop t lo) (hi - floor t lo) := by
      have happ := cover_append (take t lo) (drop t lo) h
      rw [take_append_drop] at happ
      rw [ceil, happ, size_append]
      rfl
    rw [hceil, Nat.add_sub_cancel_left, cover_ceil]
  · -- nothing lies between them, before as after
    have hceil : ceil t hi ≤ floor t lo :=
      (ceil_isLeast t hi).2 ⟨(min_le_left _ _).trans h, isBoundary_floor t lo⟩
    rw [Nat.sub_eq_zero_of_le hceil, Nat.sub_eq_zero_of_le h]

theorem stepDown_eq_floor (t : Text) (p : Nat) : stepDown t p = floor t p := by
  induction p with
  | zero => exact (Nat.le_zero.1 (floor_le t 0)).symm
  | succ p ih =>
    unfold stepDown
    split_ifs with hb
    · exact (floor_eq_self hb).symm
    · -- the boundary found lies below, so it is found from one byte below as well
      have hne : floor t (p + 1) ≠ p + 1 := fun h => hb (h ▸ isBoundary_floor t (p + 1))
      have hle := floor_le t (p + 1)
      rw [ih]
      apply le_antisymm
      · exact floor_mono t (Nat.le_succ p)
      · rw [← floor_eq_self (isBoundary_floor t (p + 1))]
        apply floor_mono
        omega

theorem stepUp_eq_ceil {p : Nat} (hp : p ≤ size t) : stepUp t p = ceil t p := by
  fun_induction stepUp t p with
  | case1 p h ih =>
    rw [ih h.1]
    -- one byte further on the same boundaries lie ahead
    have hnext := ceil_isLeast t (p + 1)
    have hset : {k | min (p + 1) (size t) ≤ k ∧ t.isBoundary k} =
        {k | min p (size t) ≤ k ∧ t.isBoundary k} := by
      ext k
      refine and_congr_left fun hk => ?_
      have hne : k ≠ p := by
        rintro rfl
        exact absurd (hk.symm.trans h.2) Bool.noConfusion
      omega
    rw [hset] at hnext
    exact hnext.unique (ceil_isLeast t p)
  | case2 p h =>
    have hb : t.isBoundary p := by
      rcases hp.eq_or_lt with rfl | hlt
      · exact isBoundary_size t
      · simpa [hlt] using h
    apply IsLeast.unique _ (ceil_isLeast t p)
    exact ⟨⟨min_le_left _ _, hb⟩, fun k hk => (min_eq_left hp ▸ hk.1)⟩

theorem roundDown_eq_floor (t : Text) (n : Nat) : roundDown t n = floor t n := by
  unfold roundDown
  split_ifs with h
  · apply le_antisymm
    · rw [← floor_eq_self (isBoundary_size t)]
      exact floor_mono t h
    · exact floor_le_size t n
  · exact stepDown_eq_floor t n

theorem roundUp_eq_ceil (t : Text) (n : Nat) : roundUp t n = ceil t n := by
  unfold roundUp
  split_ifs with h
  · rw [ceil, cover_eq_self h]
  · exact stepUp_eq_ceil (Nat.le_of_not_le h)

end FencedCode.Text
