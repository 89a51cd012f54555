import FencedCode.Proofs.Decorations

namespace FencedCode

section

variable {α : Type} {p : α → Bool} {xs : List α}

/-- Halving keeps the number `k` of entries with the property between `base`, if it has moved, and
the end of what is left. -/
theorem bisect_spec {k : Nat} (hk : ∀ i, xs[i]?.any p ↔ i < k) {base size : Nat}
    (hbase : base = 0 ∨ base < k) (hsize : k ≤ base + size) :
    (bisect p xs base size = 0 ∨ bisect p xs base size < k) ∧ k ≤ bisect p xs base size + 1 := by
  fun_induction bisect p xs base size with
  | case1 base size hlt half ih =>
    have hhalf : half = size / 2 := rfl
    by_cases hmid : xs[base + half]?.any p
    · have := (hk _).1 hmid
      simp only [dif_pos hmid] at ih
      rw [if_pos hmid]
      exact ih (by omega) (by omega)
    · have := mt (hk _).2 hmid
      simp only [dif_neg hmid] at ih
      rw [if_neg hmid]
      exact ih hbase (by omega)
  | case2 base size hge => exact ⟨hbase, by omega⟩

theorem any_getElem?_iff (h : xs.Pairwise fun a b => p b → p a) (i : Nat) :
    xs[i]?.any p ↔ i < (xs.takeWhile p).length := by
  induction h generalizing i with
  | nil => simp
  | @cons x xs hx _ ih =>
    by_cases hp : p x
    · rw [List.takeWhile_cons_of_pos hp]
      cases i with
      | zero => simpa using hp
      | succ i => simpa using ih i
    · rw [List.takeWhile_cons_of_neg hp]
      cases i with
      | zero => simpa using hp
      | succ i =>
        simp only [List.getElem?_cons_succ, List.length_nil, Nat.not_lt_zero, iff_false,
          Option.any_eq_true]
        rintro ⟨y, hy, hpy⟩
        exact hp (hx y (List.mem_of_getElem? hy) hpy)

/-- Halving counts the leading entries with the property. -/
theorem partitionPoint_eq_length (h : xs.Pairwise fun a b => p b → p a) :
    partitionPoint p xs = (xs.takeWhile p).length := by
  have hk := any_getElem?_iff h
  have hle := (xs.takeWhile_sublist p).length_le
  obtain ⟨hbase, hend⟩ := bisect_spec hk (.inl rfl) (hle.trans_eq (Nat.zero_add _).symm)
  unfold partitionPoint
  dsimp only
  split_ifs with hp
  · have := (hk _).1 hp
    omega
  · have := mt (hk _).2 hp
    omega

theorem drop_partitionPoint (h : xs.Pairwise fun a b => p b → p a) :
    xs.drop (partitionPoint p xs) = xs.dropWhile p := by
  calc xs.drop (partitionPoint p xs)
      = (xs.takeWhile p ++ xs.dropWhile p).drop (xs.takeWhile p).length := by
        rw [partitionPoint_eq_length h, List.takeWhile_append_dropWhile]
    _ = xs.dropWhile p := List.drop_left

theorem takeWhile_eq_filter (h : xs.Pairwise fun a b => p b → p a) :
    xs.takeWhile p = xs.filter p := by
  induction h with
  | nil => rfl
  | @cons x xs hx _ ih =>
    by_cases hp : p x
    · rw [List.takeWhile_cons_of_pos hp, List.filter_cons_of_pos hp, ih]
    · rw [List.takeWhile_cons_of_neg hp, List.filter_cons_of_neg hp]
      exact (List.filter_eq_nil_iff.2 fun y hy hpy => hp (hx y hy hpy)).symm

theorem dropWhile_eq_filter (h : xs.Pairwise fun a b => p b → p a) :
    xs.dropWhile p = xs.filter (!p ·) := by
  induction h with
  | nil => rfl
  | @cons x xs hx _ ih =>
    by_cases hp : p x
    · rw [List.dropWhile_cons_of_pos hp, List.filter_cons_of_neg (by simpa using hp), ih]
    · rw [List.dropWhile_cons_of_neg hp]
      refine (List.filter_eq_self.2 fun y hy => ?_).symm
      rcases List.mem_cons.1 hy with rfl | hy
      · simpa using hp
      · simpa using fun hpy => hp (hx y hy hpy)

end

namespace DecorationSet

variable {ds es : DecorationSet} {len : Nat} {r : Interval}

def overlapping (ds : DecorationSet) (lo hi : Nat) : List Decoration :=
  ((ds.drop (partitionPoint (fun d => d.stop ≤ lo) ds)).takeWhile fun d => d.start < hi).filter
    fun d => lo < d.stop

theorem inRange_eq_overlapping (ds : DecorationSet) (r : Interval) :
    ds.inRange r = ds.overlapping r.lo r.hi := rfl

/-- Where each decoration ends before the next starts, the answer is what going through all of them
selects. -/
theorem overlapping_eq_filter (hne : ∀ d ∈ ds, d.start < d.stop)
    (ho : ds.Pairwise fun d e => d.stop ≤ e.start) (lo hi : Nat) :
    ds.overlapping lo hi = ds.filter fun d => lo < d.stop && d.start < hi := by
  have hstop : ds.Pairwise fun d e => e.stop ≤ lo → d.stop ≤ lo := by
    refine ho.imp_of_mem fun {d e} _ he hle hes => ?_
    have := hne e he
    omega
  have hstart : ds.Pairwise fun d e => e.start < hi → d.start < hi := by
    refine ho.imp_of_mem fun {d e} hd _ hle hes => ?_
    have := hne d hd
    omega
  unfold overlapping
  rw [drop_partitionPoint (by simpa using hstop), dropWhile_eq_filter (by simpa using hstop),
    takeWhile_eq_filter (by simpa using hstart.filter _), List.filter_filter, List.filter_filter]
  refine List.filter_congr fun d _ => ?_
  rw [Bool.eq_iff_iff]
  simp only [Bool.and_eq_true, decide_eq_true_eq, Bool.not_eq_true', decide_eq_false_iff_not]
  omega

theorem WellFormed.inRange_eq_filter (h : WellFormed len ds) (r : Interval) :
    ds.inRange r = ds.filter fun d => r.lo < d.stop && d.start < r.hi :=
  overlapping_eq_filter (fun d hd => (h.bounds d hd).1) h.ordered r.lo r.hi

/-- Sets that show the same over each byte of a stretch give the same answer for it. -/
theorem WellFormed.inRange_congr (hd : WellFormed len ds) (he : WellFormed len es)
    (hr : r.lo < r.hi)
    (h : ∀ pos, r.lo ≤ pos → pos < r.hi → ds.covering pos = es.covering pos) :
    ds.inRange r = es.inRange r := by
  -- a decoration in the stretch contains a byte of it
  have hsub : ∀ {ds es : DecorationSet}, WellFormed len ds →
      (∀ pos, r.lo ≤ pos → pos < r.hi → ds.covering pos = es.covering pos) →
      ∀ d ∈ ds, r.lo < d.stop → d.start < r.hi → d ∈ es := by
    intro ds es hw h d hin hlo hhi
    have hlt := (hw.bounds d hin).1
    have hc : d.contains (max d.start r.lo) := Decoration.contains_iff.2 (by omega)
    have hmem := mem_covering.2 ⟨hin, hc⟩
    rw [h _ (by omega) (by omega)] at hmem
    exact (mem_covering.1 hmem).1
  rw [hd.inRange_eq_filter, he.inRange_eq_filter]
  refine eq_of_mem_iff (hd.starts.filter _) (he.starts.filter _) fun d => ?_
  simp only [List.mem_filter, Bool.and_eq_true, decide_eq_true_eq]
  refine and_congr_left fun ⟨hlo, hhi⟩ => ⟨fun hin => ?_, fun hin => ?_⟩
  · exact hsub hd h d hin hlo hhi
  · exact hsub he (fun pos h1 h2 => (h pos h1 h2).symm) d hin hlo hhi

end DecorationSet

end FencedCode
