import FencedCode.Interval
import Mathlib.Data.List.Sort

namespace FencedCode

theorem pairwise_trichotomy {α : Type*} {R : α → α → Prop} {l : List α} (h : l.Pairwise R) {a b : α}
    (ha : a ∈ l) (hb : b ∈ l) : a = b ∨ R a b ∨ R b a := by
  induction l with
  | nil => simp at ha
  | cons x xs ih =>
    obtain ⟨hx, hxs⟩ := List.pairwise_cons.1 h
    rcases List.mem_cons.1 ha with rfl | ha' <;> rcases List.mem_cons.1 hb with rfl | hb'
    · exact .inl rfl
    · exact .inr (.inl (hx b hb'))
    · exact .inr (.inr (hx a ha'))
    · exact ih hxs ha' hb'

namespace Interval

/-- Some interval of the list touches the offset. -/
def Touched (rs : List Interval) (pos : Nat) : Prop := ∃ r ∈ rs, r.lo ≤ pos ∧ pos ≤ r.hi

/-- The byte at the offset lies in some interval of the list. -/
def Covered (rs : List Interval) (pos : Nat) : Prop := ∃ r ∈ rs, r.lo ≤ pos ∧ pos < r.hi

theorem Covered.touched {rs : List Interval} {pos : Nat} (h : Covered rs pos) : Touched rs pos := by
  obtain ⟨r, hr, hlo, hhi⟩ := h
  exact ⟨r, hr, hlo, hhi.le⟩

@[simp] theorem between_lo (a b : Nat) : (between a b).lo = min a b := rfl

@[simp] theorem between_hi (a b : Nat) : (between a b).hi = max a b := rfl

theorem eq_between_self_iff {i : Interval} {n : Nat} :
    i = between n n ↔ i.lo = n ∧ i.hi = n := by
  cases i
  simp [between]

theorem any_touches {rs : List Interval} {pos : Nat} :
    rs.any (·.touches pos) = true ↔ Touched rs pos := by
  simp [Touched, touches]

theorem intersects_iff_le {r s : Interval} :
    r.intersects s = true ↔ r.lo ≤ s.hi ∧ s.lo ≤ r.hi := by
  simp only [intersects, Bool.and_eq_true, decide_eq_true_eq]

theorem intersects_iff {r s : Interval} :
    r.intersects s = true ↔ ∃ pos, (r.lo ≤ pos ∧ pos ≤ r.hi) ∧ s.lo ≤ pos ∧ pos ≤ s.hi := by
  have hr := r.lo_le_hi
  have hs := s.lo_le_hi
  rw [intersects_iff_le]
  constructor
  · intro h
    exact ⟨max r.lo s.lo, by omega, by omega⟩
  · rintro ⟨pos, h, h'⟩
    omega

theorem any_intersects {rs : List Interval} {s : Interval} :
    rs.any (·.intersects s) = true ↔ ∃ pos, Touched rs pos ∧ s.lo ≤ pos ∧ pos ≤ s.hi := by
  simp only [List.any_eq_true, intersects_iff, Touched]
  constructor
  · rintro ⟨r, hr, pos, h, h'⟩
    exact ⟨pos, ⟨r, hr, h⟩, h'⟩
  · rintro ⟨pos, ⟨r, hr, h⟩, h'⟩
    exact ⟨r, hr, pos, h, h'⟩

theorem touched_append {rs ss : List Interval} {pos : Nat} :
    Touched (rs ++ ss) pos ↔ Touched rs pos ∨ Touched ss pos := by
  simp [Touched, or_and_right, exists_or]

theorem touched_inter? {r s : Interval} {pos : Nat} :
    (∃ i, r.inter? s = some i ∧ i.lo ≤ pos ∧ pos ≤ i.hi) ↔
      (r.lo ≤ pos ∧ pos ≤ r.hi) ∧ s.lo ≤ pos ∧ pos ≤ s.hi := by
  have hr := r.lo_le_hi
  have hs := s.lo_le_hi
  unfold inter?
  split_ifs with h
  · rw [intersects_iff_le] at h
    simp only [Option.some.injEq, exists_eq_left', between_lo, between_hi]
    omega
  · rw [intersects_iff_le] at h
    simp only [false_and, exists_false, false_iff]
    omega

abbrev Ascending (rs : List Interval) : Prop := rs.Pairwise fun r s => r.lo ≤ s.lo

theorem mergeSort_ascending (rs : List Interval) : Ascending (rs.mergeSort before) := by
  have h : (rs.mergeSort before).Pairwise (before · ·) := List.pairwise_mergeSort
    (by simp only [before, Bool.or_eq_true, Bool.and_eq_true, decide_eq_true_eq, beq_iff_eq]; omega)
    (by simp only [before, Bool.or_eq_true, Bool.and_eq_true, decide_eq_true_eq, beq_iff_eq]; omega)
    rs
  apply h.imp
  intro r s hrs
  simp only [before, Bool.or_eq_true, Bool.and_eq_true, decide_eq_true_eq, beq_iff_eq] at hrs
  omega

/-- Joining intervals that touch changes neither the offsets (`len = 0`) nor the bytes (`len = 1`)
in them. -/
theorem exists_mem_coalesce {cur : Interval} {rs : List Interval} (h : Ascending (cur :: rs))
    {pos len : Nat} (hlen : len ≤ 1) :
    (∃ r ∈ coalesce cur rs, r.lo ≤ pos ∧ pos + len ≤ r.hi) ↔
      ∃ r ∈ cur :: rs, r.lo ≤ pos ∧ pos + len ≤ r.hi := by
  induction rs generalizing cur with
  | nil => simp [coalesce]
  | cons r rs ih =>
    obtain ⟨hcur, hrs⟩ := List.pairwise_cons.1 h
    have hr := hcur r List.mem_cons_self
    unfold coalesce
    split_ifs with htouch
    · -- the two overlap or meet, so what lies in their union lies in one of them
      rw [ih]
      · have := r.lo_le_hi
        have := cur.lo_le_hi
        simp only [List.mem_cons, exists_eq_or_imp, extend]
        rw [← or_assoc]
        refine or_congr ?_ Iff.rfl
        omega
      · exact List.pairwise_cons.2
          ⟨fun s hs => hcur s (List.mem_cons_of_mem _ hs), (List.pairwise_cons.1 hrs).2⟩
    · simp only [List.mem_cons, exists_eq_or_imp] at ih ⊢
      rw [ih hrs]

theorem coalesce_pairwise {cur : Interval} {rs : List Interval} (h : Ascending (cur :: rs)) :
    (coalesce cur rs).Pairwise (fun r s => r.hi < s.lo) ∧ ∀ r ∈ coalesce cur rs, cur.lo ≤ r.lo := by
  induction rs generalizing cur with
  | nil => simp [coalesce]
  | cons r rs ih =>
    obtain ⟨hcur, hrs⟩ := List.pairwise_cons.1 h
    have hr := hcur r List.mem_cons_self
    unfold coalesce
    split_ifs with htouch
    · exact ih (List.pairwise_cons.2
        ⟨fun s hs => hcur s (List.mem_cons_of_mem _ hs), (List.pairwise_cons.1 hrs).2⟩)
    · obtain ⟨hp, hlo⟩ := ih hrs
      refine ⟨List.pairwise_cons.2 ⟨fun s hs => ?_, hp⟩, fun s hs => ?_⟩
      · have := hlo s hs
        omega
      · rcases List.mem_cons.1 hs with rfl | hs
        · exact le_rfl
        · exact hr.trans (hlo s hs)

theorem exists_mem_normalize {rs : List Interval} {pos len : Nat} (hlen : len ≤ 1) :
    (∃ r ∈ normalize rs, r.lo ≤ pos ∧ pos + len ≤ r.hi) ↔
      ∃ r ∈ rs, r.lo ≤ pos ∧ pos + len ≤ r.hi := by
  have hs := mergeSort_ascending rs
  have hm : ∀ r, r ∈ rs.mergeSort before ↔ r ∈ rs := fun r => List.mem_mergeSort
  unfold normalize
  split
  · rename_i he
    simp only [he, List.not_mem_nil, false_iff] at hm
    simp [hm]
  · rename_i cur rest he
    rw [he] at hs hm
    rw [exists_mem_coalesce hs hlen]
    simp only [hm]

/-- In canonical form each interval ends before the next begins. -/
theorem normalize_pairwise (rs : List Interval) :
    (normalize rs).Pairwise fun r s => r.hi < s.lo := by
  have hs := mergeSort_ascending rs
  unfold normalize
  split
  · exact .nil
  · rename_i he
    rw [he] at hs
    exact (coalesce_pairwise hs).1

@[simp] theorem touched_normalize {rs : List Interval} {pos : Nat} :
    Touched (normalize rs) pos ↔ Touched rs pos :=
  exists_mem_normalize (Nat.zero_le 1)

@[simp] theorem covered_normalize {rs : List Interval} {pos : Nat} :
    Covered (normalize rs) pos ↔ Covered rs pos :=
  exists_mem_normalize le_rfl

theorem touched_clamp {rs : List Interval} {len pos : Nat} (h : Touched rs pos) (hpos : pos ≤ len) :
    Touched (rs.map (·.clamp len)) pos := by
  obtain ⟨r, hr, hlo, hhi⟩ := h
  refine ⟨r.clamp len, List.mem_map_of_mem hr, ?_⟩
  simp only [clamp, between_lo, between_hi]
  omega

theorem map_clamp {rs : List Interval} {len : Nat} (h : ∀ r ∈ rs, r.hi ≤ len) :
    rs.map (·.clamp len) = rs := by
  refine (List.map_congr_left fun r hr => ?_).trans (List.map_id rs)
  have hhi := h r hr
  rcases r with ⟨lo, hi, hle⟩
  simp only [clamp, between, id, mk.injEq] at hhi ⊢
  omega

theorem clamp_hi_le (r : Interval) (len : Nat) : (r.clamp len).hi ≤ len := by
  simp only [clamp, between_hi]
  omega

theorem normalize_clamp_hi_le {rs : List Interval} {len : Nat} :
    ∀ v ∈ normalize (rs.map (·.clamp len)), v.hi ≤ len := by
  intro v hv
  obtain ⟨c, hc, -, hle⟩ := touched_normalize.1 ⟨v, hv, v.lo_le_hi, le_rfl⟩
  obtain ⟨r, -, rfl⟩ := List.mem_map.1 hc
  exact hle.trans (r.clamp_hi_le len)

theorem carve_le (start : Nat) {stop : Nat} (cuts : List Interval) (hs : start ≤ stop)
    (hc : ∀ cut ∈ cuts, cut.lo ≤ stop) :
    ∀ r ∈ carve start stop cuts, start ≤ r.lo ∧ r.hi ≤ stop := by
  induction cuts generalizing start with
  | nil =>
    intro r hr
    unfold carve at hr
    split_ifs at hr with h
    · obtain rfl := List.mem_singleton.1 hr
      simp only [between_lo, between_hi]
      omega
    · simp at hr
  | cons cut cuts ih =>
    intro r hr
    have hcut := hc cut List.mem_cons_self
    rcases List.mem_append.1 hr with hr | hr
    · split_ifs at hr with h
      · obtain rfl := List.mem_singleton.1 hr
        simp only [between_lo, between_hi]
        omega
      · simp at hr
    · split_ifs at hr with h
      · simp at hr
      · have := ih (max start cut.hi) (by omega)
          (fun c h => hc c (List.mem_cons_of_mem _ h)) r hr
        omega

theorem covered_carve (start : Nat) {stop pos : Nat} (cuts : List Interval) (hlo : start ≤ pos)
    (hhi : pos < stop) (hc : ¬ Covered cuts pos) : Covered (carve start stop cuts) pos := by
  induction cuts generalizing start with
  | nil =>
    refine ⟨between start stop, ?_, ?_⟩
    · simp [carve, show start < stop by omega]
    · simp only [between_lo, between_hi]
      omega
  | cons cut cuts ih =>
    have hout : ¬ (cut.lo ≤ pos ∧ pos < cut.hi) := fun h => hc ⟨cut, List.mem_cons_self, h⟩
    have hrest : ¬ Covered cuts pos := fun ⟨r, hr, h⟩ => hc ⟨r, List.mem_cons_of_mem _ hr, h⟩
    unfold carve
    -- the byte lies before the cut or behind it
    by_cases hbefore : pos < cut.lo
    · refine ⟨between start cut.lo, List.mem_append_left _ ?_, ?_⟩
      · simp [show start < cut.lo by omega]
      · simp only [between_lo, between_hi]
        omega
    · obtain ⟨r, hr, h⟩ := ih (max start cut.hi) (by omega) hrest
      refine ⟨r, List.mem_append_right _ ?_, h⟩
      rwa [if_neg (by omega)]

theorem cuts_le (covered : List Interval) (r : Interval) :
    ∀ cut ∈ (normalize covered).filter (·.intersects r), cut.lo ≤ r.hi := by
  intro cut hcut
  exact (intersects_iff_le.1 (List.mem_filter.1 hcut).2).1

/-- What `subtract` leaves lies in the intervals it was taken from. -/
theorem touched_of_touched_subtract {rs covered : List Interval} {pos : Nat}
    (h : Touched (subtract rs covered) pos) : Touched rs pos := by
  obtain ⟨r, hr, hlo, hhi⟩ := h
  obtain ⟨s, hs, hr⟩ := List.mem_flatMap.1 hr
  have hle := carve_le s.lo _ s.lo_le_hi (cuts_le covered s) r hr
  exact touched_normalize.1 ⟨s, hs, by omega⟩

/-- A byte that only the first list covers is left by `subtract`. -/
theorem covered_subtract {rs covered : List Interval} {pos : Nat} (h : Covered rs pos)
    (hc : ¬ Covered covered pos) : Covered (subtract rs covered) pos := by
  obtain ⟨r, hr, hlo, hhi⟩ := covered_normalize.2 h
  obtain ⟨s, hs, h⟩ := covered_carve r.lo ((normalize covered).filter (·.intersects r)) hlo hhi
    (fun ⟨cut, hcut, h⟩ => hc (covered_normalize.1 ⟨cut, (List.mem_filter.1 hcut).1, h⟩))
  exact ⟨s, List.mem_flatMap.2 ⟨r, hr, hs⟩, h⟩

end Interval

end FencedCode
