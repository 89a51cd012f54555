import FencedCode.Pattern.CharSet
import FencedCode.Text.Blank
import Mathlib.Data.List.Sort

namespace FencedCode

namespace Text.Table

def Ordered (t : Table) : Prop :=
  (∀ r ∈ t.toList, r.1 ≤ r.2) ∧ t.toList.Pairwise fun r s => r.2 < s.1

instance (t : Table) : Decidable t.Ordered :=
  inferInstanceAs (Decidable (_ ∧ _))

variable {t : Table} {n lo hi : Nat}

theorem Ordered.lt (h : t.Ordered) {i j : Nat} {r s : Nat × Nat} (hi : t[i]? = some r)
    (hj : t[j]? = some s) (hij : i < j) : r.1 ≤ r.2 ∧ r.2 < s.1 ∧ s.1 ≤ s.2 := by
  rw [← Array.getElem?_toList] at hi hj
  obtain ⟨hil, hir⟩ := List.getElem?_eq_some_iff.1 hi
  obtain ⟨hjl, hjs⟩ := List.getElem?_eq_some_iff.1 hj
  refine ⟨h.1 r (List.mem_of_getElem? hi), ?_, h.1 s (List.mem_of_getElem? hj)⟩
  have := List.pairwise_iff_getElem.1 h.2 i j hil hjl hij
  rwa [hir, hjs] at this

/-- The search finds the range that holds a number, if there is one between the bounds. -/
theorem search_iff (h : t.Ordered) (hhi : hi ≤ t.size) : t.search n lo hi ↔
    ∃ i r, lo ≤ i ∧ i < hi ∧ t[i]? = some r ∧ r.1 ≤ n ∧ n ≤ r.2 := by
  fun_induction search t n lo hi with
  | case1 lo hi hlt mid hnone =>
    have hsize : t.size ≤ mid := Array.getElem?_eq_none_iff.1 hnone
    omega
  | case2 lo hi hlt mid first last hmid hbefore ih =>
    rw [ih (by omega)]
    refine exists_congr fun i => exists_congr fun r => and_congr_right fun hlo => ?_
    refine ⟨fun ⟨hi, hr⟩ => ⟨by omega, hr⟩, fun ⟨hi, hr, hn⟩ => ⟨?_, hr, hn⟩⟩
    -- a range from the middle on lies behind the number
    by_contra! hle
    rcases hle.eq_or_lt with rfl | hlt'
    · obtain rfl := Option.some.inj (hmid.symm.trans hr)
      omega
    · have := h.lt hmid hr hlt'
      omega
  | case3 lo hi hlt mid first last hmid hbefore hbehind ih =>
    rw [ih hhi]
    refine exists_congr fun i => exists_congr fun r => ?_
    refine ⟨fun ⟨hlo, hr⟩ => ⟨by omega, hr⟩, fun ⟨hlo, hi, hr, hn⟩ => ⟨?_, hi, hr, hn⟩⟩
    by_contra! hle
    rcases (Nat.lt_succ_iff.1 hle).eq_or_lt with rfl | hlt'
    · obtain rfl := Option.some.inj (hmid.symm.trans hr)
      omega
    · have := h.lt hr hmid hlt'
      omega
  | case4 lo hi hlt mid first last hmid hbefore hbehind =>
    refine iff_of_true rfl ⟨mid, (first, last), by omega, by omega, hmid, ?_, ?_⟩
    · exact not_lt.1 hbefore
    · exact not_lt.1 hbehind
  | case5 lo hi hlt =>
    simp only [Bool.false_eq_true, false_iff]
    rintro ⟨i, r, hlo, hi, -⟩
    omega

theorem contains_iff (h : t.Ordered) :
    t.contains n ↔ ∃ r ∈ t.toList, r.1 ≤ n ∧ n ≤ r.2 := by
  rw [contains, search_iff h le_rfl]
  simp only [List.mem_iff_getElem?, Array.getElem?_toList]
  constructor
  · rintro ⟨i, r, -, -, hr, hn⟩
    exact ⟨r, ⟨i, hr⟩, hn⟩
  · rintro ⟨r, ⟨i, hr⟩, hn⟩
    exact ⟨i, r, Nat.zero_le i, (Array.getElem?_eq_some_iff.1 hr).1, hr, hn⟩

end Text.Table

namespace CharSet

theorem contains_single (d c : Char) : (single d).contains c ↔ c = d := by
  have hordered : (single d).ranges.Ordered := by simp [Text.Table.Ordered, single]
  rw [contains, Text.Table.contains_iff hordered, ← Char.toNat_inj]
  simp only [single, List.mem_singleton, exists_eq_left]
  omega

theorem any_contains_single {d : Char} {next : Option Char} :
    next.any (single d).contains ↔ next = some d := by
  cases next with
  | none => simp
  | some c => simp [contains_single]

theorem complement_blank : blank.complement = ⟨#[(0, 8), (14, 31), (33, 132), (134, 159),
    (161, 5759), (5761, 8191), (8203, 8231), (8234, 8238), (8240, 8286), (8288, 12287),
    (12289, 55295), (57344, 1114111)]⟩ := by decide

theorem contains_complement_blank : blank.complement.contains = fun c => !Text.isBlank c := by
  funext c
  have hordered : blank.complement.ranges.Ordered := by
    rw [complement_blank]
    decide
  have hvalid : c.toNat < 0xd800 ∨ 0xdfff < c.toNat ∧ c.toNat < 0x110000 := c.valid
  rw [Bool.eq_iff_iff, contains, Text.Table.contains_iff hordered, complement_blank]
  simp only [List.mem_cons, List.not_mem_nil, or_false, exists_eq_or_imp, Nat.zero_le, true_and,
    ↓existsAndEq, Text.isBlank, Bool.not_or, Bool.not_and, Bool.and_eq_true, Bool.or_eq_true,
    Bool.not_eq_eq_eq_not, Bool.not_true, decide_eq_false_iff_not, not_le, beq_eq_false_iff_ne,
    ne_eq]
  omega

end CharSet

end FencedCode
