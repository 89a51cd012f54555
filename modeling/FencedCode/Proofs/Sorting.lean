import Mathlib.Data.List.Sort

namespace FencedCode

variable {α : Type*} {le : α → α → Bool}

theorem append_cut {a : α} {l₁ l₂ m₁ m₂ : List α} (h : l₁ ++ l₂ = m₁ ++ m₂)
    (hl₁ : ∀ b ∈ l₁, le a b = false) (hl₂ : ∀ b ∈ l₂, le a b = true)
    (hm₁ : ∀ b ∈ m₁, le a b = false) (hm₂ : ∀ b ∈ m₂, le a b = true) : l₁ = m₁ ∧ l₂ = m₂ := by
  have hsplit : ∀ {u v : List α}, (∀ b ∈ u, le a b = false) → (∀ b ∈ v, le a b = true) →
      (u ++ v).filter (fun b => !le a b) = u ∧ (u ++ v).filter (le a) = v := by
    intro u v hu hv
    rw [List.filter_append, List.filter_append,
      List.filter_eq_self.2 fun b hb => by rw [hu b hb]; rfl,
      List.filter_eq_nil_iff.2 fun b hb => by simp [hv b hb],
      List.filter_eq_nil_iff.2 fun b hb => by simp [hu b hb],
      List.filter_eq_self.2 hv, List.append_nil, List.nil_append]
    exact ⟨rfl, rfl⟩
  obtain ⟨hl, hl'⟩ := hsplit hl₁ hl₂
  obtain ⟨hm, hm'⟩ := hsplit hm₁ hm₂
  rw [h] at hl hl'
  exact ⟨hl.symm.trans hm, hl'.symm.trans hm'⟩

/-- It does not matter whether a list is sorted before or after some entries are left out. -/
theorem filter_mergeSort (trans : ∀ a b c, le a b → le b c → le a c)
    (total : ∀ a b, le a b || le b a) (p : α → Bool) (l : List α) :
    (l.mergeSort le).filter p = (l.filter p).mergeSort le := by
  induction l with
  | nil => rw [List.filter_nil, List.mergeSort_nil, List.filter_nil]
  | cons a l ih =>
    obtain ⟨l₁, l₂, hl, hrest, hl₁⟩ := List.mergeSort_cons trans total a l
    by_cases ha : p a
    · obtain ⟨m₁, m₂, hm, hrest', hm₁⟩ := List.mergeSort_cons trans total a (l.filter p)
      have hsorted := List.pairwise_mergeSort trans total (a :: l)
      have hsorted' := List.pairwise_mergeSort trans total (a :: l.filter p)
      rw [hl] at hsorted
      rw [hm] at hsorted'
      -- both put the first entry in front of all that is not below it
      have hsame : l₁.filter p ++ l₂.filter p = m₁ ++ m₂ := by
        rw [← List.filter_append, ← hrest, ih, hrest']
      obtain ⟨h₁, h₂⟩ := append_cut hsame
        (fun b hb => by simpa using hl₁ b (List.mem_filter.1 hb).1)
        (fun b hb => (List.pairwise_cons.1 (List.pairwise_append.1 hsorted).2.1).1 b
          (List.mem_filter.1 hb).1)
        (fun b hb => by simpa using hm₁ b hb)
        (List.pairwise_cons.1 (List.pairwise_append.1 hsorted').2.1).1
      rw [List.filter_cons_of_pos ha, hl, hm, List.filter_append, List.filter_cons_of_pos ha, h₁,
        h₂]
    · rw [List.filter_cons_of_neg ha, hl, List.filter_append, List.filter_cons_of_neg ha,
        ← List.filter_append, ← hrest, ih]

/-- What merges two lists, by a recursion that evaluation can follow: at most `n` entries are
compared. -/
def mergeWithin (le : α → α → Bool) : Nat → List α → List α → List α
  | n + 1, x :: xs, y :: ys =>
    if le x y then x :: mergeWithin le n xs (y :: ys) else y :: mergeWithin le n (x :: xs) ys
  | _, xs, ys => xs ++ ys

def sortWithin (le : α → α → Bool) : Nat → List α → List α
  | n + 1, x :: y :: xs =>
    let half := (xs.length + 3) / 2
    mergeWithin le (xs.length + 2) (sortWithin le n ((x :: y :: xs).take half))
      (sortWithin le n ((x :: y :: xs).drop half))
  | _, xs => xs

theorem merge_eq_mergeWithin (le : α → α → Bool) {n : Nat} {xs ys : List α}
    (h : xs.length + ys.length ≤ n) : xs.merge ys le = mergeWithin le n xs ys := by
  induction n generalizing xs ys with
  | zero =>
    obtain rfl := List.length_eq_zero_iff.1 (show xs.length = 0 by omega)
    simp only [List.nil_merge, mergeWithin, List.nil_append]
  | succ n ih =>
    cases xs with
    | nil => simp only [List.nil_merge, mergeWithin, List.nil_append]
    | cons x xs =>
      cases ys with
      | nil => simp only [List.merge_right, mergeWithin, List.append_nil]
      | cons y ys =>
        simp only [List.length_cons] at h
        rw [mergeWithin, List.cons_merge_cons, ih (by simp only [List.length_cons]; omega),
          ih (by simp only [List.length_cons]; omega)]

theorem mergeSort_eq_sortWithin_of_le (le : α → α → Bool) {n : Nat} {xs : List α}
    (h : xs.length ≤ n) : xs.mergeSort le = sortWithin le n xs := by
  induction n generalizing xs with
  | zero =>
    obtain rfl := List.length_eq_zero_iff.1 (show xs.length = 0 by omega)
    simp only [List.mergeSort_nil, sortWithin]
  | succ n ih =>
    match xs with
    | [] => simp only [List.mergeSort_nil, sortWithin]
    | [x] => simp only [List.mergeSort_singleton, sortWithin]
    | x :: y :: xs =>
      simp only [List.length_cons] at h
      have hmerge (ys zs : List α) (hlen : ys.length + zs.length = xs.length + 2) :
          (ys.mergeSort le).merge (zs.mergeSort le) le =
            mergeWithin le (xs.length + 2) (ys.mergeSort le) (zs.mergeSort le) := by
        apply merge_eq_mergeWithin
        rw [List.length_mergeSort, List.length_mergeSort]
        omega
      rw [List.mergeSort, List.MergeSort.Internal.splitInTwo_fst,
        List.MergeSort.Internal.splitInTwo_snd, hmerge, sortWithin, ih, ih]
      · rfl
      · simp only [List.length_drop, List.length_cons]
        omega
      · simp only [List.length_take, List.length_cons]
        omega
      · simp only [List.length_take, List.length_drop, List.length_cons]
        omega

/-- Sorting in a form that evaluation can follow. -/
theorem mergeSort_eq_sortWithin (le : α → α → Bool) (xs : List α) :
    xs.mergeSort le = sortWithin le xs.length xs :=
  mergeSort_eq_sortWithin_of_le le le_rfl

end FencedCode
