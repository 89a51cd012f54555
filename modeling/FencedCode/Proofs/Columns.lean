import FencedCode.Columns
import Mathlib.Data.Nat.Basic
import Mathlib.Order.Basic
import Mathlib.Tactic.SplitIfs

namespace FencedCode.Columns

section

variable (width : Char → Nat)

def after (col : Nat) (c : Char) : Nat :=
  if c = '\t' then col + (tab - col % tab) else col + width c

def stop (col : Nat) (t : Text) : Nat := t.foldl (after width) col

/-- What a character is written as. -/
def cell (col : Nat) (c : Char) : Text :=
  if c = '\t' then List.replicate (tab - col % tab) ' ' else [c]

/-- A text from column `col` on with its tabs expanded to multiples of four columns. -/
def expand (col : Nat) : Text → Text
  | [] => []
  | c :: cs => cell col c ++ expand (after width col c) cs

/-- Something of a character can be written: of a tab one space, any other only as a whole. -/
def Enters (limit col : Nat) (c : Char) : Prop :=
  if c = '\t' then col < limit else col + width c ≤ limit

instance (limit col : Nat) (c : Char) : Decidable (Enters width limit col c) :=
  inferInstanceAs (Decidable (if c = '\t' then _ else _))

/-- The characters of a text of which something is written. -/
def taken (limit col : Nat) : Text → Text
  | [] => []
  | c :: cs =>
    if Enters width limit col c then c :: taken limit (min limit (after width col c)) cs else []

def breadth : Text → Nat
  | [] => 0
  | c :: cs => width c + breadth cs

end

variable {width : Char → Nat} {limit col : Nat}

theorem lt_after_tab (col : Nat) : col < after width col '\t' := by
  have : col % tab < tab := Nat.mod_lt _ (by decide)
  simp only [after, if_true]
  omega

theorem le_after (col : Nat) (c : Char) : col ≤ after width col c := by
  unfold after
  split_ifs <;> omega

@[simp] theorem stop_nil (col : Nat) : stop width col [] = col := rfl

@[simp] theorem stop_cons (col : Nat) (c : Char) (t : Text) :
    stop width col (c :: t) = stop width (after width col c) t := rfl

theorem le_stop (col : Nat) (t : Text) : col ≤ stop width col t := by
  induction t generalizing col with
  | nil => exact Nat.le_refl col
  | cons c t ih => exact Nat.le_trans (le_after col c) (ih _)

theorem expand_append (col : Nat) (s t : Text) :
    expand width col (s ++ t) = expand width col s ++ expand width (stop width col s) t := by
  induction s generalizing col with
  | nil => rfl
  | cons c s ih => simp only [List.cons_append, expand, ih, stop_cons, List.append_assoc]

theorem enters_of_after_le {c : Char} (h : after width col c ≤ limit) :
    Enters width limit col c := by
  unfold Enters
  split_ifs with hc
  · subst hc
    exact (lt_after_tab col).trans_le h
  · simpa [after, hc] using h

/-- A character ends at the edge or before it, or it is a tab that is cut, or it does not enter. -/
theorem enters_cases (width : Char → Nat) (limit col : Nat) (c : Char) :
    after width col c ≤ limit ∨ (c = '\t' ∧ col < limit ∧ limit < after width col '\t') ∨
      ¬ Enters width limit col c := by
  by_cases h : after width col c ≤ limit
  · exact .inl h
  · right
    by_cases hc : c = '\t'
    · subst hc
      by_cases hcol : col < limit
      · exact .inl ⟨rfl, hcol, not_le.1 h⟩
      · exact .inr (by simpa [Enters] using hcol)
    · exact .inr (by simpa [Enters, after, hc] using h)

theorem fit_cons_whole {c : Char} (h : after width col c ≤ limit) (t : Text) :
    fit width limit col (c :: t) =
      (cell col c ++ (fit width limit (after width col c) t).1,
        (fit width limit (after width col c) t).2) := by
  rw [fit]
  by_cases hc : c = '\t'
  · subst hc
    have hlt : col % tab < tab := Nat.mod_lt _ (by decide)
    have hspaces : min (tab - col % tab) (limit - col) = tab - col % tab := by
      simp only [after, if_true] at h
      omega
    rw [if_pos rfl, hspaces, if_neg (by omega)]
    simp [cell, after]
  · simp only [after, hc, if_false] at h
    rw [if_neg hc, if_neg (by omega)]
    simp [cell, after, hc]

theorem fit_cons_cut (hcol : col < limit) (h : limit < after width col '\t') (t : Text) :
    fit width limit col ('\t' :: t) =
      (List.replicate (limit - col) ' ' ++ (fit width limit limit t).1,
        (fit width limit limit t).2) := by
  have hspaces : min (tab - col % tab) (limit - col) = limit - col := by
    simp only [after, if_true] at h
    omega
  have hnext : col + (limit - col) = limit := by omega
  rw [fit, if_pos rfl, hspaces, if_neg (by omega), hnext]

theorem cell_cut (h : limit < after width col '\t') :
    ∃ n, cell col '\t' = List.replicate (limit - col) ' ' ++ ' ' :: List.replicate n ' ' := by
  obtain ⟨n, hn⟩ : ∃ n, tab - col % tab = (limit - col) + (n + 1) := by
    refine ⟨tab - col % tab - (limit - col) - 1, ?_⟩
    have : col % tab < tab := Nat.mod_lt _ (by decide)
    simp only [after, if_true] at h
    omega
  exact ⟨n, by
    rw [cell, if_pos rfl, hn, ← List.replicate_succ, List.replicate_append_replicate]⟩

theorem fit_cons_stop {c : Char} (h : ¬ Enters width limit col c) (t : Text) :
    fit width limit col (c :: t) = ([], col) := by
  rw [fit]
  unfold Enters at h
  split_ifs at h with hc
  · rw [if_pos hc, if_pos (by omega)]
  · rw [if_neg hc, if_pos (by omega)]

theorem fit_append {s : Text} (h : stop width col s ≤ limit) (t : Text) :
    fit width limit col (s ++ t) =
      (expand width col s ++ (fit width limit (stop width col s) t).1,
        (fit width limit (stop width col s) t).2) := by
  induction s generalizing col with
  | nil => rfl
  | cons c s ih =>
    have hc : after width col c ≤ limit := (le_stop _ s).trans h
    rw [List.cons_append, fit_cons_whole hc, ih h, expand, List.append_assoc]
    rfl

theorem fit_whole {s : Text} (h : stop width col s ≤ limit) :
    fit width limit col s = (expand width col s, stop width col s) := by
  have hfit := fit_append h []
  rw [List.append_nil] at hfit
  rw [hfit]
  simp [fit]

/-- A text that passes the edge passes it with one of its characters. -/
theorem exists_passing {s : Text} (hcol : col ≤ limit) (h : limit < stop width col s) :
    ∃ a c b, s = a ++ c :: b ∧ stop width col a ≤ limit ∧
      limit < after width (stop width col a) c := by
  induction s generalizing col with
  | nil => exact absurd h (not_lt.2 hcol)
  | cons c s ih =>
    by_cases hc : after width col c ≤ limit
    · obtain ⟨a, c', b, rfl, ha, hpass⟩ := ih hc h
      exact ⟨c :: a, c', b, rfl, ha, hpass⟩
    · exact ⟨[], c, s, rfl, hcol, not_le.1 hc⟩

theorem fit_eq_nil {t : Text} (h : ∀ c ∈ t.head?, ¬ Enters width limit col c) :
    fit width limit col t = ([], col) := by
  cases t with
  | nil => rfl
  | cons c t => exact fit_cons_stop (h c rfl) t

theorem exists_fit_eq_cons (hspace : width ' ' = 1) {c : Char} (h : Enters width limit col c)
    (t : Text) : ∃ d ds, (fit width limit col (c :: t)).1 = d :: ds ∧ col + width d ≤ limit ∧
      (c ≠ '\t' → d = c) := by
  unfold Enters at h
  split_ifs at h with hc
  · have hmod : col % tab < tab := Nat.mod_lt _ (by decide)
    obtain ⟨n, hn⟩ : ∃ n, min (tab - col % tab) (limit - col) = n + 1 :=
      Nat.exists_eq_succ_of_ne_zero (by omega)
    rw [fit, if_pos hc, hn, if_neg (by omega)]
    exact ⟨' ', _, rfl, by omega, fun hne => absurd hc hne⟩
  · rw [fit, if_neg hc, if_neg (by omega)]
    exact ⟨c, _, rfl, h, fun _ => rfl⟩

@[simp] theorem breadth_nil : breadth width [] = 0 := rfl

@[simp] theorem breadth_cons (c : Char) (t : Text) :
    breadth width (c :: t) = width c + breadth width t := rfl

@[simp] theorem breadth_append (s t : Text) :
    breadth width (s ++ t) = breadth width s + breadth width t := by
  induction s with
  | nil => simp
  | cons c s ih => rw [List.cons_append, breadth_cons, breadth_cons, ih, Nat.add_assoc]

theorem breadth_spaces (hspace : width ' ' = 1) (n : Nat) :
    breadth width (List.replicate n ' ') = n := by
  induction n with
  | zero => rfl
  | succ n ih => rw [List.replicate_succ, breadth_cons, ih, hspace, Nat.add_comm]

theorem breadth_cell (hspace : width ' ' = 1) (col : Nat) (c : Char) :
    col + breadth width (cell col c) = after width col c := by
  unfold cell after
  split_ifs
  · rw [breadth_spaces hspace]
  · simp [breadth]

/-- What is written ends at the edge or before it, and takes the columns that it is counted with. -/
theorem fit_snd (hspace : width ' ' = 1) (hcol : col ≤ limit) (t : Text) :
    (fit width limit col t).2 = col + breadth width (fit width limit col t).1 ∧
      (fit width limit col t).2 ≤ limit := by
  induction t generalizing col with
  | nil => simpa [fit, breadth] using hcol
  | cons c t ih =>
    rcases enters_cases width limit col c with h | ⟨rfl, hlt, h⟩ | h
    · obtain ⟨hcount, hle⟩ := ih h
      have hcell := breadth_cell hspace col c
      rw [fit_cons_whole h]
      dsimp only
      rw [breadth_append]
      omega
    · obtain ⟨hcount, hle⟩ := ih (Nat.le_refl limit)
      rw [fit_cons_cut hlt h]
      dsimp only
      rw [breadth_append, breadth_spaces hspace]
      omega
    · rw [fit_cons_stop h]
      simpa [breadth] using hcol

theorem mem_cell_iff {c : Char} (hc : c ≠ ' ') (col : Nat) (d : Char) :
    c ∈ cell col d ↔ c = d ∧ c ≠ '\t' := by
  unfold cell
  split_ifs with hd
  · subst hd
    simp [hc]
  · rw [List.mem_singleton, iff_self_and]
    rintro rfl
    exact hd

theorem mem_fit_iff {c : Char} (hc : c ≠ ' ') (limit col : Nat) (t : Text) :
    c ∈ (fit width limit col t).1 ↔ c ∈ taken width limit col t ∧ c ≠ '\t' := by
  induction t generalizing col with
  | nil => simp [fit, taken]
  | cons d t ih =>
    rcases enters_cases width limit col d with h | ⟨rfl, hlt, h⟩ | h
    · rw [fit_cons_whole h, taken, if_pos (enters_of_after_le h), Nat.min_eq_right h,
        List.mem_append, List.mem_cons, mem_cell_iff hc, ih, or_and_right]
    · have henters : Enters width limit col '\t' := by simpa [Enters] using hlt
      rw [fit_cons_cut hlt h, taken, if_pos henters, Nat.min_eq_left h.le, List.mem_append,
        List.mem_cons, ih, or_and_right]
      simp [hc]
    · rw [fit_cons_stop h, taken, if_neg h]
      simp

end FencedCode.Columns
