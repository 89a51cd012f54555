import FencedCode.Proofs.Columns
import FencedCode.Text.Width

namespace FencedCode.Columns

section

variable (width : Char → Nat)

/-- What a text is written as from a column on up to a limit, and the column behind it. -/
inductive Writes (limit col : Nat) : Text → Text → Nat → Prop
  /-- The text is written whole, each tab as the spaces up to the next multiple of four. -/
  | whole {s : Text} (h : stop width col s ≤ limit) :
      Writes limit col s (expand width col s) (stop width col s)
  /-- The last tab is cut at the limit, and what stands behind it takes no columns. -/
  | cut {a b : Text} (ha : stop width col a < limit)
      (htab : limit < after width (stop width col a) '\t') (hb : '\t' ∉ b)
      (hmarks : breadth width b = 0) :
      Writes limit col (a ++ '\t' :: b)
        (expand width col a ++ List.replicate (limit - stop width col a) ' ' ++ b) limit

end

variable {width : Char → Nat} {limit col column : Nat} {s out : Text}

theorem Writes.le (h : Writes width limit col s out column) : column ≤ limit := by
  cases h with
  | whole h => exact h
  | cut => exact Nat.le_refl limit

/-- At the limit marks without columns are still written. -/
theorem exists_fit_limit (width : Char → Nat) (limit : Nat) (t : Text) :
    ∃ b r, t = b ++ r ∧ fit width limit limit t = (b, limit) ∧ '\t' ∉ b ∧ breadth width b = 0 ∧
      ∀ c ∈ r.head?, ¬ Enters width limit limit c := by
  induction t with
  | nil => exact ⟨[], [], rfl, rfl, List.not_mem_nil, rfl, by simp⟩
  | cons c t ih =>
    by_cases henters : Enters width limit limit c
    · have hc : c ≠ '\t' ∧ width c = 0 := by
        unfold Enters at henters
        split_ifs at henters with htab
        · exact absurd henters (Nat.lt_irrefl limit)
        · exact ⟨htab, by omega⟩
      have hafter : after width limit c = limit := by simp [after, hc.1, hc.2]
      obtain ⟨b, r, rfl, hfit, htab, hb, hr⟩ := ih
      refine ⟨c :: b, r, rfl, ?_, ?_, ?_, hr⟩
      · rw [fit_cons_whole hafter.le, hafter, hfit, cell, if_neg hc.1]
        rfl
      · simp [hc.1.symm, htab]
      · rw [breadth_cons, hc.2, hb]
    · refine ⟨[], c :: t, rfl, fit_cons_stop henters t, List.not_mem_nil, rfl, ?_⟩
      simpa using henters

/-- A prefix is written, and the first character left out does not enter where it ends. -/
theorem exists_writes (hcol : col ≤ limit) (t : Text) :
    ∃ s r out column, t = s ++ r ∧ fit width limit col t = (out, column) ∧
      Writes width limit col s out column ∧ ∀ c ∈ r.head?, ¬ Enters width limit column c := by
  by_cases ht : stop width col t ≤ limit
  · exact ⟨t, [], _, _, (List.append_nil t).symm, fit_whole ht, .whole ht, by simp⟩
  · obtain ⟨a, c, b, rfl, ha, hpass⟩ := exists_passing hcol (not_le.1 ht)
    rcases enters_cases width limit (stop width col a) c with hle | ⟨rfl, hlt, hcut⟩ | hout
    · exact absurd hpass (not_lt.2 hle)
    · obtain ⟨m, r, rfl, hfit, htab, hm, hr⟩ := exists_fit_limit width limit b
      refine ⟨a ++ '\t' :: m, r, _, _, by simp, ?_, .cut hlt hcut htab hm, hr⟩
      rw [fit_append ha, fit_cons_cut hlt hcut, hfit, List.append_assoc]
    · refine ⟨a, c :: b, _, _, rfl, ?_, .whole ha, by simpa using hout⟩
      rw [fit_append ha, fit_cons_stop hout, List.append_nil]

def plain (t : Text) : Text := t.filter fun c => c ≠ '\t'

theorem plain_append (s t : Text) : plain (s ++ t) = plain s ++ plain t := List.filter_append s t

theorem plain_eq_self (h : '\t' ∉ s) : plain s = s := by
  refine List.filter_eq_self.2 fun c hc => ?_
  have hne : c ≠ '\t' := fun htab => h (htab ▸ hc)
  simpa using hne

theorem after_count (width : Char → Nat) (col : Nat) (c : Char) :
    after width col c + (plain [c]).length =
      col + breadth width (plain [c]) + (cell col c).length := by
  unfold after cell plain
  split_ifs with hc
  · simp [hc]
  · simp [hc]

theorem stop_count (width : Char → Nat) (col : Nat) (s : Text) :
    stop width col s + (plain s).length =
      col + breadth width (plain s) + (expand width col s).length := by
  induction s generalizing col with
  | nil => rfl
  | cons c s ih =>
    have hc := after_count width col c
    have hs := ih (after width col c)
    have hplain : plain (c :: s) = plain [c] ++ plain s := plain_append [c] s
    rw [hplain, breadth_append, List.length_append, stop_cons, expand, List.length_append]
    omega

/-- Each character but the tabs is counted with its width, and each space that a tab becomes with
one column. -/
theorem Writes.count (h : Writes width limit col s out column) :
    column + (plain s).length = col + breadth width (plain s) + out.length := by
  cases h with
  | whole => exact stop_count width col s
  | @cut a b ha htab hb hmarks =>
    have hcount := stop_count width col a
    have hplain : plain (a ++ '\t' :: b) = plain a ++ b := by
      rw [plain_append, ← List.singleton_append, plain_append, plain_eq_self hb]
      rfl
    rw [hplain, breadth_append, List.length_append, hmarks, List.length_append, List.length_append,
      List.length_replicate]
    omega

theorem stop_eq_add_breadth (col : Nat) (h : '\t' ∉ s) :
    stop width col s = col + breadth width s := by
  induction s generalizing col with
  | nil => rfl
  | cons c s ih =>
    obtain ⟨hc, hs⟩ := not_or.1 fun h' => h (List.mem_cons.2 h')
    rw [stop_cons, ih _ hs, after, if_neg (Ne.symm hc), breadth_cons, Nat.add_assoc]

theorem taken_append (h : stop width col s ≤ limit) (r : Text) :
    taken width limit col (s ++ r) = s ++ taken width limit (stop width col s) r := by
  induction s generalizing col with
  | nil => rfl
  | cons c s ih =>
    have hc : after width col c ≤ limit := (le_stop _ s).trans h
    rw [List.cons_append, taken, if_pos (enters_of_after_le hc), Nat.min_eq_right hc, ih h]
    rfl

theorem Writes.taken_append (h : Writes width limit col s out column) (r : Text) :
    taken width limit col (s ++ r) = s ++ taken width limit column r := by
  cases h with
  | whole h => exact Columns.taken_append h r
  | @cut a b ha htab hb hmarks =>
    have hstop : stop width limit b = limit := by rw [stop_eq_add_breadth limit hb, hmarks]; rfl
    have henters : Enters width limit (stop width col a) '\t' := by simpa [Enters] using ha
    rw [List.append_assoc, Columns.taken_append ha.le, List.cons_append, taken, if_pos henters,
      Nat.min_eq_left htab.le, Columns.taken_append hstop.le, hstop, List.append_assoc,
      List.cons_append]

theorem taken_eq_nil {t : Text} (h : ∀ c ∈ t.head?, ¬ Enters width limit col c) :
    taken width limit col t = [] := by
  cases t with
  | nil => rfl
  | cons c t => rw [taken, if_neg (h c rfl)]

/-- What is written of a text is the longest prefix that can be written up to the limit, with its
tabs expanded and the last of them perhaps cut. It ends at the column told, at the limit or before
it: each character but the tabs is counted with its width and each space that a tab becomes with one
column, which is the width of what is written if a space takes one. The first character left out
would end beyond the limit. -/
theorem fit_longest (width : Char → Nat) {limit col : Nat} (hcol : col ≤ limit) (t : Text) :
    ∃ s r out column, t = s ++ r ∧ fit width limit col t = (out, column) ∧
      Writes width limit col s out column ∧
      (∀ s' out' column', s' <+: t → Writes width limit col s' out' column' → s' <+: s) ∧
      column ≤ limit ∧
      column + (plain s).length = col + breadth width (plain s) + out.length ∧
      (width ' ' = 1 → column = col + breadth width out) ∧
      ∀ c ∈ r.head?, (c = '\t' ∧ column = limit) ∨ (c ≠ '\t' ∧ limit < column + width c) := by
  obtain ⟨s, r, out, column, rfl, hfit, hwrites, hr⟩ := exists_writes hcol t
  refine ⟨s, r, out, column, rfl, hfit, hwrites, ?_, hwrites.le, hwrites.count, ?_, ?_⟩
  · rintro s' out' column' ⟨r', hs'⟩ hwrites'
    have htaken := hwrites'.taken_append r'
    rw [hs', hwrites.taken_append, taken_eq_nil hr, List.append_nil] at htaken
    exact ⟨_, htaken.symm⟩
  · intro hspace
    have hsnd := (fit_snd hspace hcol (s ++ r)).1
    rwa [hfit] at hsnd
  · intro c hc
    have henters := hr c hc
    have hle := hwrites.le
    unfold Enters at henters
    split_ifs at henters with htab
    · exact .inl ⟨htab, by omega⟩
    · exact .inr ⟨htab, by omega⟩

def tabbedAccent : Text := "a\t\t\u0301b".toList

/-- In six columns the second tab is cut, the accent is still written, and the letter left out. -/
theorem fit_longest_tabbedAccent :
    fit Text.width 6 1 tabbedAccent = ("a    \u0301".toList, 6) ∧
      6 = 1 + breadth Text.width "a    \u0301".toList ∧
      ∃ s r, tabbedAccent = s ++ r ∧ Writes Text.width 6 1 s "a    \u0301".toList 6 ∧
        ∀ c ∈ r.head?, 6 < 6 + Text.width c ∨ c = '\t' := by
  have hfit : fit Text.width 6 1 tabbedAccent = ("a    \u0301".toList, 6) := by decide +kernel
  obtain ⟨s, r, out, column, ht, hfit', hwrites, -, -, -, hbreadth, hnext⟩ :=
    fit_longest Text.width (show 1 ≤ 6 by decide) tabbedAccent
  obtain ⟨rfl, rfl⟩ := Prod.mk.inj (hfit.symm.trans hfit')
  refine ⟨hfit, hbreadth (by decide), s, r, ht, hwrites, fun c hc => ?_⟩
  rcases hnext c hc with ⟨htab, -⟩ | ⟨-, hlt⟩
  · exact .inr htab
  · exact .inl hlt

end FencedCode.Columns
