import FencedCode.Pager.View
import FencedCode.Proofs.Columns
import FencedCode.Proofs.Matches
import FencedCode.Text.Width

namespace FencedCode

theorem Text.slice_append_drop {t : Text} {lo hi : Nat} (hlo : t.isBoundary lo)
    (hhi : t.isBoundary hi) (hle : lo ≤ hi) : slice t lo hi ++ drop t hi = drop t lo := by
  obtain ⟨x, y, ht, hx⟩ := isBoundary_iff.1 hlo
  obtain ⟨x', y', ht', hx'⟩ := isBoundary_iff.1 hhi
  obtain ⟨w, rfl, rfl⟩ := append_eq_append_of_size_le (ht.symm.trans ht') (by omega)
  have hslice : slice t lo hi = w := by
    rw [← hx, ← hx', size_append]
    exact At.slice_eq ⟨x, y', ht', rfl⟩
  have hdrop : drop t hi = y' := by rw [ht', ← hx', drop_append_size]
  have hdrop' : drop t lo = w ++ y' := by rw [ht, ← hx, drop_append_size]
  rw [hslice, hdrop, hdrop']

namespace Run

theorem flatMap_cut {line : Text} {pos : Nat} (h : line.isBoundary pos) (start : Nat)
    (ds : List Decoration) :
    (cut start line pos ds).flatMap Run.text = Text.drop line pos := by
  induction ds generalizing pos with
  | nil =>
    unfold cut rest
    split_ifs with hlt
    · simp
    · obtain ⟨x, y, rfl, rfl⟩ := Text.isBoundary_iff.1 h
      rw [Text.size_append] at hlt
      rw [Text.drop_append_size]
      exact (Text.eq_nil_of_size_eq_zero (by omega)).symm
  | cons d ds ih =>
    unfold cut
    dsimp only
    split_ifs with hcut hgap
    · obtain ⟨hlt, hlo, hhi⟩ := hcut
      rw [List.flatMap_append, List.flatMap_singleton, List.flatMap_cons, ih hhi]
      dsimp only
      rw [Text.slice_append_drop hlo hhi hlt.le, Text.slice_append_drop h hlo hgap.le]
    · -- no gap, so the run begins where the last one ended
      obtain ⟨hlt, hlo, hhi⟩ := hcut
      have hpos : max (d.start - start) pos = pos := by omega
      rw [hpos] at hlt ⊢
      rw [List.nil_append, List.flatMap_cons, ih hhi]
      exact Text.slice_append_drop h hhi hlt.le
    · exact ih h

theorem flatMap_ofLine (start : Nat) (line : Text) (ds : List Decoration) :
    (ofLine start line ds).flatMap Run.text = line := by
  rw [ofLine, flatMap_cut (Text.isBoundary_zero line)]
  cases line with
  | nil => rfl
  | cons c cs => simp [Text.drop, c.utf8Size_pos.ne']

end Run

namespace Row

open Columns

variable {width : Char → Nat} {cols col : Nat} {base : Base}

theorem content_ofRuns_cons (width : Char → Nat) (cols : Nat) (base : Base) (col : Nat) (r : Run)
    (rs : List Run) :
    (ofRuns width cols base col (r :: rs)).content =
      (fit width cols col r.text).1 ++
        if cols ≤ (fit width cols col r.text).2 then []
        else (ofRuns width cols base (fit width cols col r.text).2 rs).content := by
  rw [ofRuns]
  dsimp only
  split_ifs <;> simp [content, Piece.content]

@[simp] theorem content_ofLine (width : Char → Nat) (cols : Nat) (base : Base) (start : Nat)
    (line : Text) (ds : List Decoration) :
    (ofLine width cols base start line ds).content =
      (ofRuns width cols base 0 (Run.ofLine start line ds)).content := by
  simp [ofLine, content, Piece.content]

/-- Runs painted from a column on spill: something is left out, and yet something behind it is
painted. -/
inductive Spills (width : Char → Nat) (cols : Nat) : Nat → List Run → Prop
  /-- The first run ends in front of the edge, and those behind it spill. -/
  | later {col : Nat} {r : Run} {rs : List Run} (hr : stop width col r.text < cols)
      (hrs : Spills width cols (stop width col r.text) rs) : Spills width cols col (r :: rs)
  /-- A tab is cut, and a character without columns follows in the same run. -/
  | cutTab {col : Nat} {r : Run} {rs : List Run} {a b : Text} {z : Char}
      (hr : r.text = a ++ '\t' :: z :: b) (hcol : stop width col a < cols)
      (hcut : cols < after width (stop width col a) '\t') (hz : Enters width cols cols z) :
      Spills width cols col (r :: rs)
  /-- A wide character is left out with a column to spare, and a later run begins with one that
  enters there. -/
  | leftOut {col : Nat} {r s : Run} {rs : List Run} {a b : Text} {c z : Char}
      (hr : r.text = a ++ c :: b) (hc : c ≠ '\t') (hcol : stop width col a < cols)
      (hwide : cols < stop width col a + width c) (hs : s ∈ rs) (hz : z ∈ s.text.head?)
      (henters : Enters width cols (stop width col a) z) : Spills width cols col (r :: rs)

/-- Nothing is painted of runs none of which begins with a character that enters. -/
theorem content_eq_nil {rs : List Run}
    (h : ∀ s ∈ rs, ∀ z ∈ s.text.head?, ¬ Enters width cols col z) :
    (ofRuns width cols base col rs).content = [] := by
  induction rs with
  | nil => rfl
  | cons r rs ih =>
    obtain ⟨hr, hrs⟩ := List.forall_mem_cons.1 h
    rw [content_ofRuns_cons, fit_eq_nil hr]
    simp [ih hrs]

/-- In front of the edge something is painted if one of the runs begins with a character that
enters, and what is painted first fits. -/
theorem exists_content_eq_cons (hspace : width ' ' = 1) (hcol : col < cols) {rs : List Run}
    (h : ∃ s ∈ rs, ∃ z ∈ s.text.head?, Enters width cols col z) :
    ∃ d ds, (ofRuns width cols base col rs).content = d :: ds ∧ col + width d ≤ cols := by
  induction rs with
  | nil => simp at h
  | cons r rs ih =>
    rw [content_ofRuns_cons]
    by_cases hr : ∃ z ∈ r.text.head?, Enters width cols col z
    · obtain ⟨z, hz, henters⟩ := hr
      obtain ⟨t, ht⟩ := List.head?_eq_some_iff.1 hz
      obtain ⟨d, ds, hfit, hd, -⟩ := exists_fit_eq_cons hspace henters t
      exact ⟨d, _, by rw [ht, hfit]; rfl, hd⟩
    · -- the run is left out as a whole
      have hnil : fit width cols col r.text = ([], col) :=
        fit_eq_nil fun z hz henters => hr ⟨z, hz, henters⟩
      rw [hnil]
      simp only [List.nil_append, if_neg (not_le.2 hcol)]
      refine ih ?_
      obtain ⟨s, hs, hz⟩ := h
      rcases List.mem_cons.1 hs with rfl | hs
      · exact absurd hz hr
      · exact ⟨s, hs, hz⟩

/-- Whether the text of runs begins with what is painted of them is decided from any character on in
front of which all is written whole. -/
theorem isPrefix_cons_iff {r : Run} {rs : List Run} {a b : Text} {c : Char}
    (hr : r.text = a ++ c :: b) (ha : stop width col a ≤ cols) :
    (ofRuns width cols base col (r :: rs)).content <+:
        expand width col ((r :: rs).flatMap Run.text) ↔
      ((fit width cols (stop width col a) (c :: b)).1 ++
          if cols ≤ (fit width cols (stop width col a) (c :: b)).2 then []
          else
            (ofRuns width cols base (fit width cols (stop width col a) (c :: b)).2 rs).content) <+:
        cell (stop width col a) c ++
          expand width (after width (stop width col a) c) (b ++ rs.flatMap Run.text) := by
  rw [content_ofRuns_cons, List.flatMap_cons, hr, List.append_assoc, List.cons_append,
    expand_append, fit_append ha, List.append_assoc, List.prefix_append_right_inj]
  rfl

/-- Runs that do not spill are painted as a prefix of their text. -/
theorem isPrefix_of_not_spills {rs : List Run} (hcol : col ≤ cols)
    (h : ¬ Spills width cols col rs) :
    (ofRuns width cols base col rs).content <+: expand width col (rs.flatMap Run.text) := by
  induction rs generalizing col with
  | nil => exact List.nil_prefix
  | cons r rs ih =>
    by_cases hr : stop width col r.text ≤ cols
    · rw [content_ofRuns_cons, List.flatMap_cons, expand_append, fit_whole hr,
        List.prefix_append_right_inj]
      split_ifs with hedge
      · exact List.nil_prefix
      · exact ih hr fun hrs => h (.later (not_le.1 hedge) hrs)
    · obtain ⟨a, c, b, htext, ha, hpass⟩ := exists_passing hcol (not_le.1 hr)
      rw [isPrefix_cons_iff htext ha]
      rcases enters_cases width cols (stop width col a) c with hle | ⟨rfl, hlt, hcut⟩ | hout
      · exact absurd hpass (not_lt.2 hle)
      · -- nothing follows the cut tab, and the row is full
        have hb : ∀ z ∈ b.head?, ¬ Enters width cols cols z := by
          intro z hz henters
          obtain ⟨b, rfl⟩ := List.head?_eq_some_iff.1 hz
          exact h (.cutTab htext hlt hcut henters)
        obtain ⟨n, hn⟩ := cell_cut hcut
        rw [fit_cons_cut hlt hcut, fit_eq_nil hb, hn]
        simp only [le_refl, if_true, List.append_nil, List.append_assoc]
        exact List.prefix_append _ _
      · rw [fit_cons_stop hout, List.nil_append]
        split_ifs with hedge
        · exact List.nil_prefix
        · have hc : c ≠ '\t' := by
            rintro rfl
            exact hout (by simpa [Enters] using hedge)
          have hwide : cols < stop width col a + width c := by simpa [after, hc] using hpass
          rw [content_eq_nil fun s hs z hz henters =>
            h (.leftOut htext hc (not_le.1 hedge) hwide hs hz henters)]
          exact List.nil_prefix

theorem Spills.not_isPrefix (hspace : width ' ' = 1) {rs : List Run}
    (h : Spills width cols col rs) :
    ¬ (ofRuns width cols base col rs).content <+: expand width col (rs.flatMap Run.text) := by
  induction h with
  | later hr hrs ih =>
    rw [content_ofRuns_cons, List.flatMap_cons, expand_append, fit_whole hr.le,
      List.prefix_append_right_inj, if_neg (not_le.2 hr)]
    exact ih
  | cutTab hr hcol hcut hz =>
    -- behind the cut tab comes a character other than a space, where the whole tab goes on
    obtain ⟨d, ds, hfit, hd, -⟩ := exists_fit_eq_cons hspace hz _
    obtain ⟨n, hn⟩ := cell_cut hcut
    rw [isPrefix_cons_iff hr hcol.le, fit_cons_cut hcol hcut, hfit, hn]
    simp only [List.append_assoc, List.cons_append, List.prefix_append_right_inj,
      List.cons_prefix_cons]
    rintro ⟨rfl, -⟩
    omega
  | leftOut hr hc hcol hwide hs hz henters =>
    -- what is painted in the gap fits, which the character left out does not
    obtain ⟨d, ds, hcontent, hd⟩ := exists_content_eq_cons hspace hcol ⟨_, hs, _, hz, henters⟩
    rw [isPrefix_cons_iff hr hcol.le, fit_cons_stop (by simpa [Enters, hc] using hwide)]
    dsimp only
    rw [if_neg (not_le.2 hcol), hcontent, cell, if_neg hc, List.nil_append, List.singleton_append,
      List.cons_prefix_cons]
    rintro ⟨rfl, -⟩
    omega

theorem not_spills_singleton {r : Run} (h : '\t' ∉ r.text) : ¬ Spills width cols col [r] := by
  intro hs
  cases hs with
  | later _ hrs => cases hrs
  | cutTab hr => exact h (by simp [hr])
  | leftOut _ _ _ _ hs => cases hs

/-- Runs of characters that take one column each do not spill, wherever tabs stand. -/
theorem not_spills_of_narrow {rs : List Run}
    (h : ∀ r ∈ rs, ∀ c ∈ r.text, c ≠ '\t' → width c = 1) : ¬ Spills width cols col rs := by
  intro hs
  induction hs with
  | later _ _ ih => exact ih (List.forall_mem_cons.1 h).2
  | @cutTab col r rs a b z hr _ _ hz =>
    have hz' : z ≠ '\t' := by
      rintro rfl
      simp [Enters] at hz
    have h1 := h r List.mem_cons_self z (by simp [hr]) hz'
    simp only [Enters, if_neg hz', h1] at hz
    omega
  | @leftOut col r s rs a b c z hr hc hcol hwide =>
    have h1 := h r List.mem_cons_self c (by simp [hr]) hc
    omega

/-- What is painted of a line, put together, is a prefix of the line with its tabs expanded, for all
decorations and all widths of characters, unless the runs of the line spill; and if they do, then it
is not, as long as a space takes one column. -/
theorem ofLine_isPrefix (width : Char → Nat) (cols : Nat) (base : Base) (start : Nat) (line : Text)
    (ds : List Decoration) :
    (¬ Spills width cols 0 (Run.ofLine start line ds) →
      (ofLine width cols base start line ds).content <+: expand width 0 line) ∧
    (width ' ' = 1 → Spills width cols 0 (Run.ofLine start line ds) →
      ¬ (ofLine width cols base start line ds).content <+: expand width 0 line) := by
  have hexpand : expand width 0 line =
      expand width 0 ((Run.ofLine start line ds).flatMap Run.text) := by
    rw [Run.flatMap_ofLine]
  rw [content_ofLine, hexpand]
  exact ⟨isPrefix_of_not_spills (Nat.zero_le cols), fun hspace h => h.not_isPrefix hspace⟩

def wideLine : Text := "\"ab中\";".toList

theorem ofLine_isPrefix_wideLine :
    ¬ (ofLine Text.width 4 {} 0 wideLine [⟨0, 7, "a"⟩, ⟨7, 8, "b"⟩]).content <+:
        expand Text.width 0 wideLine ∧
      (ofLine Text.width 4 {} 0 wideLine []).content <+: expand Text.width 0 wideLine := by
  have hspace : Text.width ' ' = 1 := by decide
  have hwide : 4 < stop Text.width 0 "\"ab".toList + Text.width '中' := by decide +kernel
  have hruns : Run.ofLine 0 wideLine [⟨0, 7, "a"⟩, ⟨7, 8, "b"⟩] =
      [⟨"\"ab".toList ++ '中' :: ['"'], some "a"⟩, ⟨[';'], some "b"⟩] := by decide
  have hspills : Spills Text.width 4 0 (Run.ofLine 0 wideLine [⟨0, 7, "a"⟩, ⟨7, 8, "b"⟩]) := by
    rw [hruns]
    exact .leftOut rfl (by decide) (by decide) hwide List.mem_cons_self rfl (by decide)
  have hwhole : Run.ofLine 0 wideLine [] = [⟨wideLine, none⟩] := by decide
  have hnot : ¬ Spills Text.width 4 0 (Run.ofLine 0 wideLine []) := by
    rw [hwhole]
    exact not_spills_singleton (by decide)
  exact ⟨(ofLine_isPrefix _ 4 {} 0 wideLine _).2 hspace hspills,
    (ofLine_isPrefix _ 4 {} 0 wideLine []).1 hnot⟩

end Row

end FencedCode
