import FencedCode.Proofs.Answers
import FencedCode.Proofs.FenceIndex
import FencedCode.Proofs.LineReading

namespace FencedCode

namespace Text

def bytes (t : Text) : List UInt8 := t.flatMap String.utf8EncodeChar

def breaks (pos : Nat) : List UInt8 → List Nat
  | [] => []
  | b :: bs => if b = 10 then (pos + 1) :: breaks (pos + 1) bs else breaks (pos + 1) bs

/-- The offsets at which lines start, read off the bytes of a text. -/
def lineStarts (t : Text) : List Nat := 0 :: breaks 0 (bytes t)

theorem byteAt_eq_getElem? (t : Text) (n : Nat) : byteAt t n = (bytes t)[n]? := by
  induction t generalizing n with
  | nil => rfl
  | cons c cs ih =>
    have hlen := String.length_utf8EncodeChar c
    unfold bytes at ih ⊢
    rw [List.flatMap_cons, byteAt]
    split_ifs with h
    · rw [List.getElem?_append_left (by omega)]
    · rw [List.getElem?_append_right (by omega), hlen, ih]

theorem breaks_append (pos : Nat) (xs ys : List UInt8) :
    breaks pos (xs ++ ys) = breaks pos xs ++ breaks (pos + xs.length) ys := by
  induction xs generalizing pos with
  | nil => rfl
  | cons x xs ih =>
    simp only [List.cons_append, breaks, List.length_cons, ih, Nat.add_comm xs.length 1,
      ← Nat.add_assoc]
    split_ifs <;> rfl

theorem breaks_shift (pos k : Nat) (bs : List UInt8) :
    breaks (pos + k) bs = (breaks pos bs).map (· + k) := by
  induction bs generalizing pos with
  | nil => rfl
  | cons b bs ih =>
    simp only [breaks, Nat.add_right_comm pos k 1, ih]
    split_ifs <;> rfl

theorem breaks_encode (pos : Nat) {c : Char} (hc : c ≠ '\n') :
    breaks pos (String.utf8EncodeChar c) = [] := by
  have hnone : ∀ bs : List UInt8, 10 ∉ bs → ∀ pos, breaks pos bs = [] := by
    intro bs hbs
    induction bs with
    | nil => exact fun _ => rfl
    | cons b bs ih =>
      intro pos
      rw [List.mem_cons, not_or] at hbs
      rw [breaks, if_neg (Ne.symm hbs.1), ih hbs.2]
  exact hnone _ (fun h => hc (eq_newline_of_mem_utf8EncodeChar h)) pos

/-- The starts of lines are those that the bytes show. -/
theorem map_start_marks (t : Text) : (marks t).map (·.start) = lineStarts t := by
  unfold lineStarts
  induction t with
  | nil => rfl
  | cons c cs ih =>
    have hbreaks : breaks 0 (bytes (c :: cs)) =
        breaks 0 (String.utf8EncodeChar c) ++ (breaks 0 (bytes cs)).map (· + c.utf8Size) := by
      rw [bytes, List.flatMap_cons, breaks_append, String.length_utf8EncodeChar, breaks_shift]
      rfl
    rw [hbreaks]
    by_cases hc : c = '\n'
    · -- the lines of the rest follow as they are, one byte further on
      subst hc
      have hmap : (marks cs).map ((·.start) ∘ (·.shift 1)) =
          ((marks cs).map (·.start)).map (· + 1) := by
        rw [List.map_map]
        rfl
      rw [marks_newline, List.map_cons, List.map_map, hmap, ih]
      rfl
    · -- the first line of the rest starts with the text now
      obtain ⟨first, back, hcs, -, hcons⟩ := marks_cons hc cs
      rw [hcs, List.map_cons, List.cons_eq_cons] at ih
      rw [hcons, List.map_cons, List.map_map, breaks_encode _ hc, List.nil_append, ← ih.2,
        List.map_map]
      rfl

theorem split_eq_splitOn (separator : Char) (t : Text) :
    split separator t = t.splitOn separator := by
  induction t with
  | nil => rfl
  | cons c cs ih =>
    rw [List.splitOn_cons_eq_if_modifyHead, split, ih]
    by_cases hc : c = separator
    · simp [hc]
    · obtain ⟨p, ps, hp⟩ := List.exists_cons_of_ne_nil (List.splitOn_ne_nil separator cs)
      simp [hc, hp]

theorem length_split (separator : Char) (t : Text) :
    (split separator t).length = t.count separator + 1 := by
  induction t with
  | nil => rfl
  | cons c cs ih =>
    rw [List.count_cons, split]
    by_cases hc : c = separator
    · simp [hc, ih]
    · obtain ⟨p, ps, hp⟩ := List.exists_cons_of_ne_nil (split_ne_nil separator cs)
      rw [hp] at ih
      simpa [hc, hp] using ih

theorem notMem_of_mem_split {separator : Char} {t w : Text} (h : w ∈ split separator t) :
    separator ∉ w := by
  induction t generalizing w with
  | nil =>
    obtain rfl : w = [] := List.mem_singleton.1 h
    exact List.not_mem_nil
  | cons c cs ih =>
    obtain ⟨p, ps, hp⟩ := List.exists_cons_of_ne_nil (split_ne_nil separator cs)
    rw [hp] at ih
    rw [split, hp] at h
    split_ifs at h with hc
    · rcases List.mem_cons.1 h with rfl | h
      · exact List.not_mem_nil
      · exact ih h
    · rcases List.mem_cons.1 h with rfl | h
      · rw [List.mem_cons, not_or]
        exact ⟨Ne.symm hc, ih List.mem_cons_self⟩
      · exact ih (List.mem_cons_of_mem p h)

end Text

theorem Line.indexed_map_text (index start : Nat) (ts : List Text) :
    (indexed index start ts).map (·.text) = ts := by
  induction ts generalizing index start with
  | nil => rfl
  | cons t ts ih => rw [indexed, List.map_cons, ih]

/-- A change of the text of a document. -/
inductive Revision where
  | replace (a b : Nat) (text : Text)
  | insert (pos : Nat) (text : Text)
  | delete (a b : Nat)

namespace Document

def revise (d : Document) : Revision → Document × Edit
  | .replace a b text => d.apply a b text
  | .insert pos text => d.insert pos text
  | .delete a b => d.delete a b

def reviseAll (d : Document) (rs : List Revision) : Document :=
  rs.foldl (fun d r => (d.revise r).1) d

variable {t : Text}

theorem exists_revise (d : Document) (r : Revision) : ∃ t, (d.revise r).1 = ofText t := by
  cases r with
  | replace a b text => exact ⟨_, rfl⟩
  | insert pos text => exact ⟨_, rfl⟩
  | delete a b => exact ⟨_, rfl⟩

/-- A document that was indexed at first, or has been changed, is indexed. -/
theorem exists_reviseAll (d : Document) (rs : List Revision) :
    ((∃ t, d = ofText t) ∨ rs ≠ []) → ∃ t, d.reviseAll rs = ofText t := by
  induction rs generalizing d with
  | nil => exact fun h => h.resolve_right fun hne => hne rfl
  | cons r rs ih => exact fun _ => ih (d.revise r).1 (.inl (exists_revise d r))

theorem starts_ofText (t : Text) : (ofText t).starts = t.lineStarts := by
  rw [← map_start_lines, ← Text.map_start_marks, ← map_mark_lines, List.map_map]
  rfl

theorem lineCount_ofText (t : Text) : (ofText t).lineCount = t.count '\n' + 1 := by
  have h := congrArg List.length (Line.indexed_map_text 0 0 (Text.lines t))
  rw [List.length_map] at h
  rw [← Text.length_split, ← length_lines]
  exact h

theorem filterMap_line? (t : Text) :
    (List.range (ofText t).lineCount).filterMap (ofText t).line? = (ofText t).lines := by
  have hall : ∀ ls : List Line, (List.range ls.length).filterMap (ls[·]?) = ls := by
    intro ls
    induction ls with
    | nil => rfl
    | cons l ls ih =>
      rw [List.length_cons, List.range_succ_eq_map, List.filterMap_cons, List.filterMap_map]
      exact congrArg (l :: ·) ih
  rw [← length_lines]
  exact hall (ofText t).lines

theorem line?_iff_lineAt (t : Text) (o : Nat) {i : Nat} {l : Line}
    (hl : (ofText t).line? i = some l) :
    (l.start ≤ min o (Text.size t) ∧ min o (Text.size t) ≤ l.stop) ↔ l = (ofText t).lineAt! o := by
  obtain ⟨hmem, hat⟩ := lineAt_spec t o
  constructor
  · intro h
    exact line_unique (List.mem_of_getElem? hl) hmem h hat
  · rintro rfl
    exact hat

/-- The index of lines describes the text, whatever changes have been made of it. There is one line
more than there are line breaks, and the lines start where the bytes of the text show that they do;
without line breaks of their own, they make up the text with line breaks between them. A line is
there exactly for the numbers below their count, it has that number, and its text stands in the
document where it says. And at every offset a line is found, which is that of its number and the
only one that the offset, clamped to the text, lies on. -/
theorem lines_describe (t : Text) (rs : List Revision) :
    let d := (ofText t).reviseAll rs
    let ls := (List.range d.lineCount).filterMap d.line?
    (d.lineCount = d.text.count '\n' + 1 ∧ d.starts = d.text.lineStarts) ∧
    (∀ i, d.line i = .ok (d.line? i)) ∧
    ((∀ l ∈ ls, '\n' ∉ l.text) ∧ ['\n'].intercalate (ls.map (·.text)) = d.text) ∧
    (∀ i, d.line? i = none ↔ d.lineCount ≤ i) ∧
    (∀ i l, d.line? i = some l → l.index = i ∧ Text.At d.text l.start l.text ∧
      l.stop = l.start + Text.size l.text) ∧
    ∀ o, ∃ k, (d.lineAt o = .ok k ∧ d.line? k.index = some k) ∧
      ∀ i l, d.line? i = some l → ((l.start ≤ min o d.size ∧ min o d.size ≤ l.stop) ↔ l = k) := by
  obtain ⟨t', ht'⟩ := exists_reviseAll (ofText t) rs (.inl ⟨t, rfl⟩)
  intro d ls
  have hd : d = ofText t' := ht'
  have hls : ls.map (·.text) = Text.split '\n' t' := by
    have h := Line.indexed_map_text 0 0 (Text.lines t')
    unfold ls
    rw [hd, filterMap_line?]
    exact h
  rw [hd]
  refine ⟨⟨lineCount_ofText t', starts_ofText t'⟩, line_eq t', ⟨?_, ?_⟩, line?_eq_none_iff t', ?_,
    ?_⟩
  · intro l hl
    apply Text.notMem_of_mem_split
    rw [← hls]
    exact List.mem_map_of_mem hl
  · rw [hls, Text.split_eq_splitOn]
    exact List.intercalate_splitOn '\n'
  · intro i l hl
    have hmem : l ∈ (ofText t').lines := List.mem_of_getElem? hl
    exact ⟨index_eq hl, Text.at_of_mem_marks (mark_mem_marks hmem), stop_eq_mark_stop hmem⟩
  · intro o
    refine ⟨(ofText t').lineAt! o, ⟨lineAt_eq t' o, getElem?_index (lineAt_spec t' o).1⟩, ?_⟩
    intro i l hl
    exact line?_iff_lineAt t' o hl

end Document

end FencedCode
