import FencedCode.Proofs.Blocks
import FencedCode.Proofs.Boundaries
import FencedCode.Proofs.Ranges

namespace FencedCode

namespace Text

theorem piece_eq {t w : Text} {pos : Nat} (h : At t pos w) :
    t.piece pos (pos + size w) = .ok w := by
  have hslice := h.slice_eq
  obtain ⟨x, y, rfl, rfl⟩ := h
  have hlo : (x ++ w ++ y).isBoundary (size x) := by
    rw [List.append_assoc]
    exact isBoundary_append x (w ++ y)
  have hhi : (x ++ w ++ y).isBoundary (size x + size w) := by
    rw [← size_append]
    exact isBoundary_append (x ++ w) y
  rw [piece, if_pos ⟨Nat.le_add_right _ _, hlo, hhi⟩, hslice]

end Text

namespace Line

variable {index start i : Nat} {ts : List Text} {l m : Line}

theorem start_succ (hl : (indexed index start ts)[i]? = some l)
    (hm : (indexed index start ts)[i + 1]? = some m) : m.start = l.stop + 1 := by
  induction ts generalizing index start i with
  | nil => simp [indexed] at hl
  | cons t ts ih =>
    rw [indexed, List.getElem?_cons_succ] at hm
    cases i with
    | zero =>
      obtain rfl := Option.some.inj hl
      cases ts with
      | nil => simp [indexed] at hm
      | cons u us =>
        obtain rfl := Option.some.inj hm
        rfl
    | succ i =>
      rw [indexed, List.getElem?_cons_succ] at hl
      exact ih hl hm

theorem stop_last (hl : (indexed index start ts)[i]? = some l)
    (hm : (indexed index start ts)[i + 1]? = none) : l.stop + 1 = start + Mark.extent ts := by
  induction ts generalizing index start i with
  | nil => simp [indexed] at hl
  | cons t ts ih =>
    rw [indexed, List.getElem?_cons_succ] at hm
    simp only [Mark.extent]
    cases i with
    | zero =>
      obtain rfl := Option.some.inj hl
      cases ts with
      | nil => simp [Mark.extent]; omega
      | cons u us => simp [indexed] at hm
    | succ i =>
      rw [indexed, List.getElem?_cons_succ] at hl
      have := ih hl hm
      omega

end Line

namespace Document

variable {t : Text} {i : Nat} {l : Line}

theorem getElem?_starts (t : Text) (i : Nat) :
    (ofText t).starts[i]? = ((ofText t).line? i).map (·.start) := by
  rw [← map_start_lines]
  exact List.getElem?_map

theorem bounds_eq (hl : (ofText t).line? i = some l) :
    (ofText t).bounds i = .ok (l.start, l.stop) := by
  unfold bounds
  rw [entry_eq_ok (x := l.start) (by rw [getElem?_starts, hl]; rfl), getElem?_starts]
  cases hm : (ofText t).line? (i + 1) with
  | none =>
    have hstop : l.stop + 1 = 0 + Mark.extent (Text.lines t) := Line.stop_last hl hm
    rw [extent_split] at hstop
    have hend : l.stop = Text.size t := by omega
    rw [hend]
    rfl
  | some m =>
    have hstart := Line.start_succ hl hm
    change (do return (l.start, ← minus m.start 1)) = _
    rw [hstart, minus_eq_ok (Nat.le_add_left 1 l.stop)]
    rfl

theorem readLine_eq (hl : (ofText t).line? i = some l) : (ofText t).readLine i = .ok l := by
  have hmem := List.mem_of_getElem? hl
  have hat : Text.At t l.start l.text := Text.at_of_mem_marks (mark_mem_marks hmem)
  have hstop : l.stop = l.start + Text.size l.text := stop_eq_mark_stop hmem
  unfold readLine
  rw [bounds_eq hl]
  change (do return (⟨i, l.start, l.stop, ← t.piece l.start l.stop⟩ : Line)) = _
  rw [hstop, Text.piece_eq hat, ← hstop, ← index_eq hl]
  rfl

theorem line_eq (t : Text) (i : Nat) : (ofText t).line i = .ok ((ofText t).line? i) := by
  unfold line
  split_ifs with h
  · rw [(line?_eq_none_iff t i).2 h]
    rfl
  · cases hl : (ofText t).line? i with
    | none => exact absurd ((line?_eq_none_iff t i).1 hl) h
    | some l =>
      rw [readLine_eq hl]
      rfl

theorem starts_pairwise (t : Text) : (ofText t).starts.Pairwise (· < ·) := by
  rw [← map_start_lines]
  apply List.pairwise_map.2
  apply (lines_pairwise t).imp
  intro k l h
  exact k.mark.start_le_stop.trans_lt h

theorem lineAt?_eq (t : Text) (o : Nat) : (ofText t).lineAt? o = some ((ofText t).lineAt! o) := by
  obtain ⟨l, -, hl, -⟩ := exists_lineAt? t o
  rw [lineAt!, hl]
  rfl

/-- The search among the starts ends behind that of the line that the offset lies on. -/
theorem lineAt_eq (t : Text) (o : Nat) : (ofText t).lineAt o = .ok ((ofText t).lineAt! o) := by
  set pos := min o (ofText t).size with hpos
  set front := (ofText t).lines.takeWhile (·.start ≤ pos)
  have hlast : front.getLast? = some ((ofText t).lineAt! o) := lineAt?_eq t o
  have hcount : partitionPoint (· ≤ pos) (ofText t).starts = front.length := by
    rw [partitionPoint_eq_length]
    · rw [← map_start_lines, List.takeWhile_map, List.length_map]
      rfl
    · apply (starts_pairwise t).imp
      intro a b hab
      simp only [decide_eq_true_eq]
      omega
  have hne : 1 ≤ front.length := by
    apply List.length_pos_of_ne_nil
    intro hnil
    rw [hnil] at hlast
    exact Option.some_ne_none _ hlast.symm
  -- the last line of the front is the line of its number
  have hget : (ofText t).line? (front.length - 1) = some ((ofText t).lineAt! o) := by
    obtain ⟨back, hback⟩ : front <+: (ofText t).lines := List.takeWhile_prefix _
    rw [line?, ← hback, List.getElem?_append_left (by omega), ← List.getLast?_eq_getElem?, hlast]
  unfold lineAt
  dsimp only
  rw [← hpos, hcount, minus_eq_ok hne]
  exact readLine_eq hget

theorem textBetween_eq (d : Document) (lo hi : Nat) :
    d.textBetween lo hi = .ok (d.text.slice lo hi) := by
  unfold textBetween
  rw [Text.roundDown_eq_floor, Text.roundUp_eq_ceil]
  dsimp only
  rw [← Text.slice_floor_ceil]
  split_ifs with h
  · have hzero : Text.ceil d.text hi - Text.floor d.text (Text.floor d.text lo) = 0 := by
      rw [Text.floor_eq_self (Text.isBoundary_floor d.text lo)]
      exact Nat.sub_eq_zero_of_le h
    rw [Text.slice, hzero, Text.cover_zero]
    rfl
  · exact if_pos
      ⟨Nat.le_of_not_le h, Text.isBoundary_floor d.text lo, Text.isBoundary_ceil d.text hi⟩

end Document

end FencedCode
