import FencedCode.Document
import FencedCode.Proofs.Interval
import FencedCode.Proofs.Text

namespace FencedCode

/-- A line by its place and its text. -/
structure Mark where
  start : Nat
  text : Text
  deriving DecidableEq

namespace Mark

def stop (m : Mark) : Nat := m.start + Text.size m.text

def span (m : Mark) : Interval := .between m.start m.stop

def shift (m : Mark) (k : Nat) : Mark := { m with start := m.start + k }

def spread (start : Nat) : List Text → List Mark
  | [] => []
  | t :: ts => ⟨start, t⟩ :: spread (start + Text.size t + 1) ts

/-- The bytes that lines take, each with its line break. -/
def extent : List Text → Nat
  | [] => 0
  | t :: ts => Text.size t + 1 + extent ts

theorem start_le_stop (m : Mark) : m.start ≤ m.stop := Nat.le_add_right _ _

@[simp] theorem span_lo (m : Mark) : m.span.lo = m.start := min_eq_left m.start_le_stop

@[simp] theorem span_hi (m : Mark) : m.span.hi = m.stop := max_eq_right m.start_le_stop

@[simp] theorem shift_start (m : Mark) (k : Nat) : (m.shift k).start = m.start + k := rfl

@[simp] theorem shift_text (m : Mark) (k : Nat) : (m.shift k).text = m.text := rfl

@[simp] theorem shift_stop (m : Mark) (k : Nat) : (m.shift k).stop = m.stop + k := by
  simp [stop]
  omega

theorem spread_append (start : Nat) (as bs : List Text) :
    spread start (as ++ bs) = spread start as ++ spread (start + extent as) bs := by
  induction as generalizing start with
  | nil => simp [spread, extent]
  | cons a as ih =>
    simp only [List.cons_append, spread, extent, ih]
    congr 3
    omega

theorem spread_shift (start k : Nat) (ts : List Text) :
    spread (start + k) ts = (spread start ts).map (·.shift k) := by
  induction ts generalizing start with
  | nil => rfl
  | cons t ts ih =>
    simp only [spread, List.map_cons, ← ih]
    congr 2
    omega

theorem spread_pairwise (start : Nat) (ts : List Text) :
    (spread start ts).Pairwise (fun m n => m.stop < n.start) ∧
      ∀ m ∈ spread start ts, start ≤ m.start ∧ m.stop < start + extent ts := by
  induction ts generalizing start with
  | nil => simp [spread]
  | cons t ts ih =>
    obtain ⟨hp, hb⟩ := ih (start + Text.size t + 1)
    refine ⟨List.pairwise_cons.2 ⟨fun n hn => ?_, hp⟩, fun m hm => ?_⟩
    · have := (hb n hn).1
      simp only [stop]
      omega
    · rcases List.mem_cons.1 hm with rfl | hm
      · simp only [stop, extent]
        omega
      · have := hb m hm
        simp only [extent]
        omega

end Mark

theorem extent_split (t : Text) : Mark.extent (Text.lines t) = Text.size t + 1 := by
  unfold Text.lines
  induction t with
  | nil => rfl
  | cons c cs ih =>
    obtain ⟨w, ws, hw⟩ := List.exists_cons_of_ne_nil (Text.split_ne_nil '\n' cs)
    rw [hw] at ih
    by_cases hc : c = '\n'
    · have h1 : '\n'.utf8Size = 1 := rfl
      simp only [Text.split, hc, hw, if_true, Mark.extent, Text.size, h1] at ih ⊢
      omega
    · simp only [Text.split, hc, hw, if_false, Mark.extent, Text.size] at ih ⊢
      omega

namespace Text

def marks (t : Text) : List Mark := Mark.spread 0 (lines t)

theorem marks_pairwise (t : Text) : (marks t).Pairwise fun m n => m.stop < n.start :=
  (Mark.spread_pairwise 0 _).1

theorem stop_le_of_mem_marks {t : Text} {m : Mark} (h : m ∈ marks t) : m.stop ≤ size t := by
  have := ((Mark.spread_pairwise 0 _).2 m h).2
  rw [extent_split] at this
  omega

/-- The lines of two texts joined: the last line of the first and the first line of the second
become one. -/
theorem marks_append (x y : Text) : ∃ front last first back,
    marks x = front ++ [last] ∧ marks y = first :: back ∧ last.stop = size x ∧ first.start = 0 ∧
      marks (x ++ y) =
        front ++ ⟨last.start, last.text ++ first.text⟩ :: back.map (·.shift (size x)) := by
  obtain ⟨as, a, b, bs, hx, hy, hxy⟩ := split_append '\n' x y
  have hsize : Mark.extent as + size a = size x := by
    have h := extent_split x
    have happ : ∀ ts : List Text, Mark.extent (ts ++ [a]) = Mark.extent ts + (size a + 1) := by
      intro ts
      induction ts with
      | nil => simp [Mark.extent]
      | cons t ts ih => simp only [List.cons_append, Mark.extent, ih]; omega
    rw [lines, hx, happ] at h
    omega
  refine ⟨Mark.spread 0 as, ⟨Mark.extent as, a⟩, ⟨0, b⟩, Mark.spread (size b + 1) bs,
    ?_, ?_, hsize, rfl, ?_⟩
  · simp [marks, lines, hx, Mark.spread_append, Mark.spread]
  · simp [marks, lines, hy, Mark.spread]
  · rw [← Mark.spread_shift]
    simp only [marks, lines, hxy, Mark.spread_append, Mark.spread, size_append, Nat.zero_add]
    congr 3
    omega

theorem marks_newline (y : Text) : marks ('\n' :: y) = ⟨0, []⟩ :: (marks y).map (·.shift 1) := by
  simp only [marks, lines, split, if_true, Mark.spread, ← Mark.spread_shift]
  rfl

/-- A line break ends a line: the lines around it are those of the two parts. -/
theorem marks_append_newline (x y : Text) :
    marks (x ++ '\n' :: y) = marks x ++ (marks y).map (·.shift (size x + 1)) := by
  obtain ⟨front, last, first, back, hx, hy, -, -, hxy⟩ := marks_append x ('\n' :: y)
  rw [marks_newline] at hy
  obtain ⟨rfl, rfl⟩ := List.cons_eq_cons.1 hy
  have hs : ((·.shift (size x)) ∘ (·.shift 1) : Mark → Mark) = (·.shift (size x + 1)) := by
    funext m
    simp only [Function.comp_apply, Mark.shift, Mark.mk.injEq, and_true]
    omega
  rw [hxy, hx, List.map_map, hs]
  simp

theorem marks_cons {c : Char} (hc : c ≠ '\n') (cs : Text) : ∃ first back,
    marks cs = first :: back ∧ first.start = 0 ∧
      marks (c :: cs) = ⟨0, c :: first.text⟩ :: back.map (·.shift c.utf8Size) := by
  obtain ⟨front, last, first, back, hx, hy, -, hfirst, hxy⟩ := marks_append [c] cs
  have hone : marks [c] = [⟨0, [c]⟩] := by simp [marks, lines, split, hc, Mark.spread]
  obtain ⟨rfl, hlast⟩ : front = [] ∧ last = ⟨0, [c]⟩ := by
    cases front with
    | nil => simpa [hone, eq_comm] using hx
    | cons m ms => simp [hone] at hx
  exact ⟨first, back, hy, hfirst, by simpa [hlast, size] using hxy⟩

theorem exists_mark (t : Text) {pos : Nat} (h : pos ≤ size t) :
    ∃ m ∈ marks t, m.start ≤ pos ∧ pos ≤ m.stop := by
  have key : ∀ (ts : List Text) (start : Nat), start ≤ pos → pos < start + Mark.extent ts →
      ∃ m ∈ Mark.spread start ts, m.start ≤ pos ∧ pos ≤ m.stop := by
    intro ts
    induction ts with
    | nil =>
      intro start h1 h2
      simp only [Mark.extent] at h2
      omega
    | cons t ts ih =>
      intro start h1 h2
      by_cases hp : pos ≤ start + size t
      · exact ⟨⟨start, t⟩, List.mem_cons_self, h1, hp⟩
      · simp only [Mark.extent] at h2
        obtain ⟨m, hm, hb⟩ := ih (start + size t + 1) (by omega) (by omega)
        exact ⟨m, List.mem_cons_of_mem _ hm, hb⟩
  apply key _ 0 (Nat.zero_le _)
  rw [extent_split]
  omega

theorem mark_unique {t : Text} {m n : Mark} (hm : m ∈ marks t) (hn : n ∈ marks t) {pos : Nat}
    (h : m.start ≤ pos ∧ pos ≤ m.stop) (h' : n.start ≤ pos ∧ pos ≤ n.stop) : m = n := by
  rcases pairwise_trichotomy (marks_pairwise t) hm hn with h1 | h1 | h1
  · exact h1
  · omega
  · omega

/-- A line stands in the text where its mark says. -/
theorem at_of_mem_marks {t : Text} {m : Mark} (h : m ∈ marks t) : At t m.start m.text := by
  induction t generalizing m with
  | nil =>
    obtain rfl : m = ⟨0, []⟩ := by simpa [marks, lines, split, Mark.spread] using h
    exact ⟨[], [], rfl, rfl⟩
  | cons c cs ih =>
    have hshift : ∀ m ∈ marks cs, At (c :: cs) (m.start + c.utf8Size) m.text := by
      intro m hm
      obtain ⟨x, y, hx, hs⟩ := ih hm
      exact ⟨c :: x, y, by simp [← hx], by simp only [size, hs]; omega⟩
    -- a line break begins a line of its own, any other character joins the first line
    by_cases hc : c = '\n'
    · subst hc
      rw [marks_newline] at h
      rcases List.mem_cons.1 h with rfl | h
      · exact ⟨[], '\n' :: cs, rfl, rfl⟩
      · obtain ⟨m, hm, rfl⟩ := List.mem_map.1 h
        exact hshift m hm
    · obtain ⟨first, back, hcs, hfirst, hcons⟩ := marks_cons hc cs
      rw [hcons] at h
      rcases List.mem_cons.1 h with rfl | h
      · obtain ⟨x, y, hx, hs⟩ := ih (hcs ▸ List.mem_cons_self)
        rw [hfirst] at hs
        obtain rfl := eq_nil_of_size_eq_zero hs
        exact ⟨[], y, by simp [hx], rfl⟩
      · obtain ⟨m, hm, rfl⟩ := List.mem_map.1 h
        exact hshift m (hcs ▸ List.mem_cons_of_mem _ hm)

theorem exists_newline_before {t : Text} {m : Mark} (h : m ∈ marks t) (h0 : 0 < m.start) :
    ∃ x y, t = x ++ '\n' :: y ∧ size x + 1 = m.start := by
  induction t generalizing m with
  | nil =>
    obtain rfl : m = ⟨0, []⟩ := by simpa [marks, lines, split, Mark.spread] using h
    exact absurd h0 (lt_irrefl 0)
  | cons c cs ih =>
    have hshift : ∀ m ∈ marks cs, 0 < m.start →
        ∃ x y, c :: cs = x ++ '\n' :: y ∧ size x + 1 = m.start + c.utf8Size := by
      intro m hm hpos
      obtain ⟨x, y, hx, hs⟩ := ih hm hpos
      exact ⟨c :: x, y, by simp [hx], by simp only [size]; omega⟩
    by_cases hc : c = '\n'
    · subst hc
      rw [marks_newline] at h
      rcases List.mem_cons.1 h with rfl | h
      · exact absurd h0 (lt_irrefl 0)
      · obtain ⟨m, hm, rfl⟩ := List.mem_map.1 h
        by_cases hpos : 0 < m.start
        · exact hshift m hm hpos
        · refine ⟨[], cs, rfl, ?_⟩
          simp only [size, Mark.shift_start]
          omega
    · obtain ⟨first, back, hcs, hfirst, hcons⟩ := marks_cons hc cs
      rw [hcons] at h
      rcases List.mem_cons.1 h with rfl | h
      · exact absurd h0 (lt_irrefl 0)
      · -- it comes after the first line of the rest, so it does not begin at zero there
        obtain ⟨m, hm, rfl⟩ := List.mem_map.1 h
        have hp := marks_pairwise cs
        rw [hcs] at hp
        have := (List.pairwise_cons.1 hp).1 m hm
        exact hshift m (hcs ▸ List.mem_cons_of_mem _ hm) (by omega)

theorem exists_newline_behind {t : Text} {m : Mark} (h : m ∈ marks t) (h0 : m.stop < size t) :
    ∃ x y, t = x ++ '\n' :: y ∧ size x = m.stop := by
  obtain ⟨n, hn, hlo, hhi⟩ := exists_mark t (show m.stop + 1 ≤ size t by omega)
  have hss := m.start_le_stop
  -- the line of the next byte begins there, behind the line break that it must begin behind
  have hstart : n.start = m.stop + 1 := by
    by_contra hne
    obtain rfl : n = m := mark_unique hn h ⟨Nat.le_of_lt_succ (by omega), by omega⟩ ⟨hss, le_rfl⟩
    omega
  obtain ⟨x, y, hx, hs⟩ := exists_newline_before hn (by omega)
  exact ⟨x, y, hx, by omega⟩

end Text

namespace Line

def mark (l : Line) : Mark := ⟨l.start, l.text⟩

theorem indexed_map_mark (index start : Nat) (ts : List Text) :
    (indexed index start ts).map mark = Mark.spread start ts := by
  induction ts generalizing index start with
  | nil => rfl
  | cons t ts ih => simp [indexed, Mark.spread, mark, ih]

theorem stop_of_mem_indexed {index start : Nat} {ts : List Text} {l : Line}
    (h : l ∈ indexed index start ts) : l.stop = l.mark.stop := by
  induction ts generalizing index start with
  | nil => simp [indexed] at h
  | cons t ts ih =>
    rcases List.mem_cons.1 h with rfl | h
    · rfl
    · exact ih h

theorem index_of_getElem? {index start i : Nat} {ts : List Text} {l : Line}
    (h : (indexed index start ts)[i]? = some l) : l.index = index + i := by
  induction ts generalizing index start i with
  | nil => simp [indexed] at h
  | cons t ts ih =>
    cases i with
    | zero => simp only [indexed, List.getElem?_cons_zero, Option.some.injEq] at h; simp [← h]
    | succ i =>
      rw [indexed, List.getElem?_cons_succ] at h
      have := ih h
      omega

theorem indexed_map_start (index start : Nat) (t : Text) :
    (indexed index start (Text.lines t)).map (·.start) = start :: Text.startsFrom start t := by
  unfold Text.lines
  induction t generalizing index start with
  | nil => rfl
  | cons c cs ih =>
    obtain ⟨w, ws, hw⟩ := List.exists_cons_of_ne_nil (Text.split_ne_nil '\n' cs)
    by_cases hc : c = '\n'
    · subst hc
      rw [Text.split, if_pos rfl, indexed, List.map_cons, ih]
      rfl
    · have hrest := ih index (start + c.utf8Size)
      rw [hw, indexed, List.map_cons, List.cons_eq_cons] at hrest
      have hstop : start + Text.size (c :: w) = start + c.utf8Size + Text.size w :=
        (Nat.add_assoc _ _ _).symm
      rw [Text.split, if_neg hc, hw, indexed, List.map_cons, Text.startsFrom, if_neg hc, ← hrest.2,
        hstop]

theorem getLast?_takeWhile_indexed (index start : Nat) {pos : Nat} (t : Text) (ts : List Text)
    (h1 : start ≤ pos) (h2 : pos < start + Mark.extent (t :: ts)) :
    ∃ l, ((indexed index start (t :: ts)).takeWhile (·.start ≤ pos)).getLast? = some l ∧
      l ∈ indexed index start (t :: ts) ∧ l.start ≤ pos ∧ pos ≤ l.stop := by
  induction ts generalizing index start t with
  | nil =>
    simp only [Mark.extent] at h2
    exact ⟨⟨index, start, start + Text.size t, t⟩, by simp [indexed, List.takeWhile, h1],
      by simp [indexed], h1, by simp only; omega⟩
  | cons u us ih =>
    simp only [Mark.extent] at h2 ih
    -- the offset lies behind the first line, or on it
    by_cases hp : start + Text.size t + 1 ≤ pos
    · obtain ⟨l, hl, hm, hb⟩ := ih (index + 1) _ u hp (by omega)
      refine ⟨l, ?_, ?_, hb⟩
      · rw [indexed, List.takeWhile_cons_of_pos (by simpa using h1), List.getLast?_cons, hl]
        rfl
      · rw [indexed]
        exact List.mem_cons_of_mem _ hm
    · refine ⟨⟨index, start, start + Text.size t, t⟩, ?_, by simp [indexed], h1, by
        simp only
        omega⟩
      simp [indexed, List.takeWhile, h1, hp]

end Line

namespace Document

variable {t : Text}

@[simp] theorem ofText_size : (ofText t).size = Text.size t := rfl

theorem map_mark_lines (t : Text) : (ofText t).lines.map Line.mark = Text.marks t :=
  Line.indexed_map_mark 0 0 _

theorem mark_mem_marks {l : Line} (h : l ∈ (ofText t).lines) : l.mark ∈ Text.marks t := by
  rw [← map_mark_lines]
  exact List.mem_map_of_mem h

theorem stop_eq_mark_stop {l : Line} (h : l ∈ (ofText t).lines) : l.stop = l.mark.stop :=
  Line.stop_of_mem_indexed h

theorem index_eq {i : Nat} {l : Line} (h : (ofText t).lines[i]? = some l) : l.index = i := by
  simpa using Line.index_of_getElem? h

theorem map_start_lines (t : Text) : (ofText t).lines.map (·.start) = (ofText t).starts :=
  Line.indexed_map_start 0 0 t

theorem length_lines (t : Text) : (ofText t).lines.length = (ofText t).lineCount := by
  rw [lineCount, ← map_start_lines, List.length_map]

theorem line?_eq_none_iff (t : Text) (i : Nat) :
    (ofText t).line? i = none ↔ (ofText t).lineCount ≤ i := by
  rw [← length_lines]
  exact List.getElem?_eq_none_iff

/-- Every offset, clamped to the text, lies on a line that is found. -/
theorem exists_lineAt? (t : Text) (pos : Nat) :
    ∃ l ∈ (ofText t).lines, (ofText t).lineAt? pos = some l ∧
      l.start ≤ min pos (Text.size t) ∧ min pos (Text.size t) ≤ l.stop := by
  obtain ⟨w, ws, hw⟩ := List.exists_cons_of_ne_nil (Text.lines_ne_nil t)
  have hx := extent_split t
  rw [hw] at hx
  obtain ⟨l, hl, hm, hb⟩ := Line.getLast?_takeWhile_indexed 0 0 w ws
    (Nat.zero_le (min pos (Text.size t))) (by omega)
  rw [← hw] at hl hm
  exact ⟨l, hm, hl, hb⟩

theorem lineAt_spec (t : Text) (pos : Nat) :
    (ofText t).lineAt! pos ∈ (ofText t).lines ∧
      ((ofText t).lineAt! pos).start ≤ min pos (Text.size t) ∧
        min pos (Text.size t) ≤ ((ofText t).lineAt! pos).stop := by
  obtain ⟨l, hm, hl, hb⟩ := exists_lineAt? t pos
  have he : (ofText t).lineAt! pos = l := congrArg (·.getD default) hl
  rw [he]
  exact ⟨hm, hb⟩

end Document

end FencedCode
