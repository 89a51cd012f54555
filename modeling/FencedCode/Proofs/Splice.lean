import FencedCode.Proofs.Lines

namespace FencedCode

namespace Edit

def symm (e : Edit) : Edit := ⟨e.start, e.newEnd, e.oldEnd⟩

/-- The replaced span does not touch the offsets from `lo` to `hi`. -/
def Avoids (e : Edit) (lo hi : Nat) : Prop := hi < e.start ∨ e.oldEnd < lo

def move (e : Edit) (pos : Nat) : Nat := if pos < e.start then pos else pos - e.oldEnd + e.newEnd

def Ordered (e : Edit) : Prop := e.start ≤ e.oldEnd ∧ e.start ≤ e.newEnd

theorem touches_eq_false_iff {e : Edit} {r : Interval} :
    e.touches r = false ↔ e.Avoids r.lo r.hi := by
  simp only [touches, Avoids, Bool.and_eq_false_iff, decide_eq_false_iff_not]
  omega

theorem Ordered.symm {e : Edit} (h : e.Ordered) : e.symm.Ordered := ⟨h.2, h.1⟩

theorem Avoids.mono {e : Edit} {lo hi lo' hi' : Nat} (h : e.Avoids lo hi) (hlo : lo ≤ lo')
    (hhi : hi' ≤ hi) : e.Avoids lo' hi' := by
  unfold Avoids at *
  omega

theorem Avoids.symm {e : Edit} {lo hi : Nat} (h : e.Avoids lo hi) (he : e.Ordered)
    (hle : lo ≤ hi) : e.symm.Avoids (e.move lo) (e.move hi) := by
  unfold Avoids move Edit.symm Ordered at *
  dsimp only
  split_ifs <;> omega

theorem symm_move {e : Edit} {pos : Nat} (h : e.Avoids pos pos) (he : e.Ordered) :
    e.symm.move (e.move pos) = pos := by
  unfold Avoids move Edit.symm Ordered at *
  dsimp only
  split_ifs <;> omega

theorem Avoids.move_add {e : Edit} {lo hi : Nat} (h : e.Avoids lo hi) (he : e.Ordered)
    {k : Nat} (hk : lo + k ≤ hi) : e.move (lo + k) = e.move lo + k := by
  unfold Avoids move Ordered at *
  split_ifs <;> omega

theorem mapPos_eq_move {e : Edit} {pos : Nat} (h : e.Avoids pos pos) (he : e.Ordered) (b : Bias) :
    e.mapPos pos b = e.move pos := by
  unfold Avoids Ordered at *
  unfold mapPos move
  split_ifs with h1 h2
  · rfl
  · rfl
  · simp only [Bool.or_eq_true, Bool.and_eq_true, decide_eq_true_eq, beq_iff_eq] at h2
    omega

end Edit

namespace Mark

def moved (m : Mark) (e : Edit) : Mark := { m with start := e.move m.start }

@[simp] theorem moved_text (m : Mark) (e : Edit) : (m.moved e).text = m.text := rfl

@[simp] theorem moved_start (m : Mark) (e : Edit) : (m.moved e).start = e.move m.start := rfl

theorem moved_stop {m : Mark} {e : Edit} (h : e.Avoids m.start m.stop) (he : e.Ordered) :
    (m.moved e).stop = e.move m.stop :=
  (h.move_add he le_rfl).symm

theorem moved_span {m : Mark} {e : Edit} (h : e.Avoids m.start m.stop) (he : e.Ordered) :
    (m.moved e).span = e.mapInterval m.span := by
  have h1 := Edit.mapPos_eq_move (h.mono le_rfl m.start_le_stop) he .left
  have h2 := Edit.mapPos_eq_move (h.mono m.start_le_stop le_rfl) he .right
  simp only [Edit.mapInterval, span_lo, span_hi, h1, h2]
  rw [← moved_stop h he]
  rfl

theorem moved_symm {m : Mark} {e : Edit} (h : e.Avoids m.start m.start) (he : e.Ordered) :
    (m.moved e).moved e.symm = m := by
  simp [moved, Edit.symm_move h he]

end Mark

/-- One text became the other by the edit: the parts around the edited span are the same. -/
def Splice (t : Text) (e : Edit) (t' : Text) : Prop :=
  ∃ x old new y : Text, t = x ++ old ++ y ∧ t' = x ++ new ++ y ∧
    e = ⟨Text.size x, Text.size x + Text.size old, Text.size x + Text.size new⟩

namespace Splice

variable {t t' : Text} {e : Edit}

theorem symm (h : Splice t e t') : Splice t' e.symm t := by
  obtain ⟨x, old, new, y, ht, ht', rfl⟩ := h
  exact ⟨x, new, old, y, ht', ht, rfl⟩

theorem ordered (h : Splice t e t') : e.Ordered := by
  obtain ⟨x, old, new, y, -, -, rfl⟩ := h
  exact ⟨Nat.le_add_right _ _, Nat.le_add_right _ _⟩

theorem oldEnd_le (h : Splice t e t') : e.oldEnd ≤ Text.size t := by
  obtain ⟨x, old, new, y, rfl, -, rfl⟩ := h
  simp

theorem newEnd_le (h : Splice t e t') : e.newEnd ≤ Text.size t' := h.symm.oldEnd_le

theorem size_eq (h : Splice t e t') : Text.size t' = Text.size t - e.oldEnd + e.newEnd := by
  obtain ⟨x, old, new, y, rfl, rfl, rfl⟩ := h
  simp only [Text.size_append]
  omega

theorem move_size (h : Splice t e t') : e.move (Text.size t) = Text.size t' := by
  have h1 := h.oldEnd_le
  have h2 := h.ordered.1
  rw [h.size_eq, Edit.move, if_neg (by omega)]

theorem at_move (h : Splice t e t') {pos : Nat} {w : Text} (hw : Text.At t pos w)
    (ha : e.Avoids pos (pos + Text.size w)) : Text.At t' (e.move pos) w := by
  obtain ⟨x, old, new, y, rfl, rfl, rfl⟩ := h
  rcases ha with ha | ha
  · dsimp only at ha
    have hpos : pos < Text.size x := by omega
    simp only [Edit.move, if_pos hpos]
    rw [List.append_assoc] at hw ⊢
    exact hw.append_left ha.le _
  · dsimp only at ha
    obtain ⟨k, rfl⟩ := Nat.exists_eq_add_of_lt ha
    have hmove : Edit.move ⟨Text.size x, Text.size x + Text.size old, Text.size x + Text.size new⟩
        (Text.size x + Text.size old + k + 1) = Text.size (x ++ new) + (k + 1) := by
      simp only [Edit.move, Text.size_append]
      split_ifs <;> omega
    rw [hmove]
    rw [← Text.size_append, Nat.add_assoc] at hw
    exact hw.append_right _

/-- A line that the replaced span does not touch is a line afterwards. -/
theorem moved_mem_marks (h : Splice t e t') {m : Mark} (hm : m ∈ Text.marks t)
    (ha : e.Avoids m.start m.stop) : m.moved e ∈ Text.marks t' := by
  obtain ⟨x, old, new, y, rfl, rfl, rfl⟩ := h
  rcases ha with ha | ha
  · dsimp only at ha
    obtain ⟨front, last, first, back, hx, -, hlast, -, hxy⟩ := Text.marks_append x (old ++ y)
    obtain ⟨front', last', first', back', hx', -, -, -, hxy'⟩ := Text.marks_append x (new ++ y)
    obtain ⟨rfl, -⟩ := List.append_inj' (hx.symm.trans hx') rfl
    have hstart : m.start < Text.size x := m.start_le_stop.trans_lt ha
    rw [List.append_assoc, hxy] at hm
    rw [List.append_assoc, hxy']
    apply List.mem_append_left _
    simp only [Mark.moved, Edit.move, if_pos hstart]
    -- the line ends before the edit, so it is none of those that the edit has a part in
    rcases List.mem_append.1 hm with hm | hm
    · exact hm
    · rcases List.mem_cons.1 hm with rfl | hm
      · simp only [Mark.stop, Text.size_append] at ha hlast
        omega
      · obtain ⟨b, -, rfl⟩ := List.mem_map.1 hm
        simp only [Mark.shift_start] at hstart
        omega
  · dsimp only at ha
    obtain ⟨front, last, first, back, hx, hy, hlast, -, hxy⟩ := Text.marks_append (x ++ old) y
    obtain ⟨front', last', first', back', -, hy', -, -, hxy'⟩ := Text.marks_append (x ++ new) y
    obtain ⟨rfl, rfl⟩ := List.cons_eq_cons.1 (hy.symm.trans hy')
    have hp := Text.marks_pairwise (x ++ old)
    rw [hx] at hp
    rw [hxy] at hm
    rw [hxy']
    refine List.mem_append_right _ (List.mem_cons_of_mem _ (List.mem_map.2 ?_))
    rw [Text.size_append] at hlast
    have hls := last.start_le_stop
    -- the line begins behind the edit, so it is a whole line of what follows
    rcases List.mem_append.1 hm with hm | hm
    · have := (List.pairwise_append.1 hp).2.2 m hm last List.mem_cons_self
      have := m.start_le_stop
      omega
    · rcases List.mem_cons.1 hm with rfl | hm
      · dsimp only at ha
        omega
      · obtain ⟨b, hb, rfl⟩ := List.mem_map.1 hm
        refine ⟨b, hb, ?_⟩
        simp only [Mark.moved, Mark.shift, Edit.move, Text.size_append, Mark.mk.injEq,
          and_true] at ha ⊢
        split_ifs <;> omega

theorem exists_moved (h : Splice t e t') {m : Mark} (hm : m ∈ Text.marks t')
    (ha : e.symm.Avoids m.start m.stop) :
    ∃ n ∈ Text.marks t, e.Avoids n.start n.stop ∧ n.moved e = m := by
  have he := h.ordered
  refine ⟨m.moved e.symm, h.symm.moved_mem_marks hm ha, ?_, ?_⟩
  · rw [Mark.moved_stop ha he.symm]
    exact ha.symm he.symm m.start_le_stop
  · exact Mark.moved_symm (ha.mono le_rfl m.start_le_stop) he.symm

end Splice

namespace Document

/-- Applying an edit splices the text, and the edit told is the one made. -/
theorem apply_ofText (t : Text) (a b : Nat) (s : Text) :
    ∃ t', ((ofText t).apply a b s).1 = ofText t' ∧ Splice t ((ofText t).apply a b s).2 t' := by
  refine ⟨_, rfl, ?_⟩
  simp only [apply, Edit.replace, show (ofText t).text = t from rfl]
  set start := Text.floor t (min a b) with hstart
  -- the ends are rounded one by one, and stay in order
  have hle : start ≤ Text.floor t (max b start) := by
    have hpre := Text.take_isPrefix t (Nat.le_max_right b start)
    have htake : Text.take t start = Text.take t (min a b) := Text.take_floor t _
    rw [htake] at hpre
    obtain ⟨z, hz⟩ := hpre
    rw [Text.floor, ← hz, Text.size_append]
    exact Nat.le_add_right _ _
  obtain ⟨z, hz, ht⟩ := Text.eq_take_append_drop t hle
  refine ⟨Text.take t start, z, s, Text.drop t (Text.floor t (max b start)), ht, rfl, ?_⟩
  have h1 : Text.size (Text.take t start) = start := by rw [hstart, Text.take_floor]; rfl
  have h2 : Text.size (Text.take t (Text.floor t (max b start))) = Text.floor t (max b start) := by
    rw [Text.take_floor]
    rfl
  rw [hz, Text.size_append, h1] at h2
  rw [h1, h2]

end Document

/-- Edits that led from one text to another, each in the offsets that the one before it left. -/
inductive Splices : Text → List Edit → Text → Prop
  | nil (t : Text) : Splices t [] t
  | cons {t t₁ t' : Text} {e : Edit} {es : List Edit} (h : Splice t e t₁) (hs : Splices t₁ es t') :
    Splices t (e :: es) t'

end FencedCode
