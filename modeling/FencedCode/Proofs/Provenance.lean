import FencedCode.Proofs.Session

namespace FencedCode

namespace Edit

def carry (e : Edit) (origins : List (Option Nat)) : List (Option Nat) :=
  origins.take e.start ++ List.replicate (e.newEnd - e.start) none ++ origins.drop e.oldEnd

/-- For each byte of an edited text its offset in the original one, if it comes from there. -/
def origins (len : Nat) (es : List Edit) : List (Option Nat) :=
  es.foldl (fun origins e => e.carry origins) ((List.range len).map some)

/-- The bytes that come from somewhere come from there in their order. -/
abbrev InOrder (origins : List (Option Nat)) : Prop :=
  origins.Pairwise fun p q => ∀ i ∈ p, ∀ j ∈ q, i < j

variable {t t' : Text} {e : Edit} {os : List (Option Nat)} {pos : Nat}

/-- Where an offset outside the edited span was before: in front of it, or as far behind it. -/
theorem symm_move_cases (he : e.Ordered) (hpos : pos < e.start ∨ e.newEnd ≤ pos) :
    pos < e.start ∧ e.symm.move pos = pos ∨
      e.newEnd ≤ pos ∧ e.symm.move pos = pos - e.newEnd + e.oldEnd := by
  obtain ⟨-, hnew⟩ := he
  rcases hpos with hlt | hge
  · exact .inl ⟨hlt, if_pos hlt⟩
  · exact .inr ⟨hge, if_neg (Nat.not_lt.2 (hnew.trans hge))⟩

theorem length_carry (hs : Splice t e t') (hlen : os.length = Text.size t) :
    (e.carry os).length = Text.size t' := by
  have hold := hs.oldEnd_le
  have hsize := hs.size_eq
  obtain ⟨h1, h2⟩ := hs.ordered
  simp only [carry, List.length_append, List.length_take, List.length_replicate, List.length_drop]
  omega

theorem length_front (hs : Splice t e t') (hlen : os.length = Text.size t) :
    (os.take e.start).length = e.start := by
  rw [List.length_take, hlen]
  exact min_eq_left (hs.ordered.1.trans hs.oldEnd_le)

theorem getElem?_carry (hs : Splice t e t') (hlen : os.length = Text.size t)
    (hpos : pos < e.start ∨ e.newEnd ≤ pos) : (e.carry os)[pos]? = os[e.symm.move pos]? := by
  obtain ⟨h1, h2⟩ := hs.ordered
  have hfront := length_front hs hlen
  unfold carry
  rcases symm_move_cases hs.ordered hpos with ⟨hlt, hback⟩ | ⟨hge, hback⟩
  · rw [hback, List.append_assoc, List.getElem?_append_left (by omega),
      List.getElem?_take_of_lt hlt]
  · rw [hback, List.getElem?_append_right
      (by rw [List.length_append, List.length_replicate]; omega), List.getElem?_drop]
    congr 1
    simp only [List.length_append, List.length_replicate]
    omega

theorem getElem?_carry_inside (hs : Splice t e t') (hlen : os.length = Text.size t)
    (hlo : e.start ≤ pos) (hhi : pos < e.newEnd) : (e.carry os)[pos]? = some none := by
  have hfront := length_front hs hlen
  unfold carry
  rw [List.append_assoc, List.getElem?_append_right (by omega), List.getElem?_append_left
    (by rw [List.length_replicate]; omega), List.getElem?_replicate, if_pos (by omega)]

/-- What an edit leaves of the origins is a part of them, in their order. -/
theorem InOrder.carry (h : InOrder os) (he : e.Ordered) : InOrder (e.carry os) := by
  have hsub : (os.take e.start ++ os.drop e.oldEnd).Sublist os := by
    conv_rhs => rw [← List.take_append_drop e.start os]
    exact (List.Sublist.refl _).append (List.drop_sublist_drop_left os he.1)
  obtain ⟨hfront, hback, hcross⟩ := List.pairwise_append.1 (h.sublist hsub)
  have hnew : InOrder (List.replicate (e.newEnd - e.start) none) := by
    simp [List.pairwise_replicate]
  refine List.pairwise_append.2 ⟨List.pairwise_append.2 ⟨hfront, hnew, ?_⟩, hback, ?_⟩
  · intro p _ q hq i _ j hj
    rw [(List.mem_replicate.1 hq).2] at hj
    cases hj
  · intro p hp q hq
    rcases List.mem_append.1 hp with hp | hp
    · exact hcross p hp q hq
    · intro i hi
      rw [(List.mem_replicate.1 hp).2] at hi
      cases hi

end Edit

theorem Splice.byteAt_eq {t t' : Text} {e : Edit} (hs : Splice t e t') {pos : Nat}
    (hpos : pos < e.start ∨ e.newEnd ≤ pos) :
    Text.byteAt t' pos = Text.byteAt t (e.symm.move pos) := by
  have hcases := Edit.symm_move_cases hs.ordered hpos
  obtain ⟨x, old, new, y, rfl, rfl, rfl⟩ := hs
  rcases hcases with ⟨hlt, hback⟩ | ⟨hge, hback⟩
  · rw [hback, List.append_assoc, List.append_assoc, Text.byteAt_append_left _ _ hlt,
      Text.byteAt_append_left _ _ hlt]
  · obtain ⟨k, rfl⟩ := Nat.exists_eq_add_of_le hge
    rw [hback, Nat.add_sub_cancel_left, Nat.add_comm k]
    dsimp only
    rw [← Text.size_append, ← Text.size_append, Text.byteAt_append_right,
      Text.byteAt_append_right]

namespace Interval

theorem covered_map {e : Edit} (he : e.Ordered) {dirty : List Interval} {pos : Nat}
    (hpos : pos < e.start ∨ e.newEnd ≤ pos) (h : Covered dirty (e.symm.move pos)) :
    Covered (dirty.map e.mapInterval) pos := by
  obtain ⟨r, hr, hlo, hhi⟩ := h
  refine ⟨_, List.mem_map_of_mem hr, ?_⟩
  have hcases := Edit.symm_move_cases he hpos
  rw [Edit.mapInterval_lo he, Edit.mapInterval_hi he]
  obtain ⟨h1, h2⟩ := he
  simp only [Edit.mapPos, Bool.or_eq_true, Bool.and_eq_true, decide_eq_true_eq, beq_iff_eq]
  constructor <;> split_ifs <;> omega

end Interval

open FencedCode.Interval (Covered Touched)

/-- What is known of the bytes of a text that came out of another by edits, with the dirt that these
left: the origins of the bytes are where the same bytes stood, in the same order, and where there is
no dirt nothing was put in or taken out. -/
structure Traced (t₀ t : Text) (dirty : List Interval) (os : List (Option Nat)) : Prop where
  length : os.length = Text.size t
  origin : ∀ pos q, os[pos]? = some (some q) →
    q < Text.size t₀ ∧ Text.byteAt t pos = Text.byteAt t₀ q
  ordered : Edit.InOrder os
  covered : ∀ pos < Text.size t, ¬ Covered dirty pos → ∃ q, os[pos]? = some (some q)
  beside : ∀ pos, pos + 1 < Text.size t → ¬ Touched dirty (pos + 1) →
    ∃ q, os[pos]? = some (some q) ∧ os[pos + 1]? = some (some (q + 1))

namespace Traced

variable {t₀ t t' : Text} {e : Edit} {es : List Edit} {os : List (Option Nat)}

theorem init (t : Text) : Traced t t [] ((List.range (Text.size t)).map some) where
  length := by simp
  origin pos q h := by
    rw [List.getElem?_map] at h
    obtain ⟨i, hi, hq⟩ := Option.map_eq_some_iff.1 h
    obtain ⟨hlt, rfl⟩ := List.getElem?_eq_some_iff.1 hi
    obtain rfl := Option.some.inj hq
    simpa using hlt
  ordered := by
    refine List.pairwise_map.2 (List.pairwise_lt_range.imp fun {a b} hlt i hi j hj => ?_)
    obtain rfl := Option.mem_some.1 hi
    obtain rfl := Option.mem_some.1 hj
    exact hlt
  covered pos hpos _ := ⟨pos, by simp [hpos]⟩
  beside pos hpos _ := ⟨pos, by simp [hpos, Nat.lt_of_succ_lt hpos]⟩

/-- One more edit, with the dirt before it moved along and its own added. -/
theorem edit {T : Tracked} (h : Traced t₀ t T.dirty os) (hs : Splice t e t') :
    Traced t₀ t' (T.edit e).dirty (e.carry os) := by
  have he := hs.ordered
  obtain ⟨hlo, hhi⟩ := Edit.newRange_bounds he
  have hsize := hs.size_eq
  have hold := hs.oldEnd_le
  have hord : e.start ≤ e.oldEnd ∧ e.start ≤ e.newEnd := he
  refine ⟨Edit.length_carry hs h.length, fun pos q hq => ?_, h.ordered.carry he,
    fun pos hpos hclean => ?_, fun pos hpos hclean => ?_⟩
  · -- only bytes outside the edited span come from somewhere
    have hout : pos < e.start ∨ e.newEnd ≤ pos := by
      by_contra hin
      rw [Edit.getElem?_carry_inside hs h.length (by omega) (by omega)] at hq
      cases hq
    rw [Edit.getElem?_carry hs h.length hout] at hq
    rw [hs.byteAt_eq hout]
    exact h.origin _ q hq
  · -- the edited span is dirt
    have hout : pos < e.start ∨ e.newEnd ≤ pos := by
      by_contra hin
      exact hclean ⟨e.newRange, List.mem_append_right _ List.mem_cons_self, by omega⟩
    rw [Edit.getElem?_carry hs h.length hout]
    have hcases := Edit.symm_move_cases he hout
    refine h.covered _ (by omega) fun hdirt => ?_
    obtain ⟨r, hr, hin⟩ := Interval.covered_map he hout hdirt
    exact hclean ⟨r, List.mem_append_left _ hr, hin⟩
  · rw [Tracked.touched_edit_dirty, not_or] at hclean
    obtain ⟨hrest, hrange⟩ := hclean
    -- both bytes lie on the same side of the edited span
    have hav : e.symm.Avoids (pos + 1) (pos + 1) := by
      rw [Edit.symm_avoids_iff he]
      omega
    have hout : pos < e.start ∨ e.newEnd ≤ pos := by omega
    have hout' : pos + 1 < e.start ∨ e.newEnd ≤ pos + 1 := by omega
    have hcases := Edit.symm_move_cases he hout
    have hcases' := Edit.symm_move_cases he hout'
    have hnext : e.symm.move (pos + 1) = e.symm.move pos + 1 := by omega
    rw [Edit.getElem?_carry hs h.length hout, Edit.getElem?_carry hs h.length hout', hnext]
    refine h.beside _ (by omega) fun hdirt => ?_
    rw [← hnext] at hdirt
    have hmoved := Edit.touched_map he (hav.symm he.symm le_rfl) hdirt
    rw [show e.move (e.symm.move (pos + 1)) = pos + 1 from Edit.symm_move hav he.symm] at hmoved
    exact hrest hmoved

theorem edits {T : Tracked} (h : Traced t₀ t T.dirty os) (hs : Splices t es t') :
    Traced t₀ t' (es.foldl Tracked.edit T).dirty (es.foldl (fun os e => e.carry os) os) := by
  induction hs generalizing T os with
  | nil => exact h
  | cons hs _ ih => exact ih (h.edit hs)

end Traced

/-- No change escapes the dirt that a batch of edits leaves. The bytes that come from the original
text are the bytes there and keep their order. A byte that the dirt does not cover is one of them,
and two neighbours were neighbours there unless dirt touches the boundary between them. -/
theorem Highlighter.clean_bytes_kept {σ : Type} (h : Highlighter σ) (t : Text)
    (replacements : List (Nat × Nat × Text)) :
    let d := Document.ofText t
    let d' := (d.applyAll replacements).1
    let es := (d.applyAll replacements).2
    let dirty := (h.after es).dirty
    let origins := Edit.origins d.size es
    origins.length = d'.size ∧
      (∀ pos q, origins[pos]? = some (some q) → q < d.size ∧ d'.byteAt pos = d.byteAt q) ∧
      (origins.Pairwise fun p q => ∀ i ∈ p, ∀ j ∈ q, i < j) ∧
      (∀ pos < d'.size, ¬ Covered dirty pos → ∃ q, origins[pos]? = some (some q)) ∧
      ∀ pos, pos + 1 < d'.size → ¬ Touched dirty (pos + 1) → ∃ q,
        origins[pos]? = some (some q) ∧ origins[pos + 1]? = some (some (q + 1)) := by
  intro d d' es dirty origins
  obtain ⟨t', ht', hsp⟩ := Document.applyAll_ofText t replacements
  have htraced : Traced t t' dirty origins := (Traced.init t).edits (T := h.tracked) hsp
  have hd' : d' = Document.ofText t' := ht'
  rw [hd']
  exact ⟨htraced.length, htraced.origin, htraced.ordered, htraced.covered, htraced.beside⟩

/-- Two characters are put in, and the first of them is taken out again with the one before it. -/
example : Edit.origins 6 ((Document.ofText "abcdef".toList).applyAll
    [(2, 2, "xy".toList), (1, 3, [])]).2 =
      [some 0, none, some 2, some 3, some 4, some 5] := by
  decide

end FencedCode
