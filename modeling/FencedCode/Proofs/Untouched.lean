import FencedCode.Proofs.Tracking

namespace FencedCode

namespace Edit

def moves (es : List Edit) (pos : Nat) : Nat := es.foldl (fun pos e => e.move pos) pos

/-- No edit touches the offsets from `lo` to `hi`, as far as they have been moved before it. -/
def AvoidAll : List Edit → Nat → Nat → Prop
  | [], _, _ => True
  | e :: es, lo, hi => e.Avoids lo hi ∧ AvoidAll es (e.move lo) (e.move hi)

theorem moves_cons (e : Edit) (es : List Edit) (pos : Nat) :
    moves (e :: es) pos = moves es (e.move pos) := rfl

theorem move_mono {e : Edit} (he : e.Ordered) {a b : Nat} (h : a ≤ b) : e.move a ≤ e.move b := by
  unfold Ordered at he
  unfold move
  split_ifs <;> omega

end Edit

variable {t t' : Text} {es : List Edit} {lo hi : Nat}

namespace Splices

open Edit

theorem avoidAll_mono (hs : Splices t es t') (h : AvoidAll es lo hi) {lo' hi' : Nat}
    (hlo : lo ≤ lo') (hle : lo' ≤ hi') (hhi : hi' ≤ hi) : AvoidAll es lo' hi' := by
  induction hs generalizing lo hi lo' hi' with
  | nil => trivial
  | cons hs _ ih =>
    obtain ⟨ha, hrest⟩ := h
    have he := hs.ordered
    exact ⟨ha.mono hlo hhi, ih hrest (move_mono he hlo) (move_mono he hle) (move_mono he hhi)⟩

theorem moves_add (hs : Splices t es t') (h : AvoidAll es lo hi) {k : Nat} (hk : lo + k ≤ hi) :
    moves es (lo + k) = moves es lo + k := by
  induction hs generalizing lo hi with
  | nil => rfl
  | @cons _ _ _ e es hs _ ih =>
    obtain ⟨ha, hrest⟩ := h
    have hmove := ha.move_add hs.ordered hk
    have hle := move_mono hs.ordered hk
    rw [moves_cons, moves_cons, hmove]
    exact ih hrest (hmove ▸ hle)

theorem moves_eq (hs : Splices t es t') (h : AvoidAll es lo hi) {pos : Nat} (hlo : lo ≤ pos)
    (hhi : pos ≤ hi) : moves es pos = moves es lo + (pos - lo) := by
  have := hs.moves_add h (k := pos - lo) (by omega)
  rwa [Nat.add_sub_cancel' hlo] at this

theorem moves_mono (hs : Splices t es t') {a b : Nat} (h : a ≤ b) : moves es a ≤ moves es b := by
  induction hs generalizing a b with
  | nil => exact h
  | cons hs _ ih => exact ih (move_mono hs.ordered h)

theorem moves_inj (hs : Splices t es t') {a b : Nat} (ha : AvoidAll es a a) (hb : AvoidAll es b b)
    (h : moves es a = moves es b) : a = b := by
  induction hs generalizing a b with
  | nil => exact h
  | cons hs _ ih =>
    have := ih ha.2 hb.2 h
    rw [← symm_move ha.1 hs.ordered, ← symm_move hb.1 hs.ordered, this]

theorem at_moves (hs : Splices t es t') {pos : Nat} {w : Text} (hw : Text.At t pos w)
    (h : AvoidAll es pos (pos + Text.size w)) : Text.At t' (moves es pos) w := by
  induction hs generalizing pos with
  | nil => exact hw
  | @cons _ _ _ e es hs _ ih =>
    obtain ⟨ha, hrest⟩ := h
    rw [ha.move_add hs.ordered le_rfl] at hrest
    exact ih (hs.at_move hw ha) hrest

end Splices

def Mark.movedAll (m : Mark) (es : List Edit) : Mark := { m with start := Edit.moves es m.start }

theorem Mark.movedAll_stop {m : Mark} (hs : Splices t es t')
    (h : Edit.AvoidAll es m.start m.stop) : (m.movedAll es).stop = Edit.moves es m.stop :=
  (hs.moves_add h le_rfl).symm

namespace Tracked

/-- A stretch that no dirt touches at the end was avoided by all edits, and no dirt touched it at
the start. -/
theorem exists_avoided (hs : Splices t es t') (T : Tracked) (hle : lo ≤ hi)
    (hclean : ∀ pos, lo ≤ pos → pos ≤ hi → ¬ Interval.Touched (es.foldl Tracked.edit T).dirty pos) :
    ∃ a b, a ≤ b ∧ Edit.AvoidAll es a b ∧ Edit.moves es a = lo ∧ Edit.moves es b = hi ∧
      (hi = Text.size t' → b = Text.size t) ∧
        ∀ pos, a ≤ pos → pos ≤ b → ¬ Interval.Touched T.dirty pos := by
  induction hs generalizing T with
  | nil => exact ⟨lo, hi, hle, trivial, rfl, rfl, id, hclean⟩
  | @cons t t₁ t' e es hs _ ih =>
    have he := hs.ordered
    obtain ⟨a, b, hab, hav, hlo, hhi, hend, hclean₁⟩ := ih (T.edit e) hclean
    -- the edited span is dirt, so it does not touch the stretch
    have hsymm : e.symm.Avoids a b := by
      rw [Edit.symm_avoids_iff he]
      by_contra hno
      have hrange := e.newRange.lo_le_hi
      exact hclean₁ (max a e.newRange.lo) (by omega) (by omega)
        (touched_edit_dirty.2 (.inr (by omega)))
    -- taking the edit back, the stretch is avoided and moves here
    have ha : e.Avoids (e.symm.move a) (e.symm.move b) := hsymm.symm he.symm hab
    have hma : e.move (e.symm.move a) = a :=
      Edit.symm_move (hsymm.mono le_rfl hab) he.symm
    have hmb : e.move (e.symm.move b) = b :=
      Edit.symm_move (hsymm.mono hab le_rfl) he.symm
    have hle' := Edit.move_mono he.symm hab
    refine ⟨e.symm.move a, e.symm.move b, hle', ⟨ha, ?_⟩, ?_, ?_, fun h => ?_,
      fun pos h1 h2 hd => ?_⟩
    · rwa [hma, hmb]
    · rw [Edit.moves_cons, hma, hlo]
    · rw [Edit.moves_cons, hmb, hhi]
    · rw [hend h]
      exact hs.symm.move_size
    · have h3 := Edit.move_mono he h1
      have h4 := Edit.move_mono he h2
      rw [hma] at h3
      rw [hmb] at h4
      exact hclean₁ (e.move pos) h3 h4
        (touched_edit_dirty.2 (.inl (Edit.touched_map he (ha.mono h1 h2) hd)))

end Tracked

def Decoration.movedAll (d : Decoration) (es : List Edit) : Decoration :=
  { d with start := Edit.moves es d.start, stop := Edit.moves es d.stop }

namespace Tracked

theorem map?_of_avoids {e : Edit} (he : e.Ordered) (ha : e.Avoids lo hi) {d : Decoration}
    (hlo : lo ≤ d.start) (hlt : d.start < d.stop) (hhi : d.stop ≤ hi) :
    d.map? e = some { d with start := e.move d.start, stop := e.move d.stop } := by
  unfold Edit.Avoids Edit.Ordered at *
  unfold Decoration.map? Edit.move
  by_cases hbefore : d.stop ≤ e.start
  · rw [if_pos hbefore, if_pos (by omega), if_pos (by omega)]
  · rw [if_neg hbefore, if_pos (by omega), if_neg (by omega), if_neg (by omega)]
    simp only [Option.some.injEq, Decoration.mk.injEq, and_true]
    omega

theorem movedAll_mem (hs : Splices t es t') {T : Tracked} (ha : Edit.AvoidAll es lo hi)
    {d : Decoration} (hd : d ∈ T.decorations) (hlo : lo ≤ d.start) (hlt : d.start < d.stop)
    (hhi : d.stop ≤ hi) : d.movedAll es ∈ (es.foldl Tracked.edit T).decorations := by
  induction hs generalizing T lo hi d with
  | nil => exact hd
  | @cons _ _ _ e es hs _ ih =>
    have he := hs.ordered
    obtain ⟨hav, hrest⟩ := ha
    have hadd := (hav.mono hlo hhi).move_add he
      (show d.start + (d.stop - d.start) ≤ d.stop by omega)
    rw [Nat.add_sub_cancel' hlt.le] at hadd
    refine ih (T := T.edit e) hrest (List.mem_filterMap.2
      ⟨d, hd, map?_of_avoids he hav hlo hlt hhi⟩) (Edit.move_mono he hlo) ?_ (Edit.move_mono he hhi)
    dsimp only
    omega

theorem exists_movedAll (hs : Splices t es t') {T : Tracked} (hle : lo ≤ hi)
    (ha : Edit.AvoidAll es lo hi) (hw : DecorationSet.WellFormed (Text.size t) T.decorations)
    {d' : Decoration} (hd' : d' ∈ (es.foldl Tracked.edit T).decorations)
    (hlo : Edit.moves es lo ≤ d'.start) (hhi : d'.stop ≤ Edit.moves es hi) :
    ∃ d ∈ T.decorations, lo ≤ d.start ∧ d.stop ≤ hi ∧ d.movedAll es = d' := by
  induction hs generalizing T lo hi with
  | nil => exact ⟨d', hd', hlo, hhi, rfl⟩
  | @cons _ _ _ e es hs _ ih =>
    have he := hs.ordered
    obtain ⟨hav, hrest⟩ := ha
    obtain ⟨d₁, hd₁, hlo₁, hhi₁, rfl⟩ := ih (T := T.edit e) (Edit.move_mono he hle) hrest
      (hw.map hs) hd' hlo hhi
    obtain ⟨d, hd, hmap⟩ := List.mem_filterMap.1 hd₁
    have hlt := (hw.bounds d hd).1
    have hord : e.start ≤ e.oldEnd ∧ e.start ≤ e.newEnd := he
    have hbounds : lo ≤ d.start ∧ d.stop ≤ hi := by
      unfold Edit.Avoids at hav
      unfold Edit.move at hlo₁ hhi₁
      rcases Decoration.map?_eq_some hlt hmap with ⟨h1, rfl⟩ | ⟨h1, h2, h3, -⟩ <;>
        split_ifs at hlo₁ hhi₁ <;> omega
    refine ⟨d, hd, hbounds.1, hbounds.2, ?_⟩
    rw [map?_of_avoids he hav hbounds.1 hlt hbounds.2] at hmap
    rw [← Option.some.inj hmap]
    rfl

theorem visible_edits (es : List Edit) (T : Tracked) : (es.foldl Tracked.edit T).visible =
    T.visible.map fun vs => vs.map fun v => es.foldl (fun v e => e.mapInterval v) v := by
  induction es generalizing T with
  | nil => simp
  | cons e es ih =>
    rw [List.foldl_cons, ih, edit]
    simp only [Option.map_map, Function.comp_def, List.map_map]
    rfl

/-- A byte of an avoided stretch that is in sight was so before. -/
theorem mem_of_mem_mapped (hs : Splices t es t') {pos : Nat} (ha : Edit.AvoidAll es pos (pos + 1))
    {v : Interval} (hlo : (es.foldl (fun v e => e.mapInterval v) v).lo ≤ Edit.moves es pos)
    (hhi : Edit.moves es pos < (es.foldl (fun v e => e.mapInterval v) v).hi) :
    v.lo ≤ pos ∧ pos < v.hi := by
  induction hs generalizing pos v with
  | nil => exact ⟨hlo, hhi⟩
  | @cons _ _ _ e es hs _ ih =>
    have he := hs.ordered
    obtain ⟨hav, hrest⟩ := ha
    have hadd := hav.move_add he (le_refl (pos + 1))
    rw [hadd] at hrest
    obtain ⟨h1, h2⟩ := ih hrest hlo hhi
    rw [Edit.mapInterval_lo he] at h1
    rw [Edit.mapInterval_hi he] at h2
    -- the ends of the interval have not moved past the byte
    constructor
    · by_contra hlt
      have hm := Edit.mapPos_mono he (show pos + 1 ≤ v.lo by omega) .left
      rw [Edit.mapPos_eq_move (hav.mono (Nat.le_add_right pos 1) le_rfl) he] at hm
      omega
    · by_contra hge
      have hm := Edit.mapPos_mono he (show v.hi ≤ pos by omega) .right
      rw [Edit.mapPos_eq_move (hav.mono le_rfl (Nat.le_add_right pos 1)) he] at hm
      omega

end Tracked

end FencedCode
