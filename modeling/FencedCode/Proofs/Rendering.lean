import FencedCode.Backend
import FencedCode.Proofs.Blocks
import FencedCode.Proofs.Decorations

namespace FencedCode

namespace Placement

theorem line_spec {stop : Nat} (l : TokenLine) {cursor : Nat} (h : cursor ≤ stop) :
    (∀ d ∈ (line stop cursor l).1,
      cursor ≤ d.start ∧ d.start < d.stop ∧ d.stop ≤ (line stop cursor l).2) ∧
        (line stop cursor l).1.Pairwise (fun d e => d.stop ≤ e.start) ∧
          cursor ≤ (line stop cursor l).2 ∧ (line stop cursor l).2 ≤ stop := by
  induction l generalizing cursor with
  | nil => exact ⟨by simp [line], .nil, le_rfl, h⟩
  | cons t ts ih =>
    unfold line
    split_ifs with hempty hfull
    · exact ih h
    · exact ⟨by simp, .nil, le_rfl, h⟩
    · -- the token has text and there is room, so its decoration is not empty
      have hsize : 0 < Text.size t.text := by
        refine Nat.pos_of_ne_zero fun h0 => hempty ?_
        rw [Text.eq_nil_of_size_eq_zero h0]
        rfl
      have hnext : cursor < min (cursor + Text.size t.text) stop := by omega
      obtain ⟨hb, hp, hlo, hhi⟩ := ih (min_le_right (cursor + Text.size t.text) stop)
      refine ⟨fun d hd => ?_, List.pairwise_cons.2 ⟨fun e he => (hb e he).1, hp⟩, ?_, hhi⟩
      · rcases List.mem_cons.1 hd with rfl | hd
        · exact ⟨le_rfl, hnext, hlo⟩
        · obtain ⟨h1, h2, h3⟩ := hb d hd
          exact ⟨hnext.le.trans h1, h2, h3⟩
      · exact hnext.le.trans hlo

theorem le_skipBreak (byteAt : Nat → Option UInt8) {stop cursor : Nat} (h : cursor ≤ stop) :
    cursor ≤ skipBreak byteAt stop cursor ∧ skipBreak byteAt stop cursor ≤ stop := by
  unfold skipBreak
  split_ifs <;> omega

theorem lines_spec (byteAt : Nat → Option UInt8) {stop : Nat} (ls : List TokenLine) {cursor : Nat}
    (h : cursor ≤ stop) :
    (∀ d ∈ lines byteAt stop cursor ls, cursor ≤ d.start ∧ d.start < d.stop ∧ d.stop ≤ stop) ∧
      (lines byteAt stop cursor ls).Pairwise fun d e => d.stop ≤ e.start := by
  induction ls generalizing cursor with
  | nil => exact ⟨by simp [lines], .nil⟩
  | cons l ls ih =>
    obtain ⟨hb, hp, hlo, hhi⟩ := line_spec l h
    obtain ⟨hskip, hstop⟩ := le_skipBreak byteAt hhi
    obtain ⟨hb', hp'⟩ := ih hstop
    unfold lines
    refine ⟨fun d hd => ?_, List.pairwise_append.2 ⟨hp, hp', fun d hd e he => ?_⟩⟩
    · rcases List.mem_append.1 hd with hd | hd
      · obtain ⟨h1, h2, h3⟩ := hb d hd
        exact ⟨h1, h2, h3.trans hhi⟩
      · obtain ⟨h1, h2, h3⟩ := hb' d hd
        exact ⟨(hlo.trans hskip).trans h1, h2, h3⟩
    · exact ((hb d hd).2.2.trans hskip).trans (hb' e he).1

theorem line_shift (stop k : Nat) (l : TokenLine) (cursor : Nat) :
    line (stop + k) (cursor + k) l =
      ((line stop cursor l).1.map (·.shift k), (line stop cursor l).2 + k) := by
  induction l generalizing cursor with
  | nil => rfl
  | cons t ts ih =>
    have hmin : min (cursor + k + Text.size t.text) (stop + k) =
        min (cursor + Text.size t.text) stop + k := by omega
    unfold line
    split_ifs with hempty h1 h2 h2
    · exact ih cursor
    · rfl
    · omega
    · omega
    · simp only [hmin, ih]
      rfl

theorem lines_shift {byteAt byteAt' : Nat → Option UInt8} {stop k : Nat}
    (hb : ∀ p, p < stop → byteAt' (p + k) = byteAt p) (ls : List TokenLine) (cursor : Nat) :
    lines byteAt' (stop + k) (cursor + k) ls = (lines byteAt stop cursor ls).map (·.shift k) := by
  induction ls generalizing cursor with
  | nil => rfl
  | cons l ls ih =>
    have hskip : ∀ c, skipBreak byteAt' (stop + k) (c + k) = skipBreak byteAt stop c + k := by
      intro c
      unfold skipBreak
      by_cases hc : c < stop
      · simp only [hb c hc, hc, Nat.add_lt_add_iff_right, true_and]
        split_ifs <;> omega
      · simp only [hc, Nat.add_lt_add_iff_right, false_and, if_false]
    simp only [lines, line_shift, hskip, ih, List.map_append]

end Placement

namespace Text

def painted (w : Text) (tokens : List TokenLine) : List Decoration :=
  Placement.lines (byteAt w) (size w) 0 tokens

end Text

namespace Document

variable {t : Text} {aliases : Aliases} {b : Block}

theorem exists_body (h : b ∈ (ofText t).blocks aliases) :
    ∃ w, Text.At t b.bodyStart w ∧ b.bodyStart + Text.size w = b.bodyStop := by
  obtain ⟨r, hr, hb⟩ := mem_blocks.1 h
  obtain ⟨-, hstart, hstop, -, hlt⟩ := Region.block?_eq_some hb
  obtain ⟨-, -, hle, hsize⟩ := block_bounds h
  have hopen := (Text.mem_fences.1 (Text.opener_mem_fences hr)).1
  obtain ⟨x, y, hx, hxs⟩ := Text.exists_newline_behind hopen (by omega)
  have hcut : ∃ x' y', t = x' ++ y' ∧ Text.size x' = b.bodyStop := by
    rw [hstop, Region.bodyStop]
    cases hc : r.closer with
    | none => exact ⟨t, [], by simp, rfl⟩
    | some c =>
      obtain ⟨x', y', hx', hs'⟩ :=
        Text.at_of_mem_marks (Text.mem_fences.1 (Text.closer_mem_fences hr hc)).1
      exact ⟨x', c.text ++ y', by simp [hx'], hs'⟩
  obtain ⟨x', y', hx', hs'⟩ := hcut
  -- cut behind the opening line and before the closing one
  have hnl : Text.size ['\n'] = 1 := rfl
  have hfront : Text.size (x ++ ['\n']) = b.bodyStart := by
    rw [Text.size_append, hnl, hxs, hstart]
  have heq : (x ++ ['\n']) ++ y = x' ++ y' := by rw [← hx', hx]; simp
  obtain ⟨w, hw, -⟩ := Text.append_eq_append_of_size_le heq (by omega)
  refine ⟨w, ⟨x ++ ['\n'], y', by rw [← hw, ← hx'], hfront⟩, ?_⟩
  rw [← hfront, ← Text.size_append, ← hw, hs']

theorem slice_body {w : Text} (hw : Text.At t b.bodyStart w)
    (hsize : b.bodyStart + Text.size w = b.bodyStop) : (ofText t).slice b.body = w := by
  have hle : b.bodyStart ≤ b.bodyStop := by omega
  rw [slice, Block.body, Interval.between_lo, Interval.between_hi, min_eq_left hle,
    max_eq_right hle, ← hsize]
  exact hw.slice_eq

theorem place_eq {w : Text} (hw : Text.At t b.bodyStart w)
    (hsize : b.bodyStart + Text.size w = b.bodyStop) (tokens : List TokenLine) :
    (ofText t).host.place b tokens = (w.painted tokens).map (·.shift b.bodyStart) := by
  have hbyte : ∀ p, p < Text.size w → (ofText t).byteAt (p + b.bodyStart) = Text.byteAt w p := by
    intro p hp
    rw [Nat.add_comm]
    exact hw.byteAt_eq hp
  have h := Placement.lines_shift hbyte tokens 0
  rw [Nat.zero_add, Nat.add_comm, hsize] at h
  exact h

/-- The decorations of a block lie in its body and do not overlap. -/
theorem place_wellFormed (h : b ∈ (ofText t).blocks aliases) (tokens : List TokenLine) :
    DecorationSet.WellFormed (Text.size t) ((ofText t).host.place b tokens) ∧
      ∀ d ∈ (ofText t).host.place b tokens, b.bodyStart ≤ d.start ∧ d.stop ≤ b.bodyStop := by
  obtain ⟨-, hlt, hle, hsize⟩ := block_bounds h
  obtain ⟨hb, hp⟩ := Placement.lines_spec (ofText t).byteAt tokens hlt.le
  refine ⟨⟨fun d hd => ?_, hp⟩, fun d hd => ?_⟩
  · obtain ⟨-, h1, h2⟩ := hb d hd
    exact ⟨h1, (h2.trans hle).trans hsize⟩
  · obtain ⟨h1, -, h2⟩ := hb d hd
    exact ⟨h1, h2⟩

end Document

end FencedCode
