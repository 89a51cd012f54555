import FencedCode.Grammar
import FencedCode.Proofs.Matches

namespace FencedCode

/-- Spans that follow one on another from `lo` to `hi`, none of them empty and each between two
character boundaries. -/
def Span.Tile (t : Text) (lo hi : Nat) : List Span → Prop
  | [] => lo = hi
  | s :: ss =>
    s.start = lo ∧ s.start < s.stop ∧ t.isBoundary s.start ∧ t.isBoundary s.stop ∧
      Tile t s.stop hi ss

namespace Span

variable {t : Text} {lo mid hi : Nat}

theorem Tile.append {ss ss' : List Span} (h : Tile t lo mid ss) (h' : Tile t mid hi ss') :
    Tile t lo hi (ss ++ ss') := by
  induction ss generalizing lo with
  | nil =>
    obtain rfl : lo = mid := h
    exact h'
  | cons s ss ih => exact ⟨h.1, h.2.1, h.2.2.1, h.2.2.2.1, ih h.2.2.2.2⟩

theorem tile_between (hle : lo ≤ hi) (hlo : t.isBoundary lo) (hhi : t.isBoundary hi)
    (kind : Kind) : Tile t lo hi (between lo hi kind) := by
  unfold between
  split_ifs with hlt
  · exact ⟨rfl, hlt, hlo, hhi, rfl⟩
  · exact Nat.le_antisymm hle (not_lt.1 hlt)

end Span

namespace MultilineRule

theorem closeFrom_spec {r : MultilineRule} {t : Text} {back pos stop : Nat}
    (h : r.closeFrom t back pos = some stop) : pos ≤ stop ∧ t.isBoundary stop := by
  fun_induction r.closeFrom t back pos with
  | case1 pos hlt hm => simp at h
  | case2 pos hlt m hm hescaped ih =>
    obtain ⟨hle, hb⟩ := ih h
    exact ⟨by omega, hb⟩
  | case3 pos hlt m hm hescaped =>
    obtain ⟨k, hk, rfl⟩ := Option.map_eq_some_iff.1 hm
    obtain rfl := Option.some.inj h
    have hcuts := r.closer.cuts_of_findGroup 0 hlt.le hk
    exact ⟨hcuts.lo_le.trans k.span.lo_le_hi, hcuts.boundary.2⟩
  | case4 pos hge => simp at h

end MultilineRule

namespace Grammar

theorem mem_of_earliest {α : Type} {es : List (Nat × α)} {e : Nat × α}
    (h : earliest es = some e) : e ∈ es := by
  induction es with
  | nil => simp [earliest] at h
  | cons f fs ih =>
    unfold earliest at h
    split at h
    · exact Option.some.inj h ▸ List.mem_cons_self
    · rename_i g hg
      split_ifs at h
      · exact List.mem_cons_of_mem _ (ih (h ▸ hg))
      · exact Option.some.inj h ▸ List.mem_cons_self

namespace Outlook

/-- What lies ahead of an offset begins there or later. -/
structure Cuts (o : Outlook) (t : Text) (pos : Nat) : Prop where
  openers : ∀ e ∈ o.openers, ∀ m ∈ e.2, m.Cuts t pos
  patterns : ∀ e ∈ o.patterns, ∀ m ∈ e.2, m.Cuts t pos

/-- No opening match is empty, nor will one be that is looked for later. -/
def Consumes (o : Outlook) : Prop :=
  ∀ e ∈ o.openers, e.1.opener.Consumes ∧ ∀ m ∈ e.2, m.span.lo < m.span.hi

variable {o : Outlook} {t : Text} {pos : Nat}

theorem Cuts.advance (h : o.Cuts t pos) {stop : Nat} (hstop : stop ≤ Text.size t) :
    (o.advance t stop).Cuts t stop := by
  constructor
  · intro e he m hm
    obtain ⟨⟨r, known⟩, hr, rfl⟩ := List.mem_map.1 he
    exact r.opener.cuts_of_findNext 0 hstop (h.openers _ hr) hm
  · intro e he m hm
    obtain ⟨⟨r, known⟩, hr, rfl⟩ := List.mem_map.1 he
    exact r.pattern.cuts_of_findNext r.group hstop (h.patterns _ hr) hm

theorem Consumes.advance (h : o.Consumes) (t : Text) (stop : Nat) :
    (o.advance t stop).Consumes := by
  intro e he
  obtain ⟨⟨r, known⟩, hr, rfl⟩ := List.mem_map.1 he
  obtain ⟨hrule, hknown⟩ := h _ hr
  refine ⟨hrule, fun m hm => ?_⟩
  obtain ⟨k, hk, hm⟩ := Option.bind_eq_some_iff.1 hm
  split_ifs at hm
  · exact Option.some.inj hm ▸ hknown k hk
  · exact Automaton.lo_lt_hi_of_findGroup hrule hm

theorem next?_spec {start : Nat} {c : Candidate} (h : o.next? = some (start, c)) :
    (∃ r m, (r, some m) ∈ o.openers ∧ start = m.span.lo ∧ c = .multiline r m.span.hi) ∨
      ∃ r m i, (r, some m) ∈ o.patterns ∧ r.token m = some i ∧ i.lo < i.hi ∧ start = i.lo ∧
        c = .pattern r i.hi := by
  rcases List.mem_append.1 (mem_of_earliest h) with h | h
  · left
    obtain ⟨⟨r, known⟩, hr, he⟩ := List.mem_filterMap.1 h
    obtain ⟨m, rfl, hm⟩ := Option.map_eq_some_iff.1 he
    obtain ⟨rfl, rfl⟩ := Prod.mk.inj hm
    exact ⟨r, m, hr, rfl, rfl⟩
  · right
    obtain ⟨⟨r, known⟩, hr, he⟩ := List.mem_filterMap.1 h
    obtain ⟨i, hi, hspan⟩ := Option.bind_eq_some_iff.1 he
    obtain ⟨m, rfl, hm⟩ := Option.bind_eq_some_iff.1 hi
    split_ifs at hspan with hlt
    obtain ⟨rfl, rfl⟩ := Prod.mk.inj (Option.some.inj hspan)
    exact ⟨r, m, i, hr, hm, hlt, rfl, rfl⟩

theorem Cuts.multiline (h : o.Cuts t pos) {start opened : Nat} {r : MultilineRule}
    (hn : o.next? = some (start, .multiline r opened)) :
    pos ≤ start ∧ start ≤ opened ∧ t.isBoundary start := by
  rcases next?_spec hn with ⟨r', m, hr, rfl, he⟩ | ⟨_, _, _, _, _, _, _, he⟩
  · obtain ⟨rfl, rfl⟩ := Candidate.multiline.inj he
    have hcuts := h.openers _ hr m rfl
    exact ⟨hcuts.lo_le, m.span.lo_le_hi, hcuts.boundary.1⟩
  · cases he

theorem Cuts.pattern (h : o.Cuts t pos) {start stop : Nat} {r : PatternRule}
    (hn : o.next? = some (start, .pattern r stop)) :
    pos ≤ start ∧ start < stop ∧ t.isBoundary start ∧ t.isBoundary stop := by
  rcases next?_spec hn with ⟨_, _, _, _, he⟩ | ⟨r', m, i, hr, htoken, hlt, rfl, he⟩
  · cases he
  · obtain ⟨rfl, rfl⟩ := Candidate.pattern.inj he
    have hcuts := h.patterns _ hr m rfl
    unfold PatternRule.token at htoken
    split_ifs at htoken
    · obtain rfl := Option.some.inj htoken
      exact ⟨hcuts.lo_le, hlt, hcuts.boundary⟩
    · obtain ⟨hin, hb⟩ := hcuts.group i htoken
      exact ⟨hcuts.lo_le.trans hin.1, hlt, hb⟩

theorem Consumes.multiline (h : o.Consumes) {start opened : Nat} {r : MultilineRule}
    (hn : o.next? = some (start, .multiline r opened)) : start < opened := by
  rcases next?_spec hn with ⟨r', m, hr, rfl, he⟩ | ⟨_, _, _, _, _, _, _, he⟩
  · obtain ⟨rfl, rfl⟩ := Candidate.multiline.inj he
    exact (h _ hr).2 m rfl
  · cases he

/-- The spans from an offset on go from there to the end of the line. -/
theorem Cuts.tile (h : o.Cuts t pos) (hpos : t.isBoundary pos) {ss : List Span}
    {state : LineState} (hs : o.spans t pos = some (ss, state)) :
    Span.Tile t pos (Text.size t) ss := by
  have hsize := t.isBoundary_size
  fun_induction o.spans t pos generalizing ss state with
  | case1 o pos hlt hn =>
    obtain ⟨rfl, -⟩ := Prod.mk.inj (Option.some.inj hs)
    exact Span.tile_between hlt.le hpos hsize _
  | case2 o pos hlt start rule opened hn hclose covered =>
    obtain ⟨rfl, -⟩ := Prod.mk.inj (Option.some.inj hs)
    obtain ⟨hle, -, hb⟩ := h.multiline hn
    exact (Span.tile_between hle hpos hb _).append
      (Span.tile_between (Text.le_size_of_isBoundary hb) hb hsize _)
  | case3 o pos hlt start rule opened hn stop hclose hprogress ih =>
    obtain ⟨⟨ss', state'⟩, hrest, he⟩ := Option.map_eq_some_iff.1 hs
    obtain ⟨rfl, -⟩ := Prod.mk.inj he
    obtain ⟨hle, hopened, hb⟩ := h.multiline hn
    obtain ⟨hstop, hb'⟩ := MultilineRule.closeFrom_spec hclose
    have htile := ih (h.advance (Text.le_size_of_isBoundary hb')) hb' hrest
    exact ((Span.tile_between hle hpos hb _).append
      (Span.tile_between (hopened.trans hstop) hb hb' _)).append htile
  | case4 => simp at hs
  | case5 o pos hlt start rule stop hn hprogress ih =>
    obtain ⟨⟨ss', state'⟩, hrest, he⟩ := Option.map_eq_some_iff.1 hs
    obtain ⟨rfl, -⟩ := Prod.mk.inj he
    obtain ⟨hle, hstop, hb, hb'⟩ := h.pattern hn
    have htile := ih (h.advance (Text.le_size_of_isBoundary hb')) hb' hrest
    exact ((Span.tile_between hle hpos hb _).append
      (Span.tile_between hstop.le hb hb' _)).append htile
  | case6 => simp at hs
  | case7 o pos hge =>
    obtain ⟨rfl, -⟩ := Prod.mk.inj (Option.some.inj hs)
    exact Nat.le_antisymm (Text.le_size_of_isBoundary hpos) (not_lt.1 hge)

/-- Each construct takes the search further. -/
theorem Consumes.isSome_spans (ho : o.Consumes) (h : o.Cuts t pos) :
    (o.spans t pos).isSome := by
  fun_induction o.spans t pos with
  | case1 | case2 | case7 => rfl
  | case3 o pos hlt start rule opened hn stop hclose hprogress ih =>
    obtain ⟨-, hb⟩ := MultilineRule.closeFrom_spec hclose
    rw [Option.isSome_map]
    exact ih (ho.advance t stop) (h.advance (Text.le_size_of_isBoundary hb))
  | case4 o pos hlt start rule opened hn stop hclose hstuck =>
    have := (h.multiline hn).1
    have := ho.multiline hn
    have := (MultilineRule.closeFrom_spec hclose).1
    omega
  | case5 o pos hlt start rule stop hn hprogress ih =>
    obtain ⟨-, -, -, hb⟩ := h.pattern hn
    rw [Option.isSome_map]
    exact ih (ho.advance t stop) (h.advance (Text.le_size_of_isBoundary hb))
  | case6 o pos hlt start rule stop hn hstuck =>
    have := h.pattern hn
    omega

end Outlook

variable {t : Text}

theorem cuts_outlook (g : Grammar) {pos : Nat} (hpos : pos ≤ Text.size t) :
    (g.outlook t pos).Cuts t pos := by
  constructor
  · intro e he m hm
    obtain ⟨r, -, rfl⟩ := List.mem_map.1 he
    exact r.opener.cuts_of_findGroup 0 hpos hm
  · intro e he m hm
    obtain ⟨r, -, rfl⟩ := List.mem_map.1 he
    exact r.pattern.cuts_of_findGroup r.group hpos hm

def Consumes (g : Grammar) : Prop := ∀ r ∈ g.multilines, r.opener.Consumes

theorem Consumes.outlook {g : Grammar} (hg : g.Consumes) (t : Text) (pos : Nat) :
    (g.outlook t pos).Consumes := by
  intro e he
  obtain ⟨r, hr, rfl⟩ := List.mem_map.1 he
  exact ⟨hg r hr, fun m hm => Automaton.lo_lt_hi_of_findGroup (hg r hr) hm⟩

/-- The spans of a line, whatever state it starts in, go from its start to its end. -/
theorem tile_of_highlightLine {g : Grammar} {state state' : LineState} {ss : List Span}
    (h : g.highlightLine t state = some (ss, state')) : Span.Tile t 0 (Text.size t) ss := by
  have hzero := t.isBoundary_zero
  have hsize := t.isBoundary_size
  unfold highlightLine at h
  split at h
  · exact (g.cuts_outlook (Nat.zero_le _)).tile hzero h
  · split at h
    · obtain ⟨rfl, -⟩ := Prod.mk.inj (Option.some.inj h)
      exact Span.tile_between (Nat.zero_le _) hzero hsize _
    · rename_i rule _ stop hclose
      obtain ⟨⟨ss', state''⟩, hrest, he⟩ := Option.map_eq_some_iff.1 h
      obtain ⟨rfl, -⟩ := Prod.mk.inj he
      obtain ⟨hstop, hb⟩ := MultilineRule.closeFrom_spec hclose
      exact (Span.tile_between hstop hzero hb _).append
        ((g.cuts_outlook (Text.le_size_of_isBoundary hb)).tile hb hrest)

theorem Consumes.isSome_highlightLine {g : Grammar} (hg : g.Consumes) (t : Text)
    (state : LineState) : (g.highlightLine t state).isSome := by
  unfold highlightLine
  split
  · exact (hg.outlook t 0).isSome_spans (g.cuts_outlook (Nat.zero_le _))
  · split
    · rfl
    · rename_i rule _ stop hclose
      obtain ⟨-, hb⟩ := MultilineRule.closeFrom_spec hclose
      rw [Option.isSome_map]
      exact (hg.outlook t stop).isSome_spans (g.cuts_outlook (Text.le_size_of_isBoundary hb))

theorem Consumes.highlightLines_spec {g : Grammar} (hg : g.Consumes) (state : LineState)
    (ts : List Text) : ∃ results, g.highlightLines state ts = some results ∧
      List.Forall₂ (fun t r => Span.Tile t 0 (Text.size t) r.1) ts results := by
  induction ts generalizing state with
  | nil => exact ⟨[], rfl, .nil⟩
  | cons t ts ih =>
    obtain ⟨⟨ss, state'⟩, hline⟩ := Option.isSome_iff_exists.1 (hg.isSome_highlightLine t state)
    obtain ⟨results, hrest, hall⟩ := ih state'
    refine ⟨(ss, state') :: results, ?_, .cons (tile_of_highlightLine hline) hall⟩
    simp [highlightLines, hline, hrest]

end Grammar

end FencedCode
