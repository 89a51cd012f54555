import FencedCode.Proofs.Candidates
import FencedCode.Proofs.Resumption
import Mathlib.Data.List.Chain

namespace FencedCode

namespace Span

variable {t : Text} {lo hi : Nat} {ss : List Span}

theorem Tile.forall (h : Tile t lo hi ss) :
    ∀ s ∈ ss, s.start < s.stop ∧ t.isBoundary s.start ∧ t.isBoundary s.stop := by
  induction ss generalizing lo with
  | nil => exact List.forall_mem_nil _
  | cons s ss ih =>
    obtain ⟨-, hlt, hstart, hstop, hrest⟩ := h
    exact List.forall_mem_cons.2 ⟨⟨hlt, hstart, hstop⟩, ih hrest⟩

theorem Tile.head_start (h : Tile t lo hi ss) : ∀ s ∈ ss.head?, s.start = lo := by
  cases ss with
  | nil => simp
  | cons s ss => simpa using h.1

theorem Tile.getLast_stop (h : Tile t lo hi ss) : ∀ s ∈ ss.getLast?, s.stop = hi := by
  induction ss generalizing lo with
  | nil => simp
  | cons s ss ih =>
    obtain ⟨-, -, -, -, hrest⟩ := h
    cases ss with
    | nil =>
      rintro s' hs'
      obtain rfl : s = s' := by simpa using hs'
      exact hrest
    | cons s' ss =>
      rw [List.getLast?_cons_cons]
      exact ih hrest

theorem Tile.isChain (h : Tile t lo hi ss) : ss.IsChain fun s s' => s.stop = s'.start := by
  induction ss generalizing lo with
  | nil => exact .nil
  | cons s ss ih =>
    obtain ⟨-, -, -, -, hrest⟩ := h
    exact List.isChain_cons.2 ⟨fun s' hs' => (hrest.head_start s' hs').symm, ih hrest⟩

theorem Tile.eq_nil_iff (h : Tile t 0 (Text.size t) ss) : ss = [] ↔ t = [] := by
  constructor
  · rintro rfl
    exact Text.eq_nil_of_size_eq_zero (Eq.symm h)
  · rintro rfl
    refine List.eq_nil_iff_forall_not_mem.2 fun s hs => ?_
    obtain ⟨hlt, -, hstop⟩ := h.forall s hs
    exact absurd (Text.le_size_of_isBoundary hstop) (by simp only [Text.size]; omega)

end Span

namespace MultilineRule

variable {r : MultilineRule} {t : Text} {pos : Nat}

/-- A construct ends where it begins if there is an empty closing match: nothing stands before it
that could escape it. -/
theorem findClose_eq_self_iff (hpos : pos < Text.size t) :
    r.findClose t pos = some pos ↔ r.closer.find t pos = some (.between pos pos) := by
  unfold findClose
  rw [closeFrom, if_pos hpos]
  cases hm : r.closer.find t pos with
  | none => simp
  | some m =>
    dsimp only
    rw [Option.some_inj]
    obtain ⟨k, hk, rfl⟩ := Option.map_eq_some_iff.1 hm
    have hcuts := r.closer.cuts_of_findGroup 0 hpos.le hk
    rw [Interval.eq_between_self_iff]
    split_ifs with hescaped
    · refine iff_of_false (fun hstop => ?_) fun hspan => ?_
      · have := (closeFrom_spec hstop).1
        omega
      · have hpos' : t.isBoundary pos := hspan.1 ▸ hcuts.boundary.1
        unfold isEscaped at hescaped
        rw [hspan.1, Text.drop_take_self hpos'] at hescaped
        split at hescaped <;> cases hescaped
    · rw [Option.some_inj]
      have hlo := hcuts.lo_le
      have hle := k.span.lo_le_hi
      exact ⟨fun hhi => ⟨by omega, hhi⟩, And.right⟩

end MultilineRule

namespace Grammar

variable {t : Text}

/-- What lies ahead of an offset tells what lies ahead of a later one. -/
theorem advance_outlook (g : Grammar) {pos stop : Nat} (hpos : t.isBoundary pos)
    (hstop : t.isBoundary stop) (hle : pos ≤ stop) :
    (g.outlook t pos).advance t stop = g.outlook t stop := by
  unfold Outlook.advance outlook
  rw [List.map_map, List.map_map]
  congr 1
  · refine List.map_congr_left fun r _ => congrArg (Prod.mk r) ?_
    exact r.opener.findNext_findGroup 0 hpos hstop hle
  · refine List.map_congr_left fun r _ => congrArg (Prod.mk r) ?_
    exact r.pattern.findNext_findGroup r.group hpos hstop hle

/-- The spans of a line, if there is an answer, are not empty, go from its start to its end without
a gap or an overlap, and begin and end on character boundaries. -/
theorem highlightLine_covers {g : Grammar} {state state' : LineState} {ss : List Span}
    (h : g.highlightLine t state = some (ss, state')) :
    (∀ s ∈ ss, s.start < s.stop ∧ t.isBoundary s.start ∧ t.isBoundary s.stop) ∧
      (∀ s ∈ ss.head?, s.start = 0) ∧ (ss.IsChain fun s s' => s.stop = s'.start) ∧
      (∀ s ∈ ss.getLast?, s.stop = Text.size t) ∧ (ss = [] ↔ t = []) := by
  have htile := tile_of_highlightLine h
  exact ⟨htile.forall, htile.head_start, htile.isChain, htile.getLast_stop, htile.eq_nil_iff⟩

def quoted : MultilineRule where
  name := "quoted"
  opener := (Pattern.one (.single '%')).automaton
  closer := (Pattern.one (.single '%')).automaton
  kind := .string
  id := 2
  escape := some '!'

theorem highlightLine_covers_quoted :
    let ss : List Span :=
      [⟨0, 2, .plain⟩, ⟨2, 8, .string⟩, ⟨8, 9, .plain⟩, ⟨9, 10, .constant⟩]
    (ofRules "custom" [.multiline quoted, .pattern letterB]).highlightLine "é%b!%b% b".toList {} =
      some (ss, {}) ∧ (∀ s ∈ ss.head?, s.start = 0) ∧
        (ss.IsChain fun s s' => s.stop = s'.start) ∧ ∀ s ∈ ss.getLast?, s.stop = 10 := by
  intro ss
  have h : (ofRules "custom" [.multiline quoted, .pattern letterB]).highlightLine
      "é%b!%b% b".toList {} = some (ss, {}) := by decide +kernel
  obtain ⟨-, hhead, hchain, hlast, -⟩ := highlightLine_covers h
  exact ⟨h, hhead, hchain, hlast⟩

/-- Where the search goes on after a turn that starts at an offset, if it does go on. -/
def turn (g : Grammar) (t : Text) (pos : Nat) : Option Nat :=
  if pos < Text.size t then
    match (g.outlook t pos).next? with
    | none => none
    | some (_, .multiline rule opened) => rule.findClose t opened
    | some (_, .pattern _ stop) => some stop
  else none

def entry (g : Grammar) (t : Text) (state : LineState) : Option Nat :=
  match g.multiline? state with
  | none => some 0
  | some rule => rule.findClose t 0

/-- Where the search of a line stands after so many turns, if it has not ended. -/
def standing (g : Grammar) (t : Text) (state : LineState) (n : Nat) : Option Nat :=
  (·.bind (g.turn t))^[n] (g.entry t state)

/-- At an offset the first multi-line rule to open a construct opens and closes it with empty
matches. -/
def Stalls (g : Grammar) (t : Text) (pos : Nat) : Prop :=
  pos < Text.size t ∧ ∃ front r back, g.multilines = front ++ r :: back ∧
    r.opener.find t pos = some (.between pos pos) ∧
    r.closer.find t pos = some (.between pos pos) ∧
    ∀ r' ∈ front, ∀ i ∈ r'.opener.find t pos, pos < i.lo

/-- There is an answer from an offset on if no turn goes on, or the turn gets further and there is
one from there. -/
theorem isSome_spansFrom (g : Grammar) {pos : Nat} (hpos : t.isBoundary pos) :
    (g.spansFrom t pos).isSome =
      match g.turn t pos with
      | none => true
      | some next => pos < next && (g.spansFrom t next).isSome := by
  have hcuts := g.cuts_outlook (Text.le_size_of_isBoundary hpos)
  unfold turn spansFrom
  rw [Outlook.spans]
  split_ifs with hlt
  · rcases hnext : (g.outlook t pos).next? with _ | ⟨start, ⟨rule, opened⟩ | ⟨rule, stop⟩⟩
    · rfl
    · obtain ⟨hle, hopened, -⟩ := hcuts.multiline hnext
      dsimp only
      cases hclose : rule.findClose t opened with
      | none => rfl
      | some stop =>
        obtain ⟨hstop, hb⟩ := MultilineRule.closeFrom_spec hclose
        dsimp only
        rw [g.advance_outlook hpos hb (hle.trans (hopened.trans hstop))]
        split_ifs with hprogress <;> simp [hprogress]
    · obtain ⟨hle, hstop, -, hb⟩ := hcuts.pattern hnext
      dsimp only
      rw [g.advance_outlook hpos hb (hle.trans hstop.le)]
      split_ifs with hprogress <;> simp [hprogress]
  · rfl

/-- A turn after which the search goes on has come to the end of a construct. -/
theorem turn_cases {g : Grammar} {pos next : Nat} (h : g.turn t pos = some next) :
    pos < Text.size t ∧ t.isBoundary next ∧
      ((∃ start rule opened, (g.outlook t pos).next? = some (start, .multiline rule opened) ∧
        pos ≤ start ∧ start ≤ opened ∧ opened ≤ next ∧ rule.findClose t opened = some next) ∨
      ∃ start rule, (g.outlook t pos).next? = some (start, .pattern rule next) ∧
        pos ≤ start ∧ start < next) := by
  unfold turn at h
  split_ifs at h with hlt
  have hcuts := g.cuts_outlook hlt.le
  rcases hnext : (g.outlook t pos).next? with _ | ⟨start, ⟨rule, opened⟩ | ⟨rule, stop⟩⟩
  · rw [hnext] at h
    cases h
  · rw [hnext] at h
    obtain ⟨hle, hopened, -⟩ := hcuts.multiline hnext
    obtain ⟨hstop, hb⟩ := MultilineRule.closeFrom_spec h
    exact ⟨hlt, hb, .inl ⟨start, rule, opened, rfl, hle, hopened, hstop, h⟩⟩
  · rw [hnext] at h
    obtain rfl := Option.some.inj h
    obtain ⟨hle, hstop, -, hb⟩ := hcuts.pattern hnext
    exact ⟨hlt, hb, .inr ⟨start, rule, rfl, hle, hstop⟩⟩

theorem le_turn {g : Grammar} {pos next : Nat} (h : g.turn t pos = some next) : pos ≤ next := by
  obtain ⟨-, -, ⟨_, _, _, -, hle, hopened, hstop, -⟩ | ⟨_, _, -, hle, hstop⟩⟩ := turn_cases h
  · exact hle.trans (hopened.trans hstop)
  · exact hle.trans hstop.le

theorem isSome_spansFrom_iff (g : Grammar) {pos : Nat} (hpos : t.isBoundary pos) :
    (g.spansFrom t pos).isSome ↔ ∃ n, (·.bind (g.turn t))^[n] (some pos) = none := by
  induction hk : Text.size t - pos using Nat.strong_induction_on generalizing pos with
  | _ k ih =>
    rw [g.isSome_spansFrom hpos]
    cases hturn : g.turn t pos with
    | none => exact iff_of_true rfl ⟨1, hturn⟩
    | some next =>
      obtain ⟨-, hb, -⟩ := turn_cases hturn
      have hsize := Text.le_size_of_isBoundary hb
      dsimp only
      rw [Bool.and_eq_true, decide_eq_true_iff]
      rcases (le_turn hturn).lt_or_eq with hlt | rfl
      · rw [and_iff_right hlt, ih _ (by omega) hb rfl]
        constructor
        · rintro ⟨n, hn⟩
          refine ⟨n + 1, ?_⟩
          rw [Function.iterate_succ_apply, Option.bind_some, hturn]
          exact hn
        · rintro ⟨_ | n, hn⟩
          · cases hn
          · rw [Function.iterate_succ_apply, Option.bind_some, hturn] at hn
            exact ⟨n, hn⟩
      · -- the turn is repeated without end
        have hfixed : ∀ n, (·.bind (g.turn t))^[n] (some pos) = some pos :=
          Function.iterate_fixed hturn
        simp [hfixed]

theorem Rule.le_first {r : Rule} {pos : Nat} (hpos : pos < Text.size t) {c : Nat × Candidate}
    (h : r.first t pos = some c) : pos ≤ c.1 := by
  rw [Rule.first_eq r hpos] at h
  obtain ⟨m, hm, hc⟩ := Option.bind_eq_some_iff.1 h
  have hcuts := Automaton.cuts_of_findGroup _ _ hpos.le hm
  exact hcuts.lo_le.trans (construct?_bounds hcuts hc).1

/-- A multi-line construct comes next if it is opened before those of the rules in front are, and
not behind any other. -/
theorem next?_multiline_iff (g : Grammar) {pos start opened : Nat} (hpos : pos < Text.size t)
    {r : MultilineRule} : (g.outlook t pos).next? = some (start, .multiline r opened) ↔
      (∃ front back, g.multilines = front ++ r :: back ∧
        (Rule.multiline r).first t pos = some (start, .multiline r opened) ∧
        (∀ r' ∈ front, ∀ c ∈ (Rule.multiline r').first t pos, start < c.1) ∧
        ∀ r' ∈ back, ∀ c ∈ (Rule.multiline r').first t pos, start ≤ c.1) ∧
      ∀ r' ∈ g.patterns, ∀ c ∈ (Rule.pattern r').first t pos, start ≤ c.1 := by
  rw [g.next?_outlook hpos, ← Foremost.iff_earliest_eq, rules, List.filterMap_append,
    Foremost.append_iff, List.filterMap_map, List.filterMap_map, List.filterMap_eq_flatMap_toList,
    Foremost.flatMap_iff]
  have hlist : ∀ rs : List MultilineRule, ∀ P : Nat × Candidate → Prop,
      (∀ c ∈ rs.flatMap fun r => ((Rule.multiline r).first t pos).toList, P c) ↔
        ∀ r ∈ rs, ∀ c ∈ (Rule.multiline r).first t pos, P c := fun rs P => by
    simp only [List.forall_mem_flatMap, Option.mem_toList, Option.mem_def]
  constructor
  · rintro (⟨⟨front, x, back, hrules, hx, hfront, hback⟩, hpatterns⟩ | ⟨hpattern, -⟩)
    · have hfirst : (Rule.multiline x).first t pos = some (start, .multiline r opened) := by
        simpa using hx.mem
      obtain ⟨i, -, hi⟩ := Option.map_eq_some_iff.1 hfirst
      cases hi
      exact ⟨⟨front, back, hrules, hfirst, (hlist _ _).1 hfront, (hlist _ _).1 hback⟩,
        fun r' hr' c hc => hpatterns c (List.mem_filterMap.2 ⟨r', hr', hc⟩)⟩
    · obtain ⟨r', -, hr'⟩ := List.mem_filterMap.1 hpattern.mem
      obtain ⟨i, -, hi⟩ := Option.bind_eq_some_iff.1 hr'
      split_ifs at hi
      cases hi
  · rintro ⟨⟨front, back, hrules, hfirst, hfront, hback⟩, hpatterns⟩
    refine .inl ⟨⟨front, r, back, hrules, ?_, (hlist _ _).2 hfront, (hlist _ _).2 hback⟩, ?_⟩
    · change Foremost ((Rule.multiline r).first t pos).toList _
      rw [hfirst]
      exact .entry [] (List.forall_mem_nil _) (List.forall_mem_nil _)
    · intro c hc
      obtain ⟨r', hr', hc⟩ := List.mem_filterMap.1 hc
      exact hpatterns r' hr' c hc

/-- The search stays where it is exactly where it stalls. -/
theorem turn_eq_self_iff (g : Grammar) {pos : Nat} : g.turn t pos = some pos ↔ g.Stalls t pos := by
  have hopen : pos < Text.size t → ∀ r : MultilineRule, (Rule.multiline r).first t pos =
      some (pos, .multiline r pos) ↔ r.opener.find t pos = some (.between pos pos) := by
    intro hlt r
    rw [Rule.first_multiline r hlt]
    cases r.opener.find t pos with
    | none => simp
    | some i => simp [Interval.eq_between_self_iff]
  constructor
  · intro h
    obtain ⟨hlt, -, hcases⟩ := turn_cases h
    rcases hcases with ⟨start, r, opened, hnext, hle, hopened, hstop, hclose⟩ |
      ⟨start, r, -, hle, hstop⟩
    · obtain rfl : start = pos := by omega
      obtain rfl : opened = start := by omega
      obtain ⟨⟨front, back, hrules, hfirst, hfront, -⟩, -⟩ := (g.next?_multiline_iff hlt).1 hnext
      refine ⟨hlt, front, r, back, hrules, (hopen hlt r).1 hfirst,
        (MultilineRule.findClose_eq_self_iff hlt).1 hclose, fun r' hr' i hi => ?_⟩
      refine hfront r' hr' (i.lo, .multiline r' i.hi) ?_
      rw [Rule.first_multiline r' hlt, Option.mem_def.1 hi]
      rfl
    · omega
  · rintro ⟨hlt, front, r, back, hrules, hopener, hcloser, hfront⟩
    have hnext : (g.outlook t pos).next? = some (pos, .multiline r pos) := by
      refine (g.next?_multiline_iff hlt).2 ⟨⟨front, back, hrules, (hopen hlt r).2 hopener,
        fun r' hr' c hc => ?_, fun r' _ c hc => Rule.le_first hlt hc⟩,
        fun r' _ c hc => Rule.le_first hlt hc⟩
      rw [Rule.first_multiline r' hlt] at hc
      obtain ⟨i, hi, rfl⟩ := Option.map_eq_some_iff.1 hc
      exact hfront r' hr' i hi
    unfold turn
    rw [if_pos hlt, hnext]
    exact (MultilineRule.findClose_eq_self_iff hlt).2 hcloser

theorem isSome_highlightLine_iff (g : Grammar) (t : Text) (state : LineState) :
    (g.highlightLine t state).isSome ↔ ∀ pos ∈ g.entry t state, (g.spansFrom t pos).isSome := by
  unfold highlightLine entry
  cases hrule : g.multiline? state with
  | none => simp
  | some rule =>
    dsimp only
    cases rule.findClose t 0 with
    | none => simp
    | some stop => simp

theorem standing_succ (g : Grammar) (t : Text) (state : LineState) (n : Nat) :
    g.standing t state (n + 1) = (g.standing t state n).bind (g.turn t) :=
  Function.iterate_succ_apply' _ _ _

theorem isBoundary_standing {g : Grammar} {state : LineState} {n pos : Nat}
    (h : g.standing t state n = some pos) : t.isBoundary pos := by
  cases n with
  | zero =>
    unfold standing entry at h
    rw [Function.iterate_zero_apply] at h
    split at h
    · exact Option.some.inj h ▸ t.isBoundary_zero
    · exact (MultilineRule.closeFrom_spec h).2
  | succ n =>
    rw [standing_succ] at h
    obtain ⟨p, -, hp⟩ := Option.bind_eq_some_iff.1 h
    exact (turn_cases hp).2.1

theorem standing_eq_none_mono {g : Grammar} {state : LineState} {m n : Nat} (hle : m ≤ n)
    (h : g.standing t state m = none) : g.standing t state n = none := by
  induction n, hle using Nat.le_induction with
  | base => exact h
  | succ n _ ih => rw [standing_succ, ih, Option.bind_none]

theorem Stalls.standing {g : Grammar} {state : LineState} {m n pos : Nat} (hs : g.Stalls t pos)
    (hle : m ≤ n) (h : g.standing t state m = some pos) : g.standing t state n = some pos := by
  induction n, hle using Nat.le_induction with
  | base => exact h
  | succ n _ ih => rw [standing_succ, ih, Option.bind_some, g.turn_eq_self_iff.2 hs]

/-- A search that does not stall gets further with each turn. -/
theorem le_of_standing {g : Grammar} {state : LineState}
    (hs : ∀ n, ∀ pos ∈ g.standing t state n, ¬ g.Stalls t pos) {n pos : Nat}
    (h : g.standing t state n = some pos) : n ≤ pos := by
  induction n generalizing pos with
  | zero => exact Nat.zero_le pos
  | succ n ih =>
    rw [standing_succ] at h
    obtain ⟨p, hp, hturn⟩ := Option.bind_eq_some_iff.1 h
    have hle := ih hp
    rcases (le_turn hturn).lt_or_eq with hlt | rfl
    · omega
    · exact absurd (g.turn_eq_self_iff.1 hturn) (hs n p hp)

/-- The search of a line gives an answer if it ends, and it ends if it never comes to an offset at
which it stalls. After a turn it goes on further ahead, unless it stalls, and then where it was. -/
theorem highlightLine_ends_iff (g : Grammar) (t : Text) (state : LineState) :
    ((g.highlightLine t state).isSome ↔ ∃ n, g.standing t state n = none) ∧
      ((∃ n, g.standing t state n = none) ↔
        ∀ n, ∀ pos ∈ g.standing t state n, ¬ g.Stalls t pos) ∧
      ∀ n, ∀ pos ∈ g.standing t state n, ∀ next ∈ g.standing t state (n + 1),
        pos ≤ next ∧ next ≤ Text.size t ∧ (next = pos ↔ g.Stalls t pos) := by
  refine ⟨?_, ⟨?_, fun hs => ⟨Text.size t + 1, ?_⟩⟩, fun n pos hpos next hnext => ?_⟩
  · rw [isSome_highlightLine_iff]
    cases hentry : g.entry t state with
    | none => exact iff_of_true (by simp) ⟨0, hentry⟩
    | some pos =>
      have hpos : t.isBoundary pos := isBoundary_standing (n := 0) hentry
      unfold standing
      rw [hentry, ← g.isSome_spansFrom_iff hpos]
      simp
  · rintro ⟨m, hm⟩ n pos hpos hs
    have hstay := hs.standing (le_max_left n m) hpos
    rw [standing_eq_none_mono (le_max_right n m) hm] at hstay
    cases hstay
  · cases hlast : g.standing t state (Text.size t + 1) with
    | none => rfl
    | some pos =>
      have := le_of_standing hs hlast
      have := Text.le_size_of_isBoundary (isBoundary_standing hlast)
      omega
  · rw [standing_succ, Option.mem_def.1 hpos, Option.bind_some] at hnext
    obtain ⟨-, hb, -⟩ := turn_cases hnext
    refine ⟨le_turn hnext, Text.le_size_of_isBoundary hb, ?_⟩
    rw [← turn_eq_self_iff, Option.mem_def.1 hnext, Option.some_inj]

def idle : MultilineRule where
  name := "idle"
  opener := (Pattern.repeated (.one (.single 'a')) 0 none true).automaton
  closer := (Pattern.repeated (.one (.single 'b')) 0 none true).automaton
  kind := .comment
  id := 1

/-- With this rule alone the search never leaves the start of a line. -/
theorem standing_idle :
    (MultilineSource.plain "idle" "a*" "b*" .comment 1).compile = .ok idle ∧
      (∀ n, (ofRules "custom" [.multiline idle]).standing "x".toList {} n = some 0) ∧
      (ofRules "custom" [.multiline idle]).highlightLine "x".toList {} = none := by
  have hstalls : (ofRules "custom" [.multiline idle]).Stalls "x".toList 0 :=
    ⟨by decide, [], idle, [], rfl, by decide +kernel, by decide +kernel, List.forall_mem_nil _⟩
  exact ⟨by with_unfolding_all rfl, fun n => hstalls.standing n.zero_le rfl, by decide +kernel⟩

end Grammar

end FencedCode
