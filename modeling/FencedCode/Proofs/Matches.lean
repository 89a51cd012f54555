import FencedCode.Pattern.Search
import FencedCode.Proofs.Interval
import FencedCode.Proofs.Text

namespace FencedCode

namespace Text

theorem isBoundary_iff {t : Text} {n : Nat} :
    t.isBoundary n ↔ ∃ x y, t = x ++ y ∧ size x = n := by
  constructor
  · intro h
    exact ⟨take t n, drop t n, (take_append_drop t n).symm, beq_iff_eq.1 h⟩
  · rintro ⟨x, y, rfl, rfl⟩
    exact beq_iff_eq.2 (floor_append_size x y)

theorem isBoundary_append (x y : Text) : (x ++ y).isBoundary (size x) :=
  isBoundary_iff.2 ⟨x, y, rfl, rfl⟩

theorem isBoundary_zero (t : Text) : t.isBoundary 0 := isBoundary_iff.2 ⟨[], t, rfl, rfl⟩

theorem isBoundary_size (t : Text) : t.isBoundary (size t) :=
  isBoundary_iff.2 ⟨t, [], by simp, rfl⟩

theorem le_size_of_isBoundary {t : Text} {n : Nat} (h : t.isBoundary n) : n ≤ size t := by
  obtain ⟨x, y, rfl, rfl⟩ := isBoundary_iff.1 h
  rw [size_append]
  exact Nat.le_add_right _ _

theorem le_size_cover {t : Text} {n : Nat} (h : n ≤ size t) : n ≤ size (cover t n) := by
  induction t generalizing n with
  | nil => exact h
  | cons c cs ih =>
    unfold cover
    split_ifs with h0
    · exact h0.le
    · have := ih (n := n - c.utf8Size) (by simp only [size] at h; omega)
      simp only [size]
      omega

end Text

namespace Automaton

variable {a : Automaton} {wanted : Nat}

/-- What every step keeps holds of the ways that consume a character, and of the one that is
complete. -/
theorem spread_forall {here : Place} {P Q : Way → Prop}
    (hstep : ∀ w s, P w → a[w.state]? = some s →
      (∀ v ∈ (step wanted here w s).1, P v) ∧ ∀ v ∈ (step wanted here w s).2, Q v)
    (steps : Nat) {ws taken : List Way} (marks : Array Nat) (hws : ∀ w ∈ ws, P w)
    (htaken : ∀ w ∈ taken, Q w) :
    (∀ w ∈ (a.spread wanted here steps ws marks taken).ways, Q w) ∧
      ∀ w ∈ (a.spread wanted here steps ws marks taken).accepted,
        P w ∧ a[w.state]? = some .accept := by
  have hend : ∀ w ∈ taken.reverse, Q w := fun w hw => htaken w (List.mem_reverse.1 hw)
  induction steps generalizing ws marks taken with
  | zero => exact ⟨hend, by simp [spread]⟩
  | succ steps ih =>
    cases ws with
    | nil => exact ⟨hend, by simp [spread]⟩
    | cons w ws =>
      obtain ⟨hw, hws⟩ := List.forall_mem_cons.1 hws
      unfold spread
      split_ifs with hseen
      · exact ih marks hws htaken hend
      · split
        · exact ih marks hws htaken hend
        · rename_i haccept
          refine ⟨hend, fun v hv => ?_⟩
          obtain rfl := Option.some.inj hv
          exact ⟨hw, haccept⟩
        · rename_i s hs
          obtain ⟨hon, hnext⟩ := hstep w _ hw hs
          split
          · rename_i on heq
            rw [heq] at hon
            exact ih _ (List.forall_mem_append.2 ⟨hon, hws⟩) htaken hend
          · rename_i on v heq
            rw [heq] at hon hnext
            have hcons := List.forall_mem_cons.2 ⟨hnext v rfl, htaken⟩
            exact ih _ (List.forall_mem_append.2 ⟨hon, hws⟩) hcons
              fun u hu => hcons u (List.mem_reverse.1 hu)

/-- Some way is complete at the end of a match, where `P` holds of it, and knows of its start and
its group. -/
def Completes (a : Automaton) (t : Text) (P : Nat → Way → Prop) (m : Match) : Prop :=
  ∃ pos w, t.isBoundary pos ∧ P pos w ∧ a[w.state]? = some .accept ∧
    m = ⟨.between w.start pos, w.group⟩

section

variable {t : Text} {lo : Nat} {P : Nat → Way → Prop}
  (hfresh : ∀ pos, lo ≤ pos → t.isBoundary pos → P pos (.fresh pos))
  (hstep : ∀ here w s, t.isBoundary here.offset → P here.offset w → a[w.state]? = some s →
    (∀ v ∈ (step wanted here w s).1, P here.offset v) ∧
      ∀ v ∈ (step wanted here w s).2, ∀ pos, here.offset < pos → P pos v)

include hfresh hstep

/-- At one place, where a fresh way may be added: the ways that consume the next character, and the
match that is best from there on. -/
theorem completes_of_spread (here : Place) (hlo : lo ≤ here.offset)
    (hpos : t.isBoundary here.offset) {ways : List Way} (hways : ∀ w ∈ ways, P here.offset w)
    {best : Option Match} (hbest : ∀ m ∈ best, a.Completes t P m) (steps : Nat)
    (marks : Array Nat) :
    let ways := if best.isNone then ways ++ [.fresh here.offset] else ways
    let p := a.spread wanted here steps ways marks []
    let best : Option Match := match p.accepted with
      | some w => some ⟨.between w.start here.offset, w.group⟩
      | none => best
    (∀ w ∈ p.ways, ∀ pos, here.offset < pos → P pos w) ∧ ∀ m ∈ best, a.Completes t P m := by
  intro ways p best'
  have hways : ∀ w ∈ ways, P here.offset w := by
    unfold ways
    split_ifs
    · exact List.forall_mem_append.2 ⟨hways, by simpa using hfresh _ hlo hpos⟩
    · exact hways
  obtain ⟨hnext, haccepted⟩ := spread_forall (hstep here · · hpos) steps marks hways
    (List.forall_mem_nil _)
  refine ⟨hnext, fun m hm => ?_⟩
  unfold best' at hm
  split at hm
  · rename_i w hw
    obtain rfl := Option.some.inj hm
    exact ⟨_, w, hpos, (haccepted w hw).1, (haccepted w hw).2, rfl⟩
  · exact hbest m hm

/-- Of a way that completes a match holds what holds of a fresh one and is kept by every step. -/
theorem completes_of_follow {x y : Text} (ht : t = x ++ y) (hlo : lo ≤ Text.size x)
    {ways : List Way} (hways : ∀ w ∈ ways, P (Text.size x) w) (marks : Array Nat)
    {best : Option Match} (hbest : ∀ m ∈ best, a.Completes t P m) (prev : Option Char) :
    ∀ m ∈ a.follow wanted ways marks best prev (Text.size x) y, a.Completes t P m := by
  induction y generalizing x ways marks best prev with
  | nil =>
    have hpos : t.isBoundary (Text.size x) := ht ▸ Text.isBoundary_append x []
    unfold follow
    exact (completes_of_spread hfresh hstep ⟨prev, none, Text.size x⟩ hlo hpos hways hbest _
      marks).2
  | cons c cs ih =>
    have hpos : t.isBoundary (Text.size x) := ht ▸ Text.isBoundary_append x (c :: cs)
    unfold follow
    extract_lets ways' p best'
    obtain ⟨hnext, hbest'⟩ := completes_of_spread hfresh hstep ⟨prev, some c, Text.size x⟩ hlo hpos
      hways hbest (ways'.length + 2 * Array.size a) marks
    change ∀ m ∈ best', a.Completes t P m at hbest'
    dsimp only
    split_ifs
    · exact hbest'
    · have hsize : Text.size x + c.utf8Size = Text.size (x ++ [c]) := by simp [Text.size]
      have hc := c.utf8Size_pos
      rw [hsize]
      refine ih (by simp [ht]) (by omega) (fun w hw => hnext w hw _ ?_) p.marks hbest' (some c)
      simp only
      omega

theorem completes_of_findGroup {start : Nat} (hlo : lo ≤ Text.size (Text.cover t start)) :
    ∀ m ∈ a.findGroup wanted t start, a.Completes t P m :=
  completes_of_follow hfresh hstep (Text.cover_append_uncover t start).symm hlo (by simp) _
    (by simp) _

end

end Automaton

/-- The group of a way or match lies between two offsets, on character boundaries. -/
def Interval.Cuts (t : Text) (lo hi : Nat) (i : Interval) : Prop :=
  (lo ≤ i.lo ∧ i.hi ≤ hi) ∧ t.isBoundary i.lo ∧ t.isBoundary i.hi

/-- What a way knows lies between `lo` and `pos`, on character boundaries. -/
structure Way.Cuts (t : Text) (lo pos : Nat) (w : Way) : Prop where
  start_le : lo ≤ w.start ∧ w.start ≤ w.entered ∧ w.entered ≤ pos
  boundary : t.isBoundary w.start ∧ t.isBoundary w.entered
  group : ∀ i ∈ w.group, i.Cuts t w.start pos

structure Match.Cuts (t : Text) (lo : Nat) (m : Match) : Prop where
  lo_le : lo ≤ m.span.lo
  boundary : t.isBoundary m.span.lo ∧ t.isBoundary m.span.hi
  group : ∀ i ∈ m.group, i.Cuts t m.span.lo m.span.hi

namespace Way.Cuts

variable {t : Text} {lo pos : Nat} {w : Way}

theorem fresh (hlo : lo ≤ pos) (hpos : t.isBoundary pos) : (Way.fresh pos).Cuts t lo pos :=
  ⟨⟨hlo, le_rfl, le_rfl⟩, ⟨hpos, hpos⟩, by simp [Way.fresh]⟩

theorem mono (h : w.Cuts t lo pos) {pos' : Nat} (hle : pos ≤ pos') : w.Cuts t lo pos' :=
  ⟨⟨h.start_le.1, h.start_le.2.1, h.start_le.2.2.trans hle⟩, h.boundary,
    fun i hi => ⟨⟨(h.group i hi).1.1, (h.group i hi).1.2.trans hle⟩, (h.group i hi).2⟩⟩

theorem goTo (h : w.Cuts t lo pos) (state : Nat) : { w with state }.Cuts t lo pos :=
  ⟨h.start_le, h.boundary, h.group⟩

theorem enter (h : w.Cuts t lo pos) (hpos : t.isBoundary pos) :
    { w with entered := pos }.Cuts t lo pos :=
  ⟨⟨h.start_le.1, h.start_le.2.1.trans h.start_le.2.2, le_rfl⟩, ⟨h.boundary.1, hpos⟩, h.group⟩

theorem leave (h : w.Cuts t lo pos) (hpos : t.isBoundary pos) :
    { w with group := some (.between w.entered pos) }.Cuts t lo pos := by
  refine ⟨h.start_le, h.boundary, fun i hi => ?_⟩
  obtain rfl := Option.some.inj hi
  obtain ⟨-, hentered, hle⟩ := h.start_le
  simp only [Interval.Cuts, Interval.between_lo, Interval.between_hi, min_eq_left hle,
    max_eq_right hle]
  exact ⟨⟨hentered, le_rfl⟩, h.boundary.2, hpos⟩

theorem step {here : Place} (h : w.Cuts t lo here.offset) (hpos : t.isBoundary here.offset)
    (wanted : Nat) (s : AutomatonState) :
    (∀ v ∈ (Automaton.step wanted here w s).1, v.Cuts t lo here.offset) ∧
      ∀ v ∈ (Automaton.step wanted here w s).2, v.Cuts t lo here.offset := by
  cases s with
  | take set next =>
    refine ⟨by simp [Automaton.step], fun v hv => ?_⟩
    simp only [Automaton.step, Option.mem_def, Option.ite_none_right_eq_some,
      Option.some.injEq] at hv
    exact hv.2 ▸ h.goTo next
  | check c next =>
    refine ⟨fun v hv => ?_, by simp [Automaton.step]⟩
    unfold Automaton.step at hv
    dsimp only at hv
    split_ifs at hv
    · exact List.mem_singleton.1 hv ▸ h.goTo next
    · simp at hv
  | fork first second =>
    refine ⟨?_, by simp [Automaton.step]⟩
    simp only [Automaton.step, List.forall_mem_cons]
    exact ⟨h.goTo first, h.goTo second, List.forall_mem_nil _⟩
  | enter group next =>
    refine ⟨?_, by simp [Automaton.step]⟩
    simp only [Automaton.step, List.forall_mem_singleton]
    split_ifs
    · exact (h.goTo next).enter hpos
    · exact h.goTo next
  | leave group next =>
    refine ⟨?_, by simp [Automaton.step]⟩
    simp only [Automaton.step, List.forall_mem_singleton]
    split_ifs
    · exact (h.goTo next).leave hpos
    · exact h.goTo next
  | pass next =>
    refine ⟨?_, by simp [Automaton.step]⟩
    simpa only [Automaton.step, List.forall_mem_singleton] using h.goTo next
  | accept => exact ⟨by simp [Automaton.step], by simp [Automaton.step]⟩

end Way.Cuts

namespace Automaton

theorem cuts_of_findGroup (a : Automaton) (wanted : Nat) {t : Text} {start : Nat}
    (h : start ≤ Text.size t) {m : Match} (hm : a.findGroup wanted t start = some m) :
    m.Cuts t start := by
  obtain ⟨pos, w, hpos, hw, -, rfl⟩ := completes_of_findGroup (P := fun pos w => w.Cuts t start pos)
    (fun pos hlo hpos => .fresh hlo hpos)
    (fun here w s hpos hw _ => ⟨(hw.step hpos wanted s).1,
      fun v hv pos hlt => ((hw.step hpos wanted s).2 v hv).mono hlt.le⟩)
    (Text.le_size_cover h) m hm
  obtain ⟨hlo, hentered, hle⟩ := hw.start_le
  have hspan : w.start ≤ pos := hentered.trans hle
  constructor
  · simpa [min_eq_left hspan] using hlo
  · simpa [min_eq_left hspan, max_eq_right hspan] using ⟨hw.boundary.1, hpos⟩
  · simpa [min_eq_left hspan, max_eq_right hspan] using hw.group

theorem cuts_of_findNext (a : Automaton) (wanted : Nat) {t : Text} {start lo : Nat}
    (h : start ≤ Text.size t) {known : Option Match} (hknown : ∀ m ∈ known, m.Cuts t lo)
    {m : Match} (hm : a.findNext wanted t start known = some m) : m.Cuts t start := by
  obtain ⟨k, hk, hm⟩ := Option.bind_eq_some_iff.1 hm
  split_ifs at hm with hle
  · obtain rfl := Option.some.inj hm
    exact ⟨hle, (hknown k hk).boundary, (hknown k hk).group⟩
  · exact a.cuts_of_findGroup wanted h hm

/-- From a state no way is complete before it has consumed a character, as can be seen within so
many steps. -/
def consumesFrom (a : Automaton) : Nat → Nat → Bool
  | 0, _ => false
  | steps + 1, state =>
    match a[state]? with
    | none => true
    | some (.take _ _) => true
    | some (.check _ next) => consumesFrom a steps next
    | some (.fork first second) => consumesFrom a steps first && consumesFrom a steps second
    | some (.enter _ next) => consumesFrom a steps next
    | some (.leave _ next) => consumesFrom a steps next
    | some (.pass next) => consumesFrom a steps next
    | some .accept => false

/-- No match is empty: a way has consumed something before it is complete. -/
def Consumes (a : Automaton) : Prop := ∃ steps, a.consumesFrom steps 0

/-- Where a state needs a character, so does every state it leads to without one. -/
theorem consumesFrom_of_step {a : Automaton} {w : Way} {s : AutomatonState}
    (hs : a[w.state]? = some s) {steps : Nat} (h : a.consumesFrom steps w.state)
    (wanted : Nat) (here : Place) :
    ∀ v ∈ (step wanted here w s).1, ∃ steps, a.consumesFrom steps v.state := by
  obtain _ | steps := steps
  · simp [consumesFrom] at h
  unfold consumesFrom at h
  rw [hs] at h
  cases s with
  | take set next => simp [step]
  | check c next =>
    simp only [step]
    split_ifs
    · simpa using ⟨steps, h⟩
    · simp
  | fork first second =>
    rw [Bool.and_eq_true] at h
    simpa [step] using ⟨⟨steps, h.1⟩, ⟨steps, h.2⟩⟩
  | enter group next =>
    simp only [step, List.forall_mem_singleton]
    split_ifs
    · exact ⟨steps, h⟩
    · exact ⟨steps, h⟩
  | leave group next =>
    simp only [step, List.forall_mem_singleton]
    split_ifs
    · exact ⟨steps, h⟩
    · exact ⟨steps, h⟩
  | pass next => simpa [step] using ⟨steps, h⟩
  | accept => simp [step]

theorem start_of_step (wanted : Nat) (here : Place) (w : Way) (s : AutomatonState) :
    (∀ v ∈ (step wanted here w s).1, v.start = w.start) ∧
      ∀ v ∈ (step wanted here w s).2, v.start = w.start := by
  cases s <;> simp only [step] <;> grind

/-- The way that completes a match has left its start, as long as it stands there it needs a
character. -/
theorem lo_lt_hi_of_findGroup {a : Automaton} (ha : a.Consumes) {wanted : Nat} {t : Text}
    {start : Nat} {m : Match} (hm : a.findGroup wanted t start = some m) :
    m.span.lo < m.span.hi := by
  let P : Nat → Way → Prop := fun pos w =>
    w.start ≤ pos ∧ (w.start = pos → ∃ steps, a.consumesFrom steps w.state)
  have hstep : ∀ here w s, t.isBoundary here.offset → P here.offset w → a[w.state]? = some s →
      (∀ v ∈ (step wanted here w s).1, P here.offset v) ∧
        ∀ v ∈ (step wanted here w s).2, ∀ pos, here.offset < pos → P pos v := by
    rintro here w s - ⟨hle, hw⟩ hs
    obtain ⟨hstart, hstart'⟩ := start_of_step wanted here w s
    refine ⟨fun v hv => ⟨by rw [hstart v hv]; exact hle, fun heq => ?_⟩,
      fun v hv pos hpos => ?_⟩
    · rw [hstart v hv] at heq
      obtain ⟨steps, h⟩ := hw heq
      exact consumesFrom_of_step hs h wanted here v hv
    · have := hstart' v hv
      exact ⟨by omega, by omega⟩
  have hfresh : ∀ pos, 0 ≤ pos → t.isBoundary pos → P pos (.fresh pos) :=
    fun pos _ _ => ⟨le_rfl, fun _ => ha⟩
  obtain ⟨pos, w, -, ⟨hle, hw⟩, haccept, rfl⟩ :=
    completes_of_findGroup hfresh hstep (Nat.zero_le _) m hm
  simp only [Interval.between_lo, Interval.between_hi, min_eq_left hle, max_eq_right hle]
  refine lt_of_le_of_ne hle fun heq => ?_
  obtain ⟨_ | steps, h⟩ := hw heq
  · simp [consumesFrom] at h
  · simp [consumesFrom, haccept] at h

end Automaton

end FencedCode
