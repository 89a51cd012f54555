import FencedCode.Proofs.CharSets
import FencedCode.Proofs.Resumption

namespace FencedCode

namespace Automaton

variable {a : Automaton} {wanted : Nat} {rest : Text}

/-- From a state the text ahead of a place is matched up to `rest`. -/
inductive Matches (a : Automaton) (rest : Text) : Option Char → Text → Nat → Prop
  | accept {prev : Option Char} {q : Nat} (hs : a[q]? = some .accept) : Matches a rest prev rest q
  | onward {prev : Option Char} {t : Text} {q q' : Nat} {s : AutomatonState} (hs : a[q]? = some s)
    (hq : q' ∈ s.onward prev t.head?) (h : Matches a rest prev t q') : Matches a rest prev t q
  | past {prev : Option Char} {c : Char} {t : Text} {q q' : Nat} {s : AutomatonState}
    (hs : a[q]? = some s) (hq : s.past c = some q') (h : Matches a rest (some c) t q') :
    Matches a rest prev (c :: t) q

theorem Matches.live {prev : Option Char} {t : Text} {q : Nat} (h : Matches a rest prev t q) :
    Live a prev t q := by
  induction h with
  | accept hs => exact .accept hs
  | onward hs hq _ ih => exact .onward hs hq ih
  | past hs hq _ ih => exact .past hs hq ih

theorem Matches.eq_of_accept {prev : Option Char} {t : Text} {q : Nat}
    (h : Matches a rest prev t q) (hq : a[q]? = some .accept) : t = rest := by
  cases h with
  | accept => rfl
  | onward hs hnext =>
    obtain rfl := Option.some.inj (hs.symm.trans hq)
    simp [AutomatonState.onward] at hnext
  | past hs hnext =>
    obtain rfl := Option.some.inj (hs.symm.trans hq)
    simp [AutomatonState.past] at hnext

/-- What a way matches from a place on, with `x` before it and `t` ahead, is matched from the start
of the way with what it has consumed. -/
def Traces (a : Automaton) (x t : Text) (w : Way) : Prop :=
  ∃ u v, x = u ++ v ∧ w.start = Text.size u ∧
    ∀ rest, Matches a rest x.getLast? t w.state → Matches a rest u.getLast? (v ++ t) 0

theorem traces_fresh (a : Automaton) (x t : Text) : Traces a x t (.fresh (Text.size x)) :=
  ⟨x, [], (List.append_nil x).symm, rfl, fun _ h => h⟩

/-- A match with the text around it: the automaton matches the piece between its ends. -/
def Found (a : Automaton) (t : Text) (m : Match) : Prop :=
  ∃ u v z, t = u ++ v ++ z ∧ m.span = .between (Text.size u) (Text.size (u ++ v)) ∧
    Matches a z u.getLast? (v ++ z) 0

namespace Traces

variable {x t : Text} {w : Way}

theorem step (h : Traces a x t w) {offset : Nat} {s : AutomatonState} (hs : a[w.state]? = some s)
    {v : Way} (hv : v ∈ (Automaton.step wanted ⟨x.getLast?, t.head?, offset⟩ w s).1) :
    Traces a x t v := by
  obtain ⟨y, z, hx, hstart, hmatch⟩ := h
  have hstate := List.mem_map_of_mem (f := fun w : Way => w.state) hv
  rw [step_fst_states] at hstate
  refine ⟨y, z, hx, ?_, fun rest hrest => ?_⟩
  · rw [(start_of_step wanted _ w s).1 v hv, hstart]
  · exact hmatch rest (.onward hs hstate hrest)

theorem consume {c : Char} (h : Traces a x (c :: t) w) {offset : Nat} {s : AutomatonState}
    (hs : a[w.state]? = some s) {v : Way}
    (hv : v ∈ (Automaton.step wanted ⟨x.getLast?, some c, offset⟩ w s).2) :
    Traces a (x ++ [c]) t v := by
  obtain ⟨y, z, hx, hstart, hmatch⟩ := h
  have hstate := congrArg (·.map (·.state)) (Option.mem_def.1 hv)
  rw [step_snd_state] at hstate
  refine ⟨y, z ++ [c], by rw [hx, List.append_assoc], ?_, fun rest hrest => ?_⟩
  · rw [(start_of_step wanted _ w s).2 v hv, hstart]
  · rw [List.getLast?_concat] at hrest
    rw [List.append_assoc]
    exact hmatch rest (.past hs hstate hrest)

theorem found (h : Traces a x t w) (hs : a[w.state]? = some .accept) :
    Found a (x ++ t) ⟨.between w.start (Text.size x), w.group⟩ := by
  obtain ⟨u, v, rfl, hstart, hmatch⟩ := h
  exact ⟨u, v, t, rfl, by rw [hstart], hmatch t (.accept hs)⟩

end Traces

theorem Spreads.accept_state {here : Place} {ws : List Way} {entered : Set Nat} {o : Outcome}
    (h : Spreads a wanted here ws entered o) : ∀ w ∈ o.accepted, a[w.state]? = some .accept := by
  induction h with
  | done => simp
  | seen _ _ ih | lost _ _ _ ih | step _ _ _ _ ih => exact ih
  | accept _ hs => simpa using hs

theorem Spreads.traces {x t : Text} {offset : Nat} {ws : List Way} {entered : Set Nat} {o : Outcome}
    (h : Spreads a wanted ⟨x.getLast?, t.head?, offset⟩ ws entered o)
    (hws : ∀ w ∈ ws, Traces a x t w) :
    (∀ w ∈ o.accepted, Traces a x t w) ∧
      ∀ c t', t = c :: t' → ∀ w ∈ o.ways, Traces a (x ++ [c]) t' w := by
  induction h with
  | done => exact ⟨by simp, by simp⟩
  | seen _ _ ih | lost _ _ _ ih => exact ih (List.forall_mem_cons.1 hws).2
  | accept => exact ⟨by simpa using (List.forall_mem_cons.1 hws).1, by simp⟩
  | @step w ws entered o s _ hs _ _ ih =>
    obtain ⟨hw, hws⟩ := List.forall_mem_cons.1 hws
    obtain ⟨haccepted, hways⟩ := ih
      (List.forall_mem_append.2 ⟨fun v hv => hw.step hs hv, hws⟩)
    refine ⟨haccepted, ?_⟩
    rintro c t' rfl
    refine List.forall_mem_append.2 ⟨fun v hv => ?_, hways c t' rfl⟩
    exact hw.consume hs (Option.mem_toList.1 hv)

namespace Follows

variable {ways : List Way} {best m : Option Match} {x t : Text}

/-- At one place: what is best from there on has been found. -/
theorem found_best {offset : Nat} (hoffset : offset = Text.size x) {o : Outcome}
    (ho : Spreads a wanted ⟨x.getLast?, t.head?, offset⟩ (joined ways best offset) ∅ o)
    (hways : ∀ w ∈ ways, Traces a x t w) (hbest : ∀ k ∈ best, Found a (x ++ t) k) :
    (∀ k ∈ o.best best offset, Found a (x ++ t) k) ∧
      ∀ c t', t = c :: t' → ∀ w ∈ o.ways, Traces a (x ++ [c]) t' w := by
  subst hoffset
  have hjoined : ∀ w ∈ joined ways best (Text.size x), Traces a x t w := by
    unfold joined
    split_ifs
    · exact List.forall_mem_append.2 ⟨hways, by simpa using traces_fresh a x t⟩
    · exact hways
  obtain ⟨haccepted, hnext⟩ := ho.traces hjoined
  refine ⟨?_, hnext⟩
  unfold Outcome.best
  split
  · rename_i w hw
    intro k hk
    obtain rfl := Option.some.inj hk
    exact (haccepted w hw).found (ho.accept_state w hw)
  · exact hbest

theorem found (h : Follows a wanted ways best x.getLast? (Text.size x) t m)
    (hways : ∀ w ∈ ways, Traces a x t w) (hbest : ∀ k ∈ best, Found a (x ++ t) k) :
    ∀ k ∈ m, Found a (x ++ t) k := by
  induction t generalizing x ways best with
  | nil =>
    cases h with
    | done ho => exact (found_best (t := []) rfl ho hways hbest).1
  | cons c t ih =>
    cases h with
    | next ho h =>
      obtain ⟨hbest', hnext⟩ := found_best (t := c :: t) rfl ho hways hbest
      have hsize : Text.size x + c.utf8Size = Text.size (x ++ [c]) := by simp [Text.size]
      rw [hsize, ← List.getLast?_concat (l := x)] at h
      rw [List.append_cons] at hbest' ⊢
      exact ih h (hnext c t rfl) hbest'

end Follows

theorem found_of_findGroup {t : Text} {pos : Nat} (hpos : t.isBoundary pos) {m : Match}
    (hm : a.findGroup wanted t pos = some m) : Found a t m := by
  obtain ⟨x, y, rfl, rfl⟩ := Text.isBoundary_iff.1 hpos
  exact (a.follows_findGroup wanted x y).found (List.forall_mem_nil _) (by simp) m hm

/-- A search from a place where a match can be completed finds one that starts there. -/
theorem exists_findGroup_of_live {x y : Text} (h : Live a x.getLast? y 0) :
    ∃ m, a.findGroup wanted (x ++ y) (Text.size x) = some m ∧ m.span.lo ≤ Text.size x := by
  suffices ∃ k, a.findGroup wanted (x ++ y) (Text.size x) = some k ∧
      k.span.lo < Text.size x + 1 by
    obtain ⟨k, hk, hlt⟩ := this
    exact ⟨k, hk, Nat.lt_succ_iff.1 hlt⟩
  have hfollows := follows_findGroup a wanted x y
  have hfresh : ∀ w ∈ joined [] none (Text.size x), w.start < Text.size x + 1 := by
    simp [joined, Way.fresh]
  have hlive : Way.fresh (Text.size x) ∈ joined [] none (Text.size x) := by simp [joined]
  generalize a.findGroup wanted (x ++ y) (Text.size x) = m at hfollows
  cases hfollows with
  | @done _ _ _ _ o ho =>
    cases hw : o.accepted with
    | some w => exact Outcome.best_lo hw ((ho.starts hfresh).2 w hw) none (Text.size x)
    | none =>
      obtain ⟨v, -, hv⟩ := ho.exists_live (t := []) hw hlive h
      exact hv.elim
  | @next _ _ _ _ o c t _ ho hnext =>
    obtain ⟨hways, haccepted⟩ := ho.starts hfresh
    cases hw : o.accepted with
    | some w =>
      exact hnext.lo_lt_of_best hways (Outcome.best_lo hw (haccepted w hw) none (Text.size x))
    | none =>
      rw [← List.append_nil o.ways] at hnext
      exact hnext.lo_lt_of_live hways (ho.exists_live (t := c :: t) hw hlive h)

/-- A search finds no match behind a place from which one can be completed. -/
theorem le_of_live (wanted : Nat) {x y z : Text} (h : Live a (x ++ y).getLast? z 0) :
    ∃ m, a.findGroup wanted (x ++ y ++ z) (Text.size x) = some m ∧
      m.span.lo ≤ Text.size (x ++ y) := by
  rcases a.findGroup_cases wanted x y z with ⟨k, hk, hlt⟩ | hsame
  · exact ⟨k, hk, hlt.le⟩
  · rw [hsame]
    exact exists_findGroup_of_live h

/-- Wherever the character `d` stands it is matched, and nothing else is. -/
def Spells (a : Automaton) (d : Char) : Prop :=
  ∀ (prev : Option Char) (t rest : Text), Matches a rest prev t 0 ↔ t = d :: rest

namespace Spells

variable {d : Char}

theorem found_iff (h : a.Spells d) {t : Text} {m : Match} (hm : Found a t m) :
    ∃ u z, t = u ++ d :: z ∧ m.span = .between (Text.size u) (Text.size (u ++ [d])) := by
  obtain ⟨u, v, z, rfl, hspan, hmatch⟩ := hm
  have hv : v ++ z = [d] ++ z := (h _ _ _).1 hmatch
  obtain rfl := List.append_cancel_right hv
  exact ⟨u, z, by simp, hspan⟩

theorem find_of_notMem (h : a.Spells d) {t x y : Text} (ht : t = x ++ y) (hd : d ∉ y) :
    a.find t (Text.size x) = none := by
  subst ht
  unfold find
  rw [Option.map_eq_none_iff, Option.eq_none_iff_forall_ne_some]
  intro m hm
  have hlo := (a.cuts_of_findGroup 0 (by simp) hm).lo_le
  obtain ⟨u, z, ht, hspan⟩ := h.found_iff (found_of_findGroup (x.isBoundary_append y) hm)
  have hle : Text.size x ≤ Text.size u := by simpa [hspan] using hlo
  obtain ⟨w, -, rfl⟩ := Text.append_eq_append_of_size_le ht hle
  exact hd (by simp)

theorem find_of_mem (h : a.Spells d) {t x y z : Text} (ht : t = x ++ y ++ d :: z) (hd : d ∉ y) :
    ∃ i, a.find t (Text.size x) = some i ∧ i.lo = Text.size (x ++ y) ∧
      i.hi = Text.size (x ++ y ++ [d]) := by
  subst ht
  have hlive : Live a (x ++ y).getLast? (d :: z) 0 := ((h _ _ z).2 rfl).live
  obtain ⟨m, hm, hle⟩ := le_of_live 0 hlive
  have hpos : Text.isBoundary (x ++ y ++ d :: z) (Text.size x) :=
    Text.isBoundary_iff.2 ⟨x, y ++ d :: z, (List.append_assoc _ _ _), rfl⟩
  have hlo := (a.cuts_of_findGroup 0 (Text.le_size_of_isBoundary hpos) hm).lo_le
  obtain ⟨u, z', ht, hspan⟩ := h.found_iff (found_of_findGroup hpos hm)
  simp only [hspan, Interval.between_lo, Text.size_append] at hlo hle
  obtain ⟨s, hu, hs⟩ := Text.append_eq_append_of_size_le ht.symm
    (show Text.size u ≤ Text.size (x ++ y) by simp only [Text.size_append]; omega)
  cases s with
  | nil =>
    rw [List.append_nil] at hu
    refine ⟨m.span, by rw [find, hm, Option.map_some], ?_, ?_⟩
    · simp [hspan, hu]
    · simp [hspan, hu]
  | cons c s =>
    -- an earlier place would lie in `y`
    obtain ⟨rfl, -⟩ := List.cons.inj hs
    obtain ⟨w, -, rfl⟩ := Text.append_eq_append_of_size_le hu (by omega)
    exact absurd (by simp) hd

end Spells

theorem spells_single (d : Char) : (Pattern.one (.single d)).automaton.Spells d := by
  intro prev t rest
  have hstart : (Pattern.one (.single d)).automaton[0]? = some (.take (.single d) 1) := rfl
  have hend : (Pattern.one (.single d)).automaton[1]? = some .accept := rfl
  constructor
  · intro h
    cases h with
    | accept hs => cases hstart.symm.trans hs
    | onward hs hq =>
      obtain rfl := Option.some.inj (hstart.symm.trans hs)
      simp [AutomatonState.onward] at hq
    | past hs hq h =>
      obtain rfl := Option.some.inj (hstart.symm.trans hs)
      obtain ⟨hc, rfl⟩ : (CharSet.single d).contains _ = true ∧ 1 = _ := by
        simpa [AutomatonState.past] using hq
      rw [(CharSet.contains_single d _).1 hc, h.eq_of_accept hend]
  · rintro rfl
    have hd := (CharSet.contains_single d d).2 rfl
    exact .past hstart (by simp [AutomatonState.past, hd]) (.accept hend)

end Automaton

end FencedCode
