import FencedCode.Proofs.Matches
import Mathlib.Data.Set.Insert

namespace FencedCode

namespace AutomatonState

def onward (prev next : Option Char) : AutomatonState → List Nat
  | take _ _ => []
  | check a n => if a.holds prev next then [n] else []
  | fork first second => [first, second]
  | enter _ n => [n]
  | leave _ n => [n]
  | pass n => [n]
  | accept => []

def past (c : Char) : AutomatonState → Option Nat
  | take set n => if set.contains c then some n else none
  | _ => none

end AutomatonState

namespace Automaton

variable {a : Automaton} {wanted : Nat}

theorem step_fst_states (wanted : Nat) (here : Place) (w : Way) (s : AutomatonState) :
    (step wanted here w s).1.map (·.state) = s.onward here.prev here.next := by
  cases s with
  | take | fork | pass | accept => rfl
  | check | enter | leave =>
    simp only [step, AutomatonState.onward]
    split_ifs <;> rfl

theorem step_snd_state (wanted : Nat) (here : Place) (w : Way) (s : AutomatonState) :
    (step wanted here w s).2.map (·.state) = here.next.bind s.past := by
  cases s <;> cases h : here.next <;> simp [step, AutomatonState.past, h]

theorem length_step_fst_le (wanted : Nat) (here : Place) (w : Way) (s : AutomatonState) :
    (step wanted here w s).1.length ≤ 2 := by
  have h := congrArg List.length (step_fst_states wanted here w s)
  rw [List.length_map] at h
  rw [h]
  cases s <;> simp only [AutomatonState.onward] <;> (try split_ifs) <;> simp

/-- From a state a match can be completed in what lies ahead of a place. -/
inductive Live (a : Automaton) : Option Char → Text → Nat → Prop
  | accept {prev : Option Char} {t : Text} {q : Nat} (hs : a[q]? = some .accept) : Live a prev t q
  | onward {prev : Option Char} {t : Text} {q q' : Nat} {s : AutomatonState} (hs : a[q]? = some s)
    (hq : q' ∈ s.onward prev t.head?) (h : Live a prev t q') : Live a prev t q
  | past {prev : Option Char} {c : Char} {t : Text} {q q' : Nat} {s : AutomatonState}
    (hs : a[q]? = some s) (hq : s.past c = some q') (h : Live a (some c) t q') :
    Live a prev (c :: t) q

def LiveNext (a : Automaton) : Text → Nat → Prop
  | [], _ => False
  | c :: t, q => Live a (some c) t q

/-- What became of ways at a place, with the states entered there. -/
structure Outcome where
  entered : Set Nat
  ways : List Way
  accepted : Option Way

/-- Ways are followed at a place where some states have been entered before. -/
inductive Spreads (a : Automaton) (wanted : Nat) (here : Place) :
    List Way → Set Nat → Outcome → Prop
  | done (entered : Set Nat) : Spreads a wanted here [] entered ⟨entered, [], none⟩
  | seen {w : Way} {ws : List Way} {entered : Set Nat} {o : Outcome} (h : w.state ∈ entered)
    (ho : Spreads a wanted here ws entered o) : Spreads a wanted here (w :: ws) entered o
  | lost {w : Way} {ws : List Way} {entered : Set Nat} {o : Outcome} (h : w.state ∉ entered)
    (hs : a[w.state]? = none) (ho : Spreads a wanted here ws entered o) :
    Spreads a wanted here (w :: ws) entered o
  | accept {w : Way} {ws : List Way} {entered : Set Nat} (h : w.state ∉ entered)
    (hs : a[w.state]? = some .accept) :
    Spreads a wanted here (w :: ws) entered ⟨entered, [], some w⟩
  | step {w : Way} {ws : List Way} {entered : Set Nat} {o : Outcome} {s : AutomatonState}
    (h : w.state ∉ entered) (hs : a[w.state]? = some s) (hne : s ≠ .accept)
    (ho : Spreads a wanted here ((step wanted here w s).1 ++ ws) (insert w.state entered) o) :
    Spreads a wanted here (w :: ws) entered
      { o with ways := (Automaton.step wanted here w s).2.toList ++ o.ways }

def marked (marks : Array Nat) (offset : Nat) : Set Nat := {q | marks[q]? = some (offset + 1)}

def unmarked (marks : Array Nat) (offset : Nat) : Nat := marks.countP (· != offset + 1)

theorem marked_set {marks : Array Nat} {offset q : Nat} (hq : q < marks.size) :
    marked (marks.setIfInBounds q (offset + 1)) offset = insert q (marked marks offset) := by
  ext r
  simp only [marked, Set.mem_ofPred_eq, Set.mem_insert_iff, Array.getElem?_setIfInBounds]
  split_ifs with h
  · simp [h]
  · simp [Ne.symm h]

theorem unmarked_set {marks : Array Nat} {offset q : Nat} (hq : q < marks.size)
    (h : marks[q]? ≠ some (offset + 1)) :
    unmarked (marks.setIfInBounds q (offset + 1)) offset + 1 = unmarked marks offset := by
  have hlt : q < marks.toList.length := by simpa using hq
  have hget : marks.toList[q] ≠ offset + 1 := by
    rw [Array.getElem?_eq_getElem hq] at h
    simpa using h
  have hpos : 0 < marks.toList.countP (· != offset + 1) :=
    List.countP_pos_iff.2 ⟨_, List.getElem_mem hlt, by simpa using hget⟩
  unfold unmarked
  rw [← Array.countP_toList, ← Array.countP_toList, Array.toList_setIfInBounds,
    List.countP_set hlt]
  simp only [bne_self_eq_false, Bool.false_eq_true, if_false]
  rw [if_pos (by simpa using hget)]
  omega

theorem unmarked_le (marks : Array Nat) (offset : Nat) : unmarked marks offset ≤ marks.size :=
  Array.countP_le_size

theorem spreads_spread {here : Place} {steps : Nat} {ws : List Way} {marks : Array Nat}
    (taken : List Way) (hsize : marks.size = Array.size a)
    (hsteps : ws.length + 2 * unmarked marks here.offset ≤ steps) :
    ∃ o, Spreads a wanted here ws (marked marks here.offset) o ∧
      (a.spread wanted here steps ws marks taken).accepted = o.accepted ∧
      (a.spread wanted here steps ws marks taken).ways = taken.reverse ++ o.ways := by
  induction steps generalizing ws marks taken with
  | zero =>
    obtain rfl : ws = [] := List.eq_nil_of_length_eq_zero (by omega)
    exact ⟨_, .done _, rfl, (List.append_nil _).symm⟩
  | succ steps ih =>
    cases ws with
    | nil => exact ⟨_, .done _, rfl, (List.append_nil _).symm⟩
    | cons w ws =>
      rw [List.length_cons] at hsteps
      unfold spread
      split_ifs with hseen
      · have hsteps' : ws.length + 2 * unmarked marks here.offset ≤ steps := by omega
        obtain ⟨o, ho, h⟩ := ih taken hsize hsteps'
        exact ⟨o, .seen hseen ho, h⟩
      · split
        · rename_i hs
          have hsteps' : ws.length + 2 * unmarked marks here.offset ≤ steps := by omega
          obtain ⟨o, ho, h⟩ := ih taken hsize hsteps'
          exact ⟨o, .lost hseen hs ho, h⟩
        · rename_i hs
          exact ⟨_, .accept hseen hs, rfl, (List.append_nil _).symm⟩
        · rename_i s hne hs
          have hq : w.state < marks.size := hsize ▸ (Array.getElem?_eq_some_iff.1 hs).1
          have hunmarked := unmarked_set hq hseen
          have hlen := length_step_fst_le wanted here w s
          have hsteps' : ((step wanted here w s).1 ++ ws).length +
              2 * unmarked (marks.setIfInBounds w.state (here.offset + 1)) here.offset ≤ steps := by
            rw [List.length_append]
            omega
          have hsize' : (marks.setIfInBounds w.state (here.offset + 1)).size = Array.size a := by
            rw [Array.size_setIfInBounds, hsize]
          split
          · rename_i on heq
            rw [heq] at hsteps'
            obtain ⟨o, ho, haccepted, hways⟩ := ih taken hsize' hsteps'
            rw [marked_set hq] at ho
            refine ⟨_, .step hseen hs hne (by rwa [heq]), haccepted, ?_⟩
            rw [hways, heq]
            rfl
          · rename_i on v heq
            rw [heq] at hsteps'
            obtain ⟨o, ho, haccepted, hways⟩ := ih (v :: taken) hsize' hsteps'
            rw [marked_set hq] at ho
            refine ⟨_, .step hseen hs hne (by rwa [heq]), haccepted, ?_⟩
            rw [hways, heq, List.reverse_cons, List.append_assoc]
            rfl

namespace Spreads

variable {here : Place} {us ws : List Way} {entered : Set Nat} {o : Outcome}

theorem append (h : Spreads a wanted here (us ++ ws) entered o) :
    ∃ o₁, Spreads a wanted here us entered o₁ ∧
      ((o₁.accepted ≠ none ∧ o = o₁) ∨ (o₁.accepted = none ∧
        ∃ o₂, Spreads a wanted here ws o₁.entered o₂ ∧
          o = { o₂ with ways := o₁.ways ++ o₂.ways })) := by
  have hnil : ∀ {entered : Set Nat} {o : Outcome}, Spreads a wanted here ws entered o →
      ∃ o₁, Spreads a wanted here [] entered o₁ ∧
        ((o₁.accepted ≠ none ∧ o = o₁) ∨ (o₁.accepted = none ∧
          ∃ o₂, Spreads a wanted here ws o₁.entered o₂ ∧
            o = { o₂ with ways := o₁.ways ++ o₂.ways })) :=
    fun {entered o} h => ⟨_, .done entered, .inr ⟨rfl, o, h, rfl⟩⟩
  generalize hvs : us ++ ws = vs at h
  induction h generalizing us with
  | done entered =>
    obtain ⟨rfl, rfl⟩ := List.append_eq_nil_iff.1 hvs
    exact hnil (.done entered)
  | @seen w vs entered o hin ho ih =>
    rcases List.append_eq_cons_iff.1 hvs with ⟨rfl, rfl⟩ | ⟨us, rfl, rfl⟩
    · exact hnil (.seen hin ho)
    · obtain ⟨o₁, ho₁, h⟩ := ih rfl
      exact ⟨o₁, .seen hin ho₁, h⟩
  | @lost w vs entered o hout hs ho ih =>
    rcases List.append_eq_cons_iff.1 hvs with ⟨rfl, rfl⟩ | ⟨us, rfl, rfl⟩
    · exact hnil (.lost hout hs ho)
    · obtain ⟨o₁, ho₁, h⟩ := ih rfl
      exact ⟨o₁, .lost hout hs ho₁, h⟩
  | @accept w vs entered hout hs =>
    rcases List.append_eq_cons_iff.1 hvs with ⟨rfl, rfl⟩ | ⟨us, rfl, rfl⟩
    · exact hnil (.accept hout hs)
    · exact ⟨_, .accept hout hs, .inl ⟨Option.some_ne_none w, rfl⟩⟩
  | @step w vs entered o s hout hs hne ho ih =>
    rcases List.append_eq_cons_iff.1 hvs with ⟨rfl, rfl⟩ | ⟨us, rfl, rfl⟩
    · exact hnil (.step hout hs hne ho)
    · obtain ⟨o₁, ho₁, h⟩ := ih (List.append_assoc _ _ _)
      refine ⟨_, .step hout hs hne ho₁, ?_⟩
      rcases h with ⟨hsome, rfl⟩ | ⟨hnone, o₂, ho₂, rfl⟩
      · exact .inl ⟨hsome, rfl⟩
      · exact .inr ⟨hnone, o₂, ho₂, by simp⟩

end Spreads

variable {prev : Option Char} {offset : Nat} {t : Text}

theorem Live.isSome {q : Nat} (h : Live a prev t q) : (a[q]?).isSome := by
  cases h with
  | accept hs | onward hs | past hs => rw [hs, Option.isSome_some]

theorem Live.of_onward {w v : Way} {s : AutomatonState} (hs : a[w.state]? = some s)
    (hv : v ∈ (step wanted ⟨prev, t.head?, offset⟩ w s).1) (h : Live a prev t v.state) :
    Live a prev t w.state := by
  have hmem := List.mem_map_of_mem (f := fun w : Way => w.state) hv
  rw [step_fst_states] at hmem
  exact .onward hs hmem h

theorem Live.of_past {w v : Way} {s : AutomatonState} (hs : a[w.state]? = some s)
    (hv : v ∈ (step wanted ⟨prev, t.head?, offset⟩ w s).2) (h : LiveNext a t v.state) :
    Live a prev t w.state := by
  have hmem := congrArg (·.map (·.state)) (Option.mem_def.1 hv)
  rw [step_snd_state] at hmem
  cases t with
  | nil => exact h.elim
  | cons c t => exact .past hs hmem h

namespace Spreads

variable {us ws : List Way} {entered : Set Nat} {o : Outcome}

/-- With dead ways none is complete, no live way goes on and no live state is entered. -/
theorem dead (h : Spreads a wanted ⟨prev, t.head?, offset⟩ ws entered o)
    (hdead : ∀ w ∈ ws, ¬ Live a prev t w.state) :
    o.accepted = none ∧ (∀ q, Live a prev t q → (q ∈ o.entered ↔ q ∈ entered)) ∧
      ∀ w ∈ o.ways, ¬ LiveNext a t w.state := by
  induction h with
  | done => exact ⟨rfl, fun _ _ => Iff.rfl, List.forall_mem_nil _⟩
  | seen _ _ ih => exact ih (List.forall_mem_cons.1 hdead).2
  | lost _ _ _ ih => exact ih (List.forall_mem_cons.1 hdead).2
  | accept _ hs => exact absurd (.accept hs) (List.forall_mem_cons.1 hdead).1
  | @step w ws entered o s _ hs _ _ ih =>
    obtain ⟨hw, hws⟩ := List.forall_mem_cons.1 hdead
    obtain ⟨haccepted, hentered, hways⟩ := ih
      (List.forall_mem_append.2 ⟨fun v hv hlive => hw (hlive.of_onward hs hv), hws⟩)
    refine ⟨haccepted, fun q hq => ?_, List.forall_mem_append.2 ⟨fun v hv hlive => ?_, hways⟩⟩
    · rw [hentered q hq, Set.mem_insert_iff, or_iff_right]
      rintro rfl
      exact hw hq
    · exact hw (Live.of_past hs (Option.mem_toList.1 hv) hlive)

open Classical in
theorem peel {w : Way} {rest : List Way}
    (h : Spreads a wanted ⟨prev, t.head?, offset⟩ ws entered o)
    (hw : ws.filter (fun w => Live a prev t w.state) = w :: rest) :
    ∃ ws' entered' o', Spreads a wanted ⟨prev, t.head?, offset⟩ (w :: ws') entered' o' ∧
      ws'.filter (fun w => Live a prev t w.state) = rest ∧
      (∀ q, Live a prev t q → (q ∈ entered' ↔ q ∈ entered)) ∧ o.accepted = o'.accepted ∧
      o.ways.filter (fun w => LiveNext a t w.state) =
        o'.ways.filter fun w => LiveNext a t w.state := by
  obtain ⟨us, ws', rfl, hus, -, hrest⟩ := List.filter_eq_cons_iff.1 hw
  obtain ⟨o₁, ho₁, ho⟩ := h.append
  obtain ⟨haccepted, hentered, hways⟩ := ho₁.dead (by simpa using hus)
  rcases ho with ⟨hsome, -⟩ | ⟨-, o₂, ho₂, rfl⟩
  · exact absurd haccepted hsome
  · have hnone : o₁.ways.filter (fun w => LiveNext a t w.state) = [] := by
      simpa [List.filter_eq_nil_iff] using hways
    exact ⟨ws', o₁.entered, o₂, ho₂, hrest, hentered, rfl, by
      rw [List.filter_append, hnone, List.nil_append]⟩

open Classical in
/-- Of ways that are alike but for dead ones the same is complete, and the same live ones go on. -/
theorem alike {ws₁ ws₂ : List Way} {entered₁ entered₂ : Set Nat} {o₁ o₂ : Outcome}
    (h₁ : Spreads a wanted ⟨prev, t.head?, offset⟩ ws₁ entered₁ o₁)
    (h₂ : Spreads a wanted ⟨prev, t.head?, offset⟩ ws₂ entered₂ o₂)
    (hws : ws₁.filter (fun w => Live a prev t w.state) =
      ws₂.filter fun w => Live a prev t w.state)
    (hentered : ∀ q, Live a prev t q → (q ∈ entered₁ ↔ q ∈ entered₂)) :
    o₁.accepted = o₂.accepted ∧ o₁.ways.filter (fun w => LiveNext a t w.state) =
      o₂.ways.filter fun w => LiveNext a t w.state := by
  induction h₁ generalizing ws₂ entered₂ o₂ with
  | done =>
    have hdead : ∀ w ∈ ws₂, ¬ Live a prev t w.state := by
      simpa [List.filter_eq_nil_iff] using hws.symm
    obtain ⟨haccepted, -, hways⟩ := h₂.dead hdead
    exact ⟨haccepted.symm, (List.filter_eq_nil_iff.2 (by simpa using hways)).symm⟩
  | @seen w ws entered o hin ho ih =>
    by_cases hlive : Live a prev t w.state
    · rw [List.filter_cons_of_pos (by simpa using hlive)] at hws
      obtain ⟨ws', entered', o', h', hrest, he, haccepted, hways⟩ := h₂.peel hws.symm
      rw [haccepted, hways]
      have hin' : w.state ∈ entered' := (he _ hlive).2 ((hentered _ hlive).1 hin)
      cases h' with
      | seen _ ho' => exact ih ho' hrest.symm fun q hq => (hentered q hq).trans (he q hq).symm
      | lost hout | accept hout | step hout => exact absurd hin' hout
    · rw [List.filter_cons_of_neg (by simpa using hlive)] at hws
      exact ih h₂ hws hentered
  | @lost w ws entered o hout hs ho ih =>
    have hdead : ¬ Live a prev t w.state := fun hlive => by
      have := hlive.isSome
      rw [hs] at this
      cases this
    rw [List.filter_cons_of_neg (by simpa using hdead)] at hws
    exact ih h₂ hws hentered
  | @accept w ws entered hout hs =>
    have hlive : Live a prev t w.state := .accept hs
    rw [List.filter_cons_of_pos (by simpa using hlive)] at hws
    obtain ⟨ws', entered', o', h', hrest, he, haccepted, hways⟩ := h₂.peel hws.symm
    rw [haccepted, hways]
    have hout' : w.state ∉ entered' := fun hin => hout ((hentered _ hlive).2 ((he _ hlive).1 hin))
    cases h' with
    | accept => exact ⟨rfl, rfl⟩
    | seen hin => exact absurd hin hout'
    | lost _ hs' => simp [hs] at hs'
    | step _ hs' hne => exact absurd (Option.some.inj (hs'.symm.trans hs)) hne
  | @step w ws entered o s hout hs hne ho ih =>
    by_cases hlive : Live a prev t w.state
    · rw [List.filter_cons_of_pos (by simpa using hlive)] at hws
      obtain ⟨ws', entered', o', h', hrest, he, haccepted, hways⟩ := h₂.peel hws.symm
      rw [haccepted, hways]
      have hout' : w.state ∉ entered' :=
        fun hin => hout ((hentered _ hlive).2 ((he _ hlive).1 hin))
      cases h' with
      | step _ hs' _ ho' =>
        obtain rfl := Option.some.inj (hs'.symm.trans hs)
        have hsame := ih ho' (by rw [List.filter_append, List.filter_append, hrest]) fun q hq => by
          rw [Set.mem_insert_iff, Set.mem_insert_iff, hentered q hq, he q hq]
        exact ⟨hsame.1, by rw [List.filter_append, List.filter_append, hsame.2]⟩
      | seen hin => exact absurd hin hout'
      | lost _ hs' => simp [hs] at hs'
      | accept _ hs' => exact absurd (Option.some.inj (hs.symm.trans hs')) hne
    · rw [List.filter_cons_of_neg (by simpa using hlive)] at hws
      -- a dead way goes on to dead ones only
      have honward : (Automaton.step wanted ⟨prev, t.head?, offset⟩ w s).1.filter
          (fun w => Live a prev t w.state) = [] := by
        simpa [List.filter_eq_nil_iff] using fun v hv hv' => hlive (Live.of_onward hs hv hv')
      have hpast : (Automaton.step wanted ⟨prev, t.head?, offset⟩ w s).2.toList.filter
          (fun w => LiveNext a t w.state) = [] := by
        simpa [List.filter_eq_nil_iff] using fun v hv hv' => hlive (Live.of_past hs hv hv')
      have hsame := ih h₂ (by rw [List.filter_append, honward, List.nil_append, hws])
        fun q hq => by
          rw [Set.mem_insert_iff, ← hentered q hq, or_iff_right]
          rintro rfl
          exact hlive hq
      exact ⟨hsame.1, by rw [List.filter_append, hpast, List.nil_append, hsame.2]⟩

/-- Until a way is complete, all states that ways lead to are entered, and where a character can be
consumed a way goes on. -/
theorem closed {here : Place} (h : Spreads a wanted here ws entered o)
    (haccepted : o.accepted = none) :
    entered ⊆ o.entered ∧
      (∀ w ∈ ws, (a[w.state]?).isSome → w.state ∈ o.entered) ∧
      ∀ q ∈ o.entered, q ∉ entered → ∀ s, a[q]? = some s → s ≠ .accept ∧
        (∀ q' ∈ s.onward here.prev here.next, (a[q']?).isSome → q' ∈ o.entered) ∧
        ∀ q' ∈ here.next.bind s.past, ∃ w ∈ o.ways, w.state = q' := by
  induction h with
  | done entered => exact ⟨subset_rfl, by simp, fun q hq hq' => absurd hq hq'⟩
  | @seen w ws entered o hin ho ih =>
    obtain ⟨hsub, hws, hclosed⟩ := ih haccepted
    exact ⟨hsub, List.forall_mem_cons.2 ⟨fun _ => hsub hin, hws⟩, hclosed⟩
  | @lost w ws entered o hout hs ho ih =>
    obtain ⟨hsub, hws, hclosed⟩ := ih haccepted
    exact ⟨hsub, List.forall_mem_cons.2 ⟨by simp [hs], hws⟩, hclosed⟩
  | accept => simp at haccepted
  | @step w ws entered o s hout hs hne ho ih =>
    obtain ⟨hsub, hws, hclosed⟩ := ih haccepted
    obtain ⟨honward, hws⟩ := List.forall_mem_append.1 hws
    obtain ⟨hin, hsub⟩ := Set.insert_subset_iff.1 hsub
    refine ⟨hsub, List.forall_mem_cons.2 ⟨fun _ => hin, hws⟩, fun q hq hq' s' hs' => ?_⟩
    by_cases hqw : q = w.state
    · subst hqw
      obtain rfl := Option.some.inj (hs'.symm.trans hs)
      refine ⟨hne, fun q' hq' => ?_, fun q' hq' => ?_⟩
      · rw [← step_fst_states wanted here w] at hq'
        obtain ⟨v, hv, rfl⟩ := List.mem_map.1 hq'
        exact honward v hv
      · rw [← step_snd_state wanted here w] at hq'
        obtain ⟨v, hv, rfl⟩ := Option.mem_map.1 hq'
        exact ⟨v, List.mem_append_left _ (Option.mem_toList.2 hv), rfl⟩
    · obtain ⟨h1, h2, h3⟩ := hclosed q hq (by simp [hqw, hq']) s' hs'
      refine ⟨h1, h2, fun q' hq' => ?_⟩
      obtain ⟨v, hv, rfl⟩ := h3 q' hq'
      exact ⟨v, List.mem_append_right _ hv, rfl⟩

theorem exists_live (h : Spreads a wanted ⟨prev, t.head?, offset⟩ ws ∅ o)
    (haccepted : o.accepted = none) {w : Way} (hw : w ∈ ws) (hlive : Live a prev t w.state) :
    ∃ v ∈ o.ways, LiveNext a t v.state := by
  obtain ⟨-, hws, hclosed⟩ := h.closed haccepted
  have hin := hws w hw hlive.isSome
  generalize w.state = q at hlive hin
  clear hw hws
  induction hlive with
  | accept hs => exact absurd rfl (hclosed _ hin (Set.notMem_empty _) _ hs).1
  | onward hs hq hnext ih =>
    exact ih h hclosed ((hclosed _ hin (Set.notMem_empty _) _ hs).2.1 _ hq hnext.isSome)
  | past hs hq hnext _ =>
    obtain ⟨v, hv, rfl⟩ := (hclosed _ hin (Set.notMem_empty _) _ hs).2.2 _ hq
    exact ⟨v, hv, hnext⟩

end Spreads

end Automaton

end FencedCode
