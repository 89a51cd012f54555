import FencedCode.Proofs.Candidates
import FencedCode.Proofs.Sorting

namespace FencedCode

namespace Grammar

variable {ps qs qs' : List PatternRule}

theorem mem_iff_of_filter_eq
    (h : ∀ p : Int, qs.filter (·.priority = p) = qs'.filter (·.priority = p)) (q : PatternRule) :
    q ∈ qs ↔ q ∈ qs' := by
  have hq : q ∈ qs.filter (·.priority = q.priority) ↔
      q ∈ qs'.filter (·.priority = q.priority) := by rw [h]
  simpa using hq

theorem priority_le_head {q r : PatternRule}
    (h : (q :: qs).Pairwise fun r r' => r'.priority ≤ r.priority) (hr : r ∈ q :: qs) :
    r.priority ≤ q.priority := by
  rcases List.mem_cons.1 hr with rfl | hr
  · exact le_rfl
  · exact (List.pairwise_cons.1 h).1 r hr

theorem eq_of_filter_eq (hq : qs.Pairwise fun r r' => r'.priority ≤ r.priority)
    (hq' : qs'.Pairwise fun r r' => r'.priority ≤ r.priority)
    (h : ∀ p : Int, qs.filter (·.priority = p) = qs'.filter (·.priority = p)) : qs = qs' := by
  have hmem := mem_iff_of_filter_eq h
  induction qs generalizing qs' with
  | nil => exact (List.eq_nil_iff_forall_not_mem.2 fun q h => List.not_mem_nil ((hmem q).2 h)).symm
  | cons q qs ih =>
    cases qs' with
    | nil => exact absurd ((hmem q).1 List.mem_cons_self) List.not_mem_nil
    | cons q' qs' =>
      -- each of the two first ones stands in the other list, so they have the same priority
      have hpriority : q'.priority = q.priority :=
        le_antisymm (priority_le_head hq ((hmem q').2 List.mem_cons_self))
          (priority_le_head hq' ((hmem q).1 List.mem_cons_self))
      obtain rfl : q = q' := by
        have hfirst := h q.priority
        simp only [List.filter_cons, hpriority, decide_true, if_true] at hfirst
        exact (List.cons.inj hfirst).1
      have hrest : ∀ p : Int, qs.filter (·.priority = p) = qs'.filter (·.priority = p) := by
        intro p
        have hp := h p
        rw [List.filter_cons, List.filter_cons] at hp
        split_ifs at hp
        · exact (List.cons.inj hp).2
        · exact hp
      rw [ih hq.of_cons hq'.of_cons hrest (mem_iff_of_filter_eq hrest)]

/-- The patterns of a list sorted stably: by falling priority, those of one priority as they are in
the list. -/
structure Ranked (ps qs : List PatternRule) : Prop where
  falling : qs.Pairwise fun r r' => r'.priority ≤ r.priority
  stable : ∀ p : Int, qs.filter (·.priority = p) = ps.filter (·.priority = p)

/-- There is one way to sort stably. -/
theorem Ranked.unique (h : Ranked ps qs) (h' : Ranked ps qs') : qs = qs' :=
  eq_of_filter_eq h.falling h'.falling fun p => (h.stable p).trans (h'.stable p).symm

/-- An order in which to add multi-line rules and patterns: the multi-line rules come as they are
listed, and so do the patterns of each priority. -/
structure OrderOf (ms : List MultilineRule) (ps : List PatternRule) (rs : List Rule) : Prop where
  multilines : rs.filterMap Rule.multiline? = ms
  patterns : ∀ p : Int,
    (rs.filterMap Rule.pattern?).filter (·.priority = p) = ps.filter (·.priority = p)

namespace OrderOf

variable {ms : List MultilineRule} {rs : List Rule}

theorem multilines_eq (h : OrderOf ms ps rs) (id : String) : (ofRules id rs).multilines = ms :=
  (multilines_foldl_addTo _ rs).trans h.multilines

theorem ranked (h : OrderOf ms ps rs) (id : String) : Ranked ps (ofRules id rs).patterns where
  falling := pairwise_foldl_addTo rs .nil
  stable p := (filter_foldl_addTo _ rs p).trans (h.patterns p)

end OrderOf

/-- How a line is highlighted depends on the two lists of rules alone. -/
theorem highlightLine_congr {g g' : Grammar} (hm : g.multilines = g'.multilines)
    (hp : g.patterns = g'.patterns) (t : Text) (state : LineState) :
    g.highlightLine t state = g'.highlightLine t state := by
  have houtlook : ∀ pos, g.outlook t pos = g'.outlook t pos := by
    intro pos
    rw [outlook, outlook, hm, hp]
  have hspans : ∀ pos, g.spansFrom t pos = g'.spansFrom t pos := by
    intro pos
    rw [spansFrom, spansFrom, houtlook]
  rw [highlightLine, highlightLine, multiline?, multiline?, hm]
  simp only [hspans]

/-- Whatever the order in which rules are added, as long as the multi-line ones come as they are
listed, and the patterns of each priority too: the patterns end up as those listed, sorted stably by
falling priority, and each line is highlighted alike in each state. -/
theorem highlightLine_reordered {ms : List MultilineRule} {rs rs' : List Rule}
    (h : OrderOf ms ps rs) (h' : OrderOf ms ps rs') (id id' : String) :
    let g := ofRules id rs
    let g' := ofRules id' rs'
    (∀ qs, Ranked ps qs ↔ qs = g.patterns) ∧ g.patterns = g'.patterns ∧
      ∀ t state, g.highlightLine t state = g'.highlightLine t state := by
  intro g g'
  have hpatterns : g.patterns = g'.patterns := (h.ranked id).unique (h'.ranked id')
  have hmultilines : g.multilines = g'.multilines :=
    (h.multilines_eq id).trans (h'.multilines_eq id').symm
  refine ⟨fun qs => ⟨fun hq => hq.unique (h.ranked id), ?_⟩, hpatterns,
    highlightLine_congr hmultilines hpatterns⟩
  rintro rfl
  exact h.ranked id

def letterA (name : String) (kind : Kind) (priority : Int) : PatternRule where
  name := name
  pattern := (Pattern.one (.single 'a')).automaton
  kind := kind
  priority := priority

def bracketed : MultilineRule where
  name := "bracketed"
  opener := (Pattern.one (.single 'b')).automaton
  closer := (Pattern.one (.single 'c')).automaton
  kind := .comment
  id := 1

/-- Three patterns for one letter, of which two have the higher priority. -/
theorem highlightLine_reordered_letters :
    let low := letterA "low" .constant 0
    let first := letterA "first" .keyword 1
    let second := letterA "second" .number 1
    let rs : List Rule := [.pattern low, .pattern first, .multiline bracketed, .pattern second]
    let rs' : List Rule := [.multiline bracketed, .pattern first, .pattern second, .pattern low]
    OrderOf [bracketed] [low, first, second] rs ∧ OrderOf [bracketed] [low, first, second] rs' ∧
      (ofRules "test" rs).patterns = (ofRules "test" rs').patterns ∧
      (ofRules "test" rs').patterns.map (·.name) = ["first", "second", "low"] ∧
      (ofRules "test" rs).highlightLine "abac".toList {} =
        some ([⟨0, 1, .keyword⟩, ⟨1, 4, .comment⟩], {}) := by
  intro low first second rs rs'
  have hrs : OrderOf [bracketed] [low, first, second] rs := ⟨rfl, fun _ => rfl⟩
  have hrs' : OrderOf [bracketed] [low, first, second] rs' := by
    refine ⟨rfl, fun p => ?_⟩
    change [first, second, low].filter (·.priority = p) = _
    by_cases hp : p = 0
    · subst hp
      rfl
    · simp [low, first, second, letterA, List.filter_cons, Ne.symm hp]
  obtain ⟨-, hpatterns, hlines⟩ := highlightLine_reordered hrs hrs' "test" "test"
  have hsorted : ofRules "test" rs' = ⟨"test", [first, second, low], [bracketed]⟩ := by
    simp only [ofRules, List.foldl_cons, List.foldl_nil, Rule.addTo, rs', addPattern,
      mergeSort_eq_sortWithin]
    with_unfolding_all rfl
  refine ⟨hrs, hrs', hpatterns, by rw [hsorted]; rfl, ?_⟩
  rw [hlines, hsorted]
  decide +kernel

end Grammar

end FencedCode
