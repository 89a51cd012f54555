import FencedCode.Grammar.Source
import FencedCode.Proofs.Sorting
import FencedCode.Proofs.Spans

namespace FencedCode

namespace Grammar

section Foremost

variable {α β : Type}

/-- The entry of a list with the least offset, and of several the first; there is none in an empty
list. -/
inductive Foremost : List (Nat × α) → Option (Nat × α) → Prop
  | empty : Foremost [] none
  | entry (front : List (Nat × α)) {back : List (Nat × α)} {e : Nat × α}
    (hfront : ∀ f ∈ front, e.1 < f.1) (hback : ∀ f ∈ back, e.1 ≤ f.1) :
    Foremost (front ++ e :: back) (some e)

theorem foremost_earliest (es : List (Nat × α)) : Foremost es (earliest es) := by
  induction es with
  | nil => exact .empty
  | cons f es ih =>
    unfold earliest
    split
    · rename_i hnone
      rw [hnone] at ih
      cases ih
      exact .entry [] (List.forall_mem_nil _) (List.forall_mem_nil _)
    · rename_i e hsome
      rw [hsome] at ih
      cases ih with
      | entry front hfront hback =>
        split_ifs with hlt
        · exact .entry (f :: front) (List.forall_mem_cons.2 ⟨hlt, hfront⟩) hback
        · have hle := not_lt.1 hlt
          refine .entry [] (List.forall_mem_nil _) ?_
          rw [List.forall_mem_append, List.forall_mem_cons]
          exact ⟨fun d hd => hle.trans (hfront d hd).le, hle, fun d hd => hle.trans (hback d hd)⟩

namespace Foremost

variable {es es' : List (Nat × α)} {o : Option (Nat × α)} {e : Nat × α}

theorem earliest_eq (h : Foremost es o) : earliest es = o := by
  cases h with
  | empty => rfl
  | entry front hfront hback =>
    induction front with
    | nil =>
      rw [List.nil_append]
      unfold earliest
      split
      · rfl
      · rename_i f hf
        rw [if_neg (not_lt.2 (hback f (mem_of_earliest hf)))]
    | cons f front ih =>
      obtain ⟨hlt, hfront⟩ := List.forall_mem_cons.1 hfront
      rw [List.cons_append]
      unfold earliest
      rw [ih hfront]
      dsimp only
      rw [if_pos hlt]

theorem iff_earliest_eq : Foremost es o ↔ earliest es = o :=
  ⟨earliest_eq, fun h => h ▸ foremost_earliest es⟩

theorem eq_nil (h : Foremost es none) : es = [] := by
  cases h
  rfl

theorem mem (h : Foremost es (some e)) : e ∈ es := mem_of_earliest h.earliest_eq

theorem le (h : Foremost es (some e)) : ∀ f ∈ es, e.1 ≤ f.1 := by
  cases h with
  | entry _ hfront hback =>
    rw [List.forall_mem_append, List.forall_mem_cons]
    exact ⟨fun f hf => (hfront f hf).le, le_rfl, hback⟩

/-- The foremost entry of two lists is that of the first list, or else lies before all of them. -/
theorem append_iff : Foremost (es ++ es') (some e) ↔
    Foremost es (some e) ∧ (∀ f ∈ es', e.1 ≤ f.1) ∨
      Foremost es' (some e) ∧ ∀ f ∈ es, e.1 < f.1 := by
  constructor
  · intro h
    generalize hes : es ++ es' = ds at h
    cases h with
    | entry front hfront hback =>
      rcases List.append_eq_append_iff.1 hes with ⟨ds, rfl, rfl⟩ | ⟨ds, rfl, hds⟩
      · obtain ⟨hes, hds⟩ := List.forall_mem_append.1 hfront
        exact .inr ⟨.entry _ hds hback, hes⟩
      · rcases List.cons_eq_append_iff.1 hds with ⟨rfl, rfl⟩ | ⟨ds, rfl, rfl⟩
        · rw [List.append_nil]
          exact .inr ⟨.entry [] (List.forall_mem_nil _) hback, hfront⟩
        · obtain ⟨hds, hes'⟩ := List.forall_mem_append.1 hback
          exact .inl ⟨.entry _ hfront hds, hes'⟩
  · rintro (⟨h, hes'⟩ | ⟨h, hes⟩)
    · cases h with
      | entry front hfront hback =>
        rw [List.append_assoc, List.cons_append]
        exact .entry _ hfront (List.forall_mem_append.2 ⟨hback, hes'⟩)
    · cases h with
      | entry front hfront hback =>
        rw [← List.append_assoc]
        exact .entry _ (List.forall_mem_append.2 ⟨hes, hfront⟩) hback

/-- The foremost entry of several lists is that of one of them, lies before all that stand in front
of this, and not behind the others. -/
theorem flatMap_iff {f : β → List (Nat × α)} {xs : List β} :
    Foremost (xs.flatMap f) (some e) ↔ ∃ front x back, xs = front ++ x :: back ∧
      Foremost (f x) (some e) ∧ (∀ d ∈ front.flatMap f, e.1 < d.1) ∧
        ∀ d ∈ back.flatMap f, e.1 ≤ d.1 := by
  constructor
  · intro h
    induction xs with
    | nil => cases h.mem
    | cons x xs ih =>
      rw [List.flatMap_cons] at h
      rcases append_iff.1 h with ⟨hx, hxs⟩ | ⟨hxs, hx⟩
      · exact ⟨[], x, xs, rfl, hx, List.forall_mem_nil _, hxs⟩
      · obtain ⟨front, y, back, rfl, hy, hfront, hback⟩ := ih hxs
        exact ⟨x :: front, y, back, rfl, hy, List.forall_mem_append.2 ⟨hx, hfront⟩, hback⟩
  · rintro ⟨front, x, back, rfl, hx, hfront, hback⟩
    rw [List.flatMap_append, List.flatMap_cons]
    exact append_iff.2 (.inr ⟨append_iff.2 (.inl ⟨hx, hback⟩), hfront⟩)

/-- Of lists whose foremost entries are known only these have to be compared. -/
theorem of_filterMap {f : β → List (Nat × α)} (first : β → Option (Nat × α)) {xs : List β}
    (h : Foremost (xs.filterMap first) o) (hfirst : ∀ x ∈ xs, Foremost (f x) (first x)) :
    Foremost (xs.flatMap f) o := by
  -- what stands in a list does not lie before the foremost entry of it
  have hlist : ∀ x ∈ xs, ∀ d ∈ f x, ∃ c ∈ (first x).toList, c.1 ≤ d.1 := by
    intro x hx d hd
    have hx' := hfirst x hx
    cases hfx : first x with
    | none =>
      rw [hfx] at hx'
      rw [hx'.eq_nil] at hd
      cases hd
    | some c =>
      rw [hfx] at hx'
      exact ⟨c, List.mem_singleton_self c, hx'.le d hd⟩
  rw [List.filterMap_eq_flatMap_toList] at h
  cases o with
  | none =>
    have hnil : xs.flatMap f = [] := by
      refine List.eq_nil_iff_forall_not_mem.2 fun d hd => ?_
      obtain ⟨x, hx, hd⟩ := List.mem_flatMap.1 hd
      obtain ⟨c, hc, -⟩ := hlist x hx d hd
      have hmem : c ∈ xs.flatMap fun x => (first x).toList := List.mem_flatMap.2 ⟨x, hx, hc⟩
      rw [h.eq_nil] at hmem
      cases hmem
    rw [hnil]
    exact .empty
  | some e =>
    obtain ⟨front, x, back, rfl, hx, hfront, hback⟩ := flatMap_iff.1 h
    refine flatMap_iff.2 ⟨front, x, back, rfl, ?_, fun d hd => ?_, fun d hd => ?_⟩
    · have hx' : first x = some e := by simpa using hx.mem
      rw [← hx']
      exact hfirst x (by simp)
    · obtain ⟨y, hy, hd⟩ := List.mem_flatMap.1 hd
      obtain ⟨c, hc, hle⟩ := hlist y (by simp [hy]) d hd
      exact (hfront c (List.mem_flatMap.2 ⟨y, hy, hc⟩)).trans_le hle
    · obtain ⟨y, hy, hd⟩ := List.mem_flatMap.1 hd
      obtain ⟨c, hc, hle⟩ := hlist y (by simp [hy]) d hd
      exact (hback c (List.mem_flatMap.2 ⟨y, hy, hc⟩)).trans hle

theorem mem_of_filter {f : β → List (Nat × α)} {p : β → Bool} {xs : List β}
    (he : e ∈ (xs.filter p).flatMap f) : e ∈ xs.flatMap f := by
  obtain ⟨x, hx, he⟩ := List.mem_flatMap.1 he
  exact List.mem_flatMap.2 ⟨x, List.mem_of_mem_filter hx, he⟩

/-- The foremost entry of some of several lists, no two of which share an entry, is that of all if
each entry of the others lies behind it, or beside it but in a list further back. -/
theorem of_filter_iff {f : β → List (Nat × α)} {p : β → Bool} {xs : List β}
    (h : Foremost ((xs.filter p).flatMap f) o) (hf : ∀ x y c, c ∈ f x → c ∈ f y → x = y) :
    Foremost (xs.flatMap f) o ↔ ∀ front x back, xs = front ++ x :: back → p x = false →
      ∀ c ∈ f x, ∃ e ∈ o, e.1 < c.1 ∨ e.1 = c.1 ∧ e ∈ front.flatMap f := by
  constructor
  · rintro hall front x back rfl hx c hc
    rw [List.flatMap_append, List.flatMap_cons] at hall
    cases o with
    | none =>
      have hnil := (List.append_eq_nil_iff.1 hall.eq_nil).2
      rw [(List.append_eq_nil_iff.1 hnil).1] at hc
      cases hc
    | some e =>
      refine ⟨e, rfl, ?_⟩
      rcases append_iff.1 hall with ⟨hfront, hle⟩ | ⟨hrest, -⟩
      · rcases (hle c (List.mem_append_left _ hc)).lt_or_eq with hlt | heq
        · exact .inl hlt
        · exact .inr ⟨heq, hfront.mem⟩
      · rcases append_iff.1 hrest with ⟨hx', -⟩ | ⟨-, hlt⟩
        · -- the entry would be of one of the lists that were left out
          obtain ⟨y, hy, he⟩ := List.mem_flatMap.1 h.mem
          obtain rfl := hf x y e hx'.mem he
          rw [List.mem_filter, hx] at hy
          exact absurd hy.2 Bool.false_ne_true
        · exact .inl (hlt c hc)
  · intro hhidden
    have hall := foremost_earliest (xs.flatMap f)
    cases hfirst : earliest (xs.flatMap f) with
    | none =>
      rw [hfirst] at hall
      cases o with
      | none => exact hall
      | some e =>
        have he := mem_of_filter h.mem
        rw [hall.eq_nil] at he
        cases he
    | some d =>
      rw [hfirst] at hall
      obtain ⟨front, x, back, rfl, hx, hfront, hback⟩ := flatMap_iff.1 hall
      cases hpx : p x with
      | true =>
        have hd : Foremost (((front ++ x :: back).filter p).flatMap f) (some d) := by
          rw [List.filter_append, List.filter_cons_of_pos hpx]
          exact flatMap_iff.2 ⟨_, x, _, rfl, hx, fun c hc => hfront c (mem_of_filter hc),
            fun c hc => hback c (mem_of_filter hc)⟩
        rw [← h.earliest_eq, hd.earliest_eq]
        exact hall
      | false =>
        obtain ⟨e, rfl, hbefore⟩ := hhidden front x back rfl hpx d hx.mem
        have hle := hall.le e (mem_of_filter h.mem)
        rcases hbefore with hlt | ⟨heq, he⟩
        · omega
        · have := hfront e he
          omega

end Foremost

end Foremost

end Grammar

namespace Automaton

/-- The successive matches from an offset on: each is looked for behind the one before it. -/
def findAll (a : Automaton) (wanted : Nat) (t : Text) (pos : Nat) : List Match :=
  if hpos : pos ≤ Text.size t then
    match hm : a.findGroup wanted t pos with
    | none => []
    | some m =>
      have hlo := (a.cuts_of_findGroup wanted hpos hm).lo_le
      have hhi := m.span.lo_le_hi
      m :: a.findAll wanted t (if m.span.lo < m.span.hi then m.span.hi else m.span.hi + 1)
  else []
termination_by Text.size t + 1 - pos
decreasing_by split_ifs <;> omega

variable {a : Automaton} {wanted : Nat} {t : Text} {pos : Nat}

theorem findAll_of_eq_none (h : a.findGroup wanted t pos = none) : a.findAll wanted t pos = [] := by
  unfold findAll
  split_ifs
  · split
    · rfl
    · simp_all
  · rfl

theorem findAll_of_eq_some (hpos : pos ≤ Text.size t) {m : Match}
    (h : a.findGroup wanted t pos = some m) : a.findAll wanted t pos =
      m :: a.findAll wanted t (if m.span.lo < m.span.hi then m.span.hi else m.span.hi + 1) := by
  rw [findAll, dif_pos hpos]
  split
  · simp_all
  · rename_i m' hm
    obtain rfl := Option.some.inj (hm.symm.trans h)
    rfl

theorem cuts_of_mem_findAll {m : Match} (hm : m ∈ a.findAll wanted t pos) : m.Cuts t pos := by
  fun_induction a.findAll wanted t pos with
  | case1 | case3 => cases hm
  | case2 pos hpos k hk hlo hhi ih =>
    rcases List.mem_cons.1 hm with rfl | hm
    · exact a.cuts_of_findGroup wanted hpos hk
    · have hcuts := ih hm
      refine ⟨?_, hcuts.boundary, hcuts.group⟩
      have := hcuts.lo_le
      split_ifs at this <;> omega

end Automaton

namespace Grammar

inductive Rule where
  | multiline (rule : MultilineRule)
  | pattern (rule : PatternRule)

namespace Rule

def multiline? : Rule → Option MultilineRule
  | multiline r => some r
  | pattern _ => none

def pattern? : Rule → Option PatternRule
  | multiline _ => none
  | pattern r => some r

def automaton : Rule → Automaton
  | multiline r => r.opener
  | pattern r => r.pattern

def group : Rule → Nat
  | multiline _ => 0
  | pattern r => r.group

/-- What a match makes: an opening match the start of a construct, another one a token, if the group
took part and is not empty. -/
def construct? (m : Match) : Rule → Option (Nat × Candidate)
  | multiline r => some (m.span.lo, .multiline r m.span.hi)
  | pattern r => (r.token m).bind fun i =>
    if i.lo < i.hi then some (i.lo, .pattern r i.hi) else none

def first (t : Text) (pos : Nat) : Rule → Option (Nat × Candidate)
  | multiline r => (r.findOpen t pos).map fun i => (i.lo, .multiline r i.hi)
  | pattern r => (r.find t pos).bind fun i =>
    if i.lo < i.hi then some (i.lo, .pattern r i.hi) else none

/-- What the successive matches from an offset on make. -/
def constructs (t : Text) (pos : Nat) (r : Rule) : List (Nat × Candidate) :=
  (r.automaton.findAll r.group t pos).filterMap r.construct?

theorem first_multiline (r : MultilineRule) {t : Text} {pos : Nat} (hpos : pos < Text.size t) :
    (multiline r).first t pos =
      (r.opener.find t pos).map fun i => (i.lo, .multiline r i.hi) := by
  change (r.findOpen t pos).map _ = _
  rw [MultilineRule.findOpen, if_pos hpos]

/-- A rule looks at the first match only. -/
theorem first_eq (r : Rule) {t : Text} {pos : Nat} (hpos : pos < Text.size t) :
    r.first t pos = (r.automaton.findGroup r.group t pos).bind r.construct? := by
  cases r with
  | multiline r =>
    rw [first_multiline r hpos, Automaton.find, Option.map_map]
    change _ = (r.opener.findGroup 0 t pos).bind _
    cases r.opener.findGroup 0 t pos <;> rfl
  | pattern r =>
    change (r.find t pos).bind _ = _
    rw [PatternRule.find, if_pos hpos, Option.bind_assoc]
    rfl

theorem construct?_bounds {r : Rule} {m : Match} {c : Nat × Candidate} {t : Text} {pos : Nat}
    (hm : m.Cuts t pos) (h : r.construct? m = some c) : m.span.lo ≤ c.1 ∧ c.1 ≤ m.span.hi := by
  cases r with
  | multiline r =>
    obtain rfl := Option.some.inj h
    exact ⟨le_rfl, m.span.lo_le_hi⟩
  | pattern r =>
    obtain ⟨i, hi, h⟩ := Option.bind_eq_some_iff.1 h
    split_ifs at h with hlt
    obtain rfl := Option.some.inj h
    unfold PatternRule.token at hi
    split_ifs at hi
    · obtain rfl := Option.some.inj hi
      exact ⟨le_rfl, hlt.le⟩
    · obtain ⟨hlo, hhi⟩ := (hm.group i hi).1
      exact ⟨hlo, hlt.le.trans hhi⟩

/-- If the first match makes a construct, this is the foremost of the rule. -/
theorem foremost_constructs {r : Rule} {t : Text} {pos : Nat} (hpos : pos < Text.size t)
    {c : Nat × Candidate} (h : r.first t pos = some c) :
    Foremost (r.constructs t pos) (some c) := by
  rw [first_eq r hpos] at h
  obtain ⟨m, hm, hc⟩ := Option.bind_eq_some_iff.1 h
  have hbounds := construct?_bounds (Automaton.cuts_of_findGroup _ _ hpos.le hm) hc
  unfold constructs
  rw [Automaton.findAll_of_eq_some hpos.le hm, List.filterMap_cons_some (f := r.construct?) hc]
  refine .entry [] (List.forall_mem_nil _) fun d hd => ?_
  obtain ⟨m', hm', hd⟩ := List.mem_filterMap.1 hd
  have hcuts := Automaton.cuts_of_mem_findAll hm'
  have hlo := hcuts.lo_le
  have hbounds' := construct?_bounds hcuts hd
  split_ifs at hlo <;> omega

theorem eq_of_mem_constructs {r r' : Rule} {t : Text} {pos : Nat} {c : Nat × Candidate}
    (h : c ∈ r.constructs t pos) (h' : c ∈ r'.constructs t pos) : r = r' := by
  obtain ⟨m, -, hm⟩ := List.mem_filterMap.1 h
  obtain ⟨m', -, hm'⟩ := List.mem_filterMap.1 h'
  cases r <;> cases r' <;> simp only [construct?, Option.bind_eq_some_iff] at hm hm' <;> grind

def addTo (g : Grammar) : Rule → Grammar
  | multiline r => g.addMultiline r
  | pattern r => g.addPattern r

end Rule

def ofRules (id : String) (rs : List Rule) : Grammar := rs.foldl Rule.addTo { id }

/-- The rules of a grammar, in the order in which they are to be preferred. -/
def rules (g : Grammar) : List Rule := g.multilines.map .multiline ++ g.patterns.map .pattern

theorem multilines_foldl_addTo (g : Grammar) (rs : List Rule) :
    (rs.foldl Rule.addTo g).multilines = g.multilines ++ rs.filterMap Rule.multiline? := by
  induction rs generalizing g with
  | nil => exact (List.append_nil _).symm
  | cons r rs ih =>
    rw [List.foldl_cons, ih]
    cases r with
    | multiline r => exact List.append_assoc _ _ _
    | pattern r => rfl

def mayPrecede (r r' : PatternRule) : Bool := r'.priority ≤ r.priority

theorem mayPrecede_trans (r r' r'' : PatternRule) (h : mayPrecede r r') (h' : mayPrecede r' r'') :
    mayPrecede r r'' := by
  rw [mayPrecede, decide_eq_true_iff] at *
  exact h'.trans h

theorem mayPrecede_total (r r' : PatternRule) : mayPrecede r r' || mayPrecede r' r := by
  rw [Bool.or_eq_true, mayPrecede, mayPrecede, decide_eq_true_iff, decide_eq_true_iff]
  exact le_total _ _

theorem patterns_addPattern (g : Grammar) (r : PatternRule) :
    (g.addPattern r).patterns = (g.patterns ++ [r]).mergeSort mayPrecede := rfl

theorem pairwise_foldl_addTo {g : Grammar} (rs : List Rule)
    (h : g.patterns.Pairwise fun r r' => r'.priority ≤ r.priority) :
    (rs.foldl Rule.addTo g).patterns.Pairwise fun r r' => r'.priority ≤ r.priority := by
  induction rs generalizing g with
  | nil => exact h
  | cons r rs ih =>
    cases r with
    | multiline r => exact ih h
    | pattern r =>
      refine ih ?_
      change (g.addPattern r).patterns.Pairwise _
      rw [patterns_addPattern]
      exact (List.pairwise_mergeSort mayPrecede_trans mayPrecede_total _).imp
        of_decide_eq_true

/-- Sorting by priority leaves rules of one priority in their order. -/
theorem filter_mergeSort_mayPrecede (rs : List PatternRule) (p : Int) :
    (rs.mergeSort mayPrecede).filter (·.priority = p) = rs.filter (·.priority = p) := by
  rw [filter_mergeSort mayPrecede_trans mayPrecede_total]
  apply List.mergeSort_of_pairwise
  refine List.pairwise_of_forall_mem_list fun r hr r' hr' => ?_
  rw [List.mem_filter, decide_eq_true_iff] at hr hr'
  rw [mayPrecede, decide_eq_true_iff, hr.2, hr'.2]

theorem filter_foldl_addTo (g : Grammar) (rs : List Rule) (p : Int) :
    (rs.foldl Rule.addTo g).patterns.filter (·.priority = p) =
      g.patterns.filter (·.priority = p) ++
        (rs.filterMap Rule.pattern?).filter (·.priority = p) := by
  induction rs generalizing g with
  | nil => exact (List.append_nil _).symm
  | cons r rs ih =>
    rw [List.foldl_cons, ih]
    cases r with
    | multiline r => rfl
    | pattern r =>
      change ((g.addPattern r).patterns.filter _) ++ _ = _
      rw [patterns_addPattern, filter_mergeSort_mayPrecede,
        List.filterMap_cons_some (f := Rule.pattern?) rfl, List.append_cons, ← List.filter_append,
        ← List.filter_append, List.append_assoc]
      simp

/-- The next construct is the foremost of those that the rules find. -/
theorem next?_outlook (g : Grammar) {t : Text} {pos : Nat} (hpos : pos < Text.size t) :
    (g.outlook t pos).next? = earliest (g.rules.filterMap (·.first t pos)) := by
  unfold Outlook.next? outlook rules
  rw [List.filterMap_append, List.filterMap_map, List.filterMap_map, List.filterMap_map,
    List.filterMap_map]
  refine congrArg earliest (congrArg₂ _ (List.filterMap_congr fun r _ => ?_)
    (List.filterMap_congr fun r _ => ?_))
  · change (r.opener.findGroup 0 t pos).map _ = (Rule.multiline r).first t pos
    rw [Rule.first_eq _ hpos]
    change _ = (r.opener.findGroup 0 t pos).bind _
    cases r.opener.findGroup 0 t pos <;> rfl
  · change ((r.pattern.findGroup r.group t pos).bind r.token).bind _ =
      (Rule.pattern r).first t pos
    rw [Rule.first_eq _ hpos, Option.bind_assoc]
    rfl

theorem foremost_shown (g : Grammar) {t : Text} {pos : Nat} (hpos : pos < Text.size t) :
    Foremost ((g.rules.filter fun r => (r.first t pos).isSome).flatMap (·.constructs t pos))
      (g.outlook t pos).next? := by
  refine .of_filterMap (·.first t pos) ?_ fun r hr => ?_
  · have hfirst : (g.rules.filter fun r => (r.first t pos).isSome).filterMap (·.first t pos) =
        g.rules.filterMap (·.first t pos) := by
      rw [List.filterMap_filter]
      refine List.filterMap_congr fun r _ => ?_
      split_ifs with h
      · rfl
      · exact (Option.not_isSome_iff_eq_none.1 h).symm
    rw [g.next?_outlook hpos, hfirst]
    exact foremost_earliest _
  · obtain ⟨c, hc⟩ := Option.isSome_iff_exists.1 (List.mem_filter.1 hr).2
    rw [hc]
    exact Rule.foremost_constructs hpos hc

/-- Where the search for a construct leads. Multi-line rules come first, in the order they were
added, then patterns by falling priority, those of one priority in the order they were added. Of the
rules whose first match makes a construct, the foremost of all constructs is the next one; it is the
foremost of all rules exactly if each construct of a rule whose first match makes none lies behind
it, or beside it but the rule comes later. -/
theorem next?_foremost (id : String) (rs : List Rule) {t : Text} {pos : Nat}
    (hpos : pos < Text.size t) :
    let g := ofRules id rs
    let next := (g.outlook t pos).next?
    (g.multilines = rs.filterMap Rule.multiline? ∧
      (g.patterns.Pairwise fun r r' => r'.priority ≤ r.priority) ∧
      ∀ p : Int, g.patterns.filter (·.priority = p) =
        (rs.filterMap Rule.pattern?).filter (·.priority = p)) ∧
    Foremost ((g.rules.filter fun r => (r.first t pos).isSome).flatMap (·.constructs t pos)) next ∧
    (Foremost (g.rules.flatMap (·.constructs t pos)) next ↔
      ∀ front r back, g.rules = front ++ r :: back → r.first t pos = none →
        ∀ c ∈ r.constructs t pos, ∃ e ∈ next,
          e.1 < c.1 ∨ e.1 = c.1 ∧ e ∈ front.flatMap (·.constructs t pos)) := by
  intro g next
  have hshown : Foremost _ next := g.foremost_shown hpos
  refine ⟨⟨multilines_foldl_addTo _ rs, pairwise_foldl_addTo rs .nil, filter_foldl_addTo _ rs⟩,
    hshown, ?_⟩
  rw [hshown.of_filter_iff fun _ _ _ => Rule.eq_of_mem_constructs]
  simp only [Option.isSome_eq_false_iff, Option.isNone_iff_eq_none]

/-- Takes `b` for a keyword, but only in the second alternative. -/
def secondLetter : PatternRule where
  name := "second"
  pattern := (Pattern.alt (.one (.single 'a')) (.group 1 (.one (.single 'b')))).automaton
  kind := .keyword
  priority := 1
  group := 1

def letterB : PatternRule where
  name := "b"
  pattern := (Pattern.one (.single 'b')).automaton
  kind := .constant
  priority := 0

/-- The rule with the higher priority is passed over, as its first match makes no token. -/
theorem next?_foremost_letters :
    let g := ofRules "custom" [.pattern letterB, .pattern secondLetter]
    0 < Text.size "ab".toList ∧ g.rules = [.pattern secondLetter, .pattern letterB] ∧
      (g.outlook "ab".toList 0).next? = some (1, .pattern letterB 2) ∧
      Foremost ((g.rules.filter fun r => (r.first "ab".toList 0).isSome).flatMap
        (·.constructs "ab".toList 0)) (some (1, .pattern letterB 2)) := by
  intro g
  have hpos : 0 < Text.size "ab".toList := by decide
  have hrules : g = ⟨"custom", [secondLetter, letterB], []⟩ := by
    change (⟨"custom", ([letterB].mergeSort mayPrecede ++ [secondLetter]).mergeSort mayPrecede,
      []⟩ : Grammar) = _
    rw [List.mergeSort_singleton, mergeSort_eq_sortWithin]
    with_unfolding_all rfl
  have hnext : (g.outlook "ab".toList 0).next? = some (1, .pattern letterB 2) := by
    rw [hrules]
    with_unfolding_all rfl
  have hshown := (next?_foremost "custom" [.pattern letterB, .pattern secondLetter] hpos).2.1
  refine ⟨hpos, by rw [hrules]; rfl, hnext, ?_⟩
  rw [← hnext]
  exact hshown

/-- Without the other rule there is no next construct, though the second letter is a token. -/
theorem next?_secondLetter :
    let g := ofRules "custom" [.pattern secondLetter]
    (PatternSource.captured "second" "a|(b)" .keyword 1).compile = .ok secondLetter ∧
      (g.outlook "ab".toList 0).next? = none ∧
      g.rules.flatMap (·.constructs "ab".toList 0) = [(1, .pattern secondLetter 2)] ∧
      ¬ Foremost (g.rules.flatMap (·.constructs "ab".toList 0))
        (g.outlook "ab".toList 0).next? ∧
      g.highlightLine "ab".toList {} = some ([⟨0, 2, .plain⟩], {}) := by
  intro g
  have hrules : g.rules = [.pattern secondLetter] := by with_unfolding_all rfl
  have hnext : (g.outlook "ab".toList 0).next? = none := by with_unfolding_all rfl
  have hfirst : secondLetter.pattern.findGroup 1 "ab".toList 0 = some ⟨.between 0 1, none⟩ := by
    with_unfolding_all rfl
  have hsecond : secondLetter.pattern.findGroup 1 "ab".toList 1 =
      some ⟨.between 1 2, some (.between 1 2)⟩ := by with_unfolding_all rfl
  have hthird : secondLetter.pattern.findGroup 1 "ab".toList 2 = none := by with_unfolding_all rfl
  have hall : secondLetter.pattern.findAll 1 "ab".toList 0 =
      [⟨.between 0 1, none⟩, ⟨.between 1 2, some (.between 1 2)⟩] := by
    rw [Automaton.findAll_of_eq_some (by decide) hfirst]
    congr 1
    change secondLetter.pattern.findAll 1 "ab".toList 1 = _
    rw [Automaton.findAll_of_eq_some (by decide) hsecond]
    congr 1
    exact Automaton.findAll_of_eq_none hthird
  have hconstructs : g.rules.flatMap (·.constructs "ab".toList 0) =
      [(1, .pattern secondLetter 2)] := by
    rw [hrules, List.flatMap_singleton]
    change (secondLetter.pattern.findAll 1 "ab".toList 0).filterMap _ = _
    rw [hall]
    rfl
  refine ⟨by with_unfolding_all rfl, hnext, hconstructs, fun h => ?_, by with_unfolding_all rfl⟩
  rw [hnext, hconstructs] at h
  cases h.eq_nil

end Grammar

end FencedCode
