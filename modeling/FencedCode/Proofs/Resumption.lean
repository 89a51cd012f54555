import FencedCode.Proofs.Spreading

namespace FencedCode

namespace Automaton

variable {a : Automaton} {wanted : Nat}

/-- The ways followed at an offset: as long as there is no match one more starts there. -/
def joined (ways : List Way) (best : Option Match) (offset : Nat) : List Way :=
  if best.isNone then ways ++ [.fresh offset] else ways

/-- The best match so far, when ways have been followed at an offset. -/
def Outcome.best (o : Outcome) (best : Option Match) (offset : Nat) : Option Match :=
  match o.accepted with
  | some w => some ⟨.between w.start offset, w.group⟩
  | none => best

theorem Outcome.best_of_some {o : Outcome} {w : Way} (h : o.accepted = some w)
    (best : Option Match) (offset : Nat) :
    o.best best offset = some ⟨.between w.start offset, w.group⟩ := by
  unfold Outcome.best
  rw [h]

theorem Outcome.best_of_none {o : Outcome} (h : o.accepted = none) (best : Option Match)
    (offset : Nat) : o.best best offset = best := by
  unfold Outcome.best
  rw [h]

inductive Follows (a : Automaton) (wanted : Nat) :
    List Way → Option Match → Option Char → Nat → Text → Option Match → Prop
  | done {ways : List Way} {best : Option Match} {prev : Option Char} {offset : Nat} {o : Outcome}
    (ho : Spreads a wanted ⟨prev, none, offset⟩ (joined ways best offset) ∅ o) :
    Follows a wanted ways best prev offset [] (o.best best offset)
  | next {ways : List Way} {best : Option Match} {prev : Option Char} {offset : Nat} {o : Outcome}
    {c : Char} {t : Text} {m : Option Match}
    (ho : Spreads a wanted ⟨prev, some c, offset⟩ (joined ways best offset) ∅ o)
    (h : Follows a wanted o.ways (o.best best offset) (some c) (offset + c.utf8Size) t m) :
    Follows a wanted ways best prev offset (c :: t) m

namespace Follows

variable {ways : List Way} {best m : Option Match} {prev : Option Char} {offset : Nat} {t : Text}

theorem of_some (k : Match) : Follows a wanted [] (some k) prev offset t (some k) := by
  have hdone : ∀ here, Spreads a wanted here (joined [] (some k) offset) ∅ ⟨∅, [], none⟩ :=
    fun _ => .done ∅
  induction t generalizing prev offset with
  | nil => exact .done (hdone _)
  | cons c t ih => exact .next (hdone _) (ih fun _ => .done ∅)

end Follows

/-- There is a mark for each state, and none is for this offset or a later one. -/
def Ready (a : Automaton) (marks : Array Nat) (offset : Nat) : Prop :=
  marks.size = Array.size a ∧ ∀ v ∈ marks, v ≤ offset

theorem ready_replicate (a : Automaton) (offset : Nat) :
    a.Ready (Array.replicate (Array.size a) 0) offset :=
  ⟨Array.size_replicate, fun v hv => by simp [(Array.mem_replicate.1 hv).2]⟩

theorem Ready.marked_eq {marks : Array Nat} {offset : Nat} (h : a.Ready marks offset) :
    marked marks offset = ∅ := by
  refine Set.eq_empty_iff_forall_notMem.2 fun q hq => ?_
  have := h.2 _ (Array.mem_of_getElem? hq)
  omega

theorem Ready.set {marks : Array Nat} {offset : Nat} (h : a.Ready marks offset) (q : Nat) :
    a.Ready (marks.setIfInBounds q offset) offset := by
  refine ⟨by rw [Array.size_setIfInBounds, h.1], fun v hv => ?_⟩
  rcases Array.mem_or_eq_of_mem_setIfInBounds hv with hv | rfl
  · exact h.2 v hv
  · exact le_rfl

theorem Ready.mono {marks : Array Nat} {offset later : Nat} (h : a.Ready marks offset)
    (hle : offset ≤ later) : a.Ready marks later :=
  ⟨h.1, fun v hv => (h.2 v hv).trans hle⟩

theorem Ready.spread {here : Place} {steps : Nat} {ws taken : List Way} {marks : Array Nat}
    (h : a.Ready marks (here.offset + 1)) :
    a.Ready (a.spread wanted here steps ws marks taken).marks (here.offset + 1) := by
  induction steps generalizing ws marks taken with
  | zero => exact h
  | succ steps ih =>
    cases ws with
    | nil => exact h
    | cons w ws =>
      unfold Automaton.spread
      split_ifs with hseen
      · exact ih h
      · split
        · exact ih h
        · exact h
        · dsimp only
          split
          · exact ih (h.set _)
          · exact ih (h.set _)

/-- With the steps allowed ways are followed as if there were no bound. -/
theorem Ready.exists_outcome (here : Place) {marks : Array Nat} (h : a.Ready marks here.offset)
    (wanted : Nat) (ws : List Way) :
    let p := a.spread wanted here (ws.length + 2 * Array.size a) ws marks []
    ∃ o, Spreads a wanted here ws ∅ o ∧ p.accepted = o.accepted ∧ p.ways = o.ways := by
  have hle := unmarked_le marks here.offset
  rw [h.1] at hle
  obtain ⟨o, ho, haccepted, hways⟩ := spreads_spread (a := a) [] h.1
    (show ws.length + 2 * unmarked marks here.offset ≤ ws.length + 2 * Array.size a by omega)
  rw [h.marked_eq] at ho
  exact ⟨o, ho, haccepted, hways⟩

/-- A search follows its ways to the end of the text; when it stops early nothing more can come. -/
theorem follows_follow {ways : List Way} {marks : Array Nat} {best : Option Match}
    {prev : Option Char} {offset : Nat} {t : Text} (h : a.Ready marks offset) :
    Follows a wanted ways best prev offset t
      (a.follow wanted ways marks best prev offset t) := by
  induction t generalizing ways marks best prev offset with
  | nil =>
    obtain ⟨o, ho, haccepted, -⟩ := h.exists_outcome ⟨prev, none, offset⟩ wanted
      (joined ways best offset)
    have hdone := Follows.done ho
    unfold Outcome.best at hdone
    rw [← haccepted] at hdone
    exact hdone
  | cons c t ih =>
    obtain ⟨o, ho, haccepted, hways⟩ := h.exists_outcome ⟨prev, some c, offset⟩ wanted
      (joined ways best offset)
    refine .next ho ?_
    have hc := c.utf8Size_pos
    unfold follow
    extract_lets ways' p best'
    have hready : a.Ready p.marks (offset + 1) := (h.mono (Nat.le_add_right offset 1)).spread
    have hbest : o.best best offset = best' := by
      unfold Outcome.best
      rw [← haccepted]
      rfl
    rw [hbest, ← hways]
    dsimp only
    split_ifs with hstop
    · rw [Bool.and_eq_true, Option.isSome_iff_exists, List.isEmpty_iff] at hstop
      obtain ⟨⟨k, hk⟩, hnone⟩ := hstop
      have hnone' : p.ways = [] := hnone
      rw [hk]
      change Follows a wanted p.ways _ _ _ _ _
      rw [hnone']
      exact .of_some k
    · exact ih (hready.mono (by omega))

namespace Spreads

variable {here : Place} {ws : List Way} {entered : Set Nat} {o : Outcome}

theorem starts {b : Nat} (h : Spreads a wanted here ws entered o) (hws : ∀ w ∈ ws, w.start < b) :
    (∀ w ∈ o.ways, w.start < b) ∧ ∀ w ∈ o.accepted, w.start < b := by
  induction h with
  | done => exact ⟨List.forall_mem_nil _, by simp⟩
  | seen _ _ ih | lost _ _ _ ih => exact ih (List.forall_mem_cons.1 hws).2
  | accept => exact ⟨List.forall_mem_nil _, by simpa using (List.forall_mem_cons.1 hws).1⟩
  | @step w ws entered o s _ _ _ _ ih =>
    obtain ⟨hw, hws⟩ := List.forall_mem_cons.1 hws
    obtain ⟨honward, hpast⟩ := start_of_step wanted here w s
    obtain ⟨hways, haccepted⟩ := ih
      (List.forall_mem_append.2 ⟨fun v hv => (honward v hv).trans_lt hw, hws⟩)
    exact ⟨List.forall_mem_append.2
      ⟨fun v hv => (hpast v (Option.mem_toList.1 hv)).trans_lt hw, hways⟩, haccepted⟩

end Spreads

theorem Outcome.best_lo {o : Outcome} {w : Way} (h : o.accepted = some w) {b : Nat}
    (hw : w.start < b) (best : Option Match) (offset : Nat) :
    ∃ k, o.best best offset = some k ∧ k.span.lo < b :=
  ⟨_, o.best_of_some h best offset, (min_le_left _ _).trans_lt hw⟩

theorem Outcome.exists_best {o : Outcome} {k : Match} {b : Nat} (hk : k.span.lo < b)
    (haccepted : ∀ w ∈ o.accepted, w.start < b) (offset : Nat) :
    ∃ k', o.best (some k) offset = some k' ∧ k'.span.lo < b := by
  cases hw : o.accepted with
  | none => exact ⟨k, o.best_of_none hw (some k) offset, hk⟩
  | some w => exact best_lo hw (haccepted w hw) (some k) offset

open Classical in
theorem filter_joined {ways₁ ways₂ : List Way} {P : Way → Prop}
    (h : ways₁.filter (fun w => P w) = ways₂.filter fun w => P w) (best : Option Match)
    (offset : Nat) : (joined ways₁ best offset).filter (fun w => P w) =
      (joined ways₂ best offset).filter fun w => P w := by
  unfold joined
  split_ifs
  · rw [List.filter_append, List.filter_append, h]
  · exact h

theorem exists_joined_append (old new : List Way) (best : Option Match) (offset : Nat) :
    ∃ new', joined (old ++ new) best offset = old ++ new' := by
  unfold joined
  split_ifs
  · exact ⟨_, List.append_assoc _ _ _⟩
  · exact ⟨_, rfl⟩

namespace Follows

variable {ways : List Way} {best m : Option Match} {prev : Option Char} {offset : Nat} {t : Text}

open Classical in
/-- Ways that are alike but for dead ones lead to the same match. -/
theorem alike {ways₁ ways₂ : List Way} {m₁ m₂ : Option Match}
    (h₁ : Follows a wanted ways₁ best prev offset t m₁)
    (h₂ : Follows a wanted ways₂ best prev offset t m₂)
    (hways : ways₁.filter (fun w => Live a prev t w.state) =
      ways₂.filter fun w => Live a prev t w.state) : m₁ = m₂ := by
  induction t generalizing ways₁ ways₂ best prev offset with
  | nil =>
    cases h₁ with
    | done ho₁ =>
      cases h₂ with
      | done ho₂ =>
        unfold Outcome.best
        rw [(ho₁.alike (t := []) ho₂ (filter_joined hways best offset) fun _ _ => Iff.rfl).1]
  | cons c t ih =>
    cases h₁ with
    | next ho₁ h₁ =>
      cases h₂ with
      | next ho₂ h₂ =>
        obtain ⟨haccepted, hnext⟩ :=
          ho₁.alike (t := c :: t) ho₂ (filter_joined hways best offset) fun _ _ => Iff.rfl
        unfold Outcome.best at h₁ h₂
        rw [haccepted] at h₁
        exact ih h₁ h₂ hnext

/-- With ways that all started before an offset a match that did so too gives way only to such
a match. -/
theorem lo_lt_of_best {b : Nat} (h : Follows a wanted ways best prev offset t m)
    (hways : ∀ w ∈ ways, w.start < b) (hbest : ∃ k, best = some k ∧ k.span.lo < b) :
    ∃ k, m = some k ∧ k.span.lo < b := by
  induction t generalizing ways best prev offset with
  | nil =>
    cases h with
    | done ho =>
      obtain ⟨k, rfl, hk⟩ := hbest
      exact Outcome.exists_best hk (ho.starts hways).2 offset
  | cons c t ih =>
    cases h with
    | next ho h =>
      obtain ⟨k, rfl, hk⟩ := hbest
      obtain ⟨hnext, haccepted⟩ := ho.starts hways
      exact ih h hnext (Outcome.exists_best hk haccepted offset)

/-- With a live way among those in front, which all started before an offset, there is a match that
starts before it. -/
theorem lo_lt_of_live {b : Nat} {old new : List Way}
    (h : Follows a wanted (old ++ new) best prev offset t m) (hold : ∀ w ∈ old, w.start < b)
    (hlive : ∃ w ∈ old, Live a prev t w.state) : ∃ k, m = some k ∧ k.span.lo < b := by
  induction t generalizing old new best prev offset with
  | nil =>
    cases h with
    | done ho =>
      obtain ⟨new', hnew⟩ := exists_joined_append old new best offset
      rw [hnew] at ho
      obtain ⟨o₁, ho₁, ho⟩ := ho.append
      rcases ho with ⟨hsome, rfl⟩ | ⟨hnone, -⟩
      · obtain ⟨w, hw⟩ := Option.ne_none_iff_exists'.1 hsome
        exact Outcome.best_lo hw ((ho₁.starts hold).2 w hw) best offset
      · obtain ⟨w, hw, hlive⟩ := hlive
        obtain ⟨v, -, hv⟩ := ho₁.exists_live (t := []) hnone hw hlive
        exact hv.elim
  | cons c t ih =>
    cases h with
    | next ho h =>
      obtain ⟨new', hnew⟩ := exists_joined_append old new best offset
      rw [hnew] at ho
      obtain ⟨o₁, ho₁, ho⟩ := ho.append
      obtain ⟨hways, haccepted⟩ := ho₁.starts hold
      rcases ho with ⟨hsome, rfl⟩ | ⟨hnone, o₂, -, rfl⟩
      · obtain ⟨w, hw⟩ := Option.ne_none_iff_exists'.1 hsome
        exact h.lo_lt_of_best hways (Outcome.best_lo hw (haccepted w hw) best offset)
      · obtain ⟨w, hw, hlive⟩ := hlive
        exact ih h hways (ho₁.exists_live (t := c :: t) hnone hw hlive)

/-- Without a match so far ways are followed through the front part of a text: then there is a match
that starts in this part, or all the ways are dead at the end of it. -/
theorem through {x y z : Text} (h : Follows a wanted ways none x.getLast? (Text.size x) (y ++ z) m)
    (hways : ∀ w ∈ ways, w.start < Text.size (x ++ y)) :
    (∃ k, m = some k ∧ k.span.lo < Text.size (x ++ y)) ∨
      ∃ ways', (∀ w ∈ ways', ¬ Live a (x ++ y).getLast? z w.state) ∧
        Follows a wanted ways' none (x ++ y).getLast? (Text.size (x ++ y)) z m := by
  induction y generalizing x ways with
  | nil =>
    rw [List.append_nil] at hways ⊢
    by_cases hlive : ∃ w ∈ ways, Live a x.getLast? z w.state
    · rw [← List.append_nil ways] at h
      exact .inl (h.lo_lt_of_live hways hlive)
    · exact .inr ⟨ways, by simpa using hlive, h⟩
  | cons c y ih =>
    cases h with
    | @next _ _ _ _ o _ _ _ ho h =>
      have hsize := Text.size_lt_size_append_cons x c y
      obtain ⟨hnext, haccepted⟩ := ho.starts (List.forall_mem_append.2
        ⟨hways, List.forall_mem_singleton.2 hsize⟩)
      cases hw : o.accepted with
      | some w => exact .inl (h.lo_lt_of_best hnext (Outcome.best_lo hw (haccepted w hw) _ _))
      | none =>
        have hc : Text.size x + c.utf8Size = Text.size (x ++ [c]) := by simp [Text.size]
        rw [o.best_of_none hw, hc, ← List.getLast?_concat (l := x)] at h
        rw [List.append_cons] at hnext ⊢
        exact ih h hnext

end Follows

/-- A search from a cut of a text follows ways from there to the end. -/
theorem follows_findGroup (a : Automaton) (wanted : Nat) (x y : Text) :
    Follows a wanted [] none x.getLast? (Text.size x) y
      (a.findGroup wanted (x ++ y) (Text.size x)) := by
  have hcover := Text.cover_append_size x y
  have huncover : Text.uncover (x ++ y) (Text.size x) = y := by
    have h := Text.cover_append_uncover (x ++ y) (Text.size x)
    rw [hcover] at h
    exact List.append_cancel_left h
  unfold findGroup
  rw [hcover, huncover]
  exact follows_follow (a.ready_replicate _)

/-- A search from the start of the second of three parts of a text finds a match that starts in this
part, or the same as a search from the start of the third. -/
theorem findGroup_cases (a : Automaton) (wanted : Nat) (x y z : Text) :
    (∃ k, a.findGroup wanted (x ++ y ++ z) (Text.size x) = some k ∧
      k.span.lo < Text.size (x ++ y)) ∨
    a.findGroup wanted (x ++ y ++ z) (Text.size x) =
      a.findGroup wanted (x ++ y ++ z) (Text.size (x ++ y)) := by
  have hearly := a.follows_findGroup wanted x (y ++ z)
  rw [← List.append_assoc] at hearly
  rcases hearly.through (List.forall_mem_nil _) with h | ⟨ways, hdead, hlate⟩
  · exact .inl h
  · refine .inr (hlate.alike (a.follows_findGroup wanted (x ++ y) z) ?_)
    classical
    rw [List.filter_nil, List.filter_eq_nil_iff]
    simpa using hdead

/-- What was found from an offset on answers a search from a later one, made anew only where the
match starts too soon. -/
theorem findNext_findGroup (a : Automaton) (wanted : Nat) {t : Text} {pos stop : Nat}
    (hpos : t.isBoundary pos) (hstop : t.isBoundary stop) (hle : pos ≤ stop) :
    a.findNext wanted t stop (a.findGroup wanted t pos) = a.findGroup wanted t stop := by
  obtain ⟨x, r, rfl, rfl⟩ := Text.isBoundary_iff.1 hpos
  obtain ⟨u, z, ht, rfl⟩ := Text.isBoundary_iff.1 hstop
  obtain ⟨y, rfl, rfl⟩ := Text.append_eq_append_of_size_le ht hle
  rw [← List.append_assoc]
  unfold findNext
  rcases a.findGroup_cases wanted x y z with ⟨k, hk, hlt⟩ | hsame
  · rw [hk, Option.bind_some, if_neg (Nat.not_le.2 hlt)]
  · rw [hsame]
    cases hm : a.findGroup wanted (x ++ y ++ z) (Text.size (x ++ y)) with
    | none => rfl
    | some m =>
      have hsize : Text.size (x ++ y) ≤ Text.size (x ++ y ++ z) := by
        rw [Text.size_append _ z]
        exact Nat.le_add_right _ _
      rw [Option.bind_some, if_pos (a.cuts_of_findGroup wanted hsize hm).lo_le]

end Automaton

end FencedCode
