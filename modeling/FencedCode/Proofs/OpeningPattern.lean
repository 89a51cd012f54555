import FencedCode.Fence
import FencedCode.Pattern.Parse
import FencedCode.Proofs.Leftmost

namespace FencedCode.Fence

open Automaton

/-- The written pattern of a line that opens a block. -/
def written : Text := "^\x60\x7b3,\x7d(\\S*)".toList

/-- The text that the group of the written pattern captures in a line, if the pattern is found. -/
def captured? (line : Text) : Option Text := do
  let p ← Pattern.ofText? written
  let m ← p.automaton.findGroup 1 line 0
  return (m.group.map fun g => Text.slice line g.lo g.hi).getD []

def opening : Pattern :=
  .seq (.assertion .textStart) (.seq (.repeated (.one (.single tick)) 3 none true)
    (.group 1 (.repeated (.one CharSet.blank.complement) 0 none true)))

theorem ofText?_written : Pattern.ofText? written = some opening := by decide +kernel

def opener : Automaton := #[.check .textStart 1, .take (.single tick) 2, .take (.single tick) 3,
  .take (.single tick) 4, .fork 3 5, .enter 1 6, .fork 7 8, .take CharSet.blank.complement 6,
  .leave 1 9, .accept]

theorem automaton_opening : opening.automaton = opener := by rfl

def way (state entered : Nat) : Way := ⟨state, 0, entered, none⟩

theorem step_take (here : Place) (w : Way) (set : CharSet) (q : Nat) :
    (step 1 here w (.take set q)).2.toList =
      if here.next.any set.contains then [{ w with state := q }] else [] := by
  unfold step
  dsimp only
  split_ifs <;> rfl

theorem step_tick (here : Place) (w : Way) (q : Nat) :
    (step 1 here w (.take (.single tick) q)).2.toList =
      if here.next = some tick then [{ w with state := q }] else [] := by
  rw [step_take]
  simp only [CharSet.any_contains_single]

theorem spreads_group (here : Place) (e : Nat) (older : List Way) {entered : Set Nat}
    (hfree : ∀ q, 6 ≤ q → q ∉ entered) :
    ∃ o, Spreads opener 1 here (way 6 e :: older) entered o ∧
      o.ways = (if here.next.any (!Text.isBlank ·) then [way 6 e] else []) ∧
      o.accepted = some ⟨9, 0, e, some (.between e here.offset)⟩ := by
  have h7 : 7 ∉ insert 6 entered := by simp [hfree 7]
  have h8 : 8 ∉ insert 7 (insert 6 entered) := by simp [hfree 8]
  have h9 : 9 ∉ insert 8 (insert 7 (insert 6 entered)) := by simp [hfree 9]
  refine ⟨_, .step (s := .fork 7 8) (hfree 6 le_rfl) rfl (by simp)
    (.step (s := .take CharSet.blank.complement 6) h7 rfl (by simp)
      (.step (s := .leave 1 9) h8 rfl (by simp) (.accept h9 rfl))), ?_, rfl⟩
  dsimp only
  rw [step_take, CharSet.contains_complement_blank]
  exact List.append_nil _

/-- Behind enough ticks one more is preferred to the group, which begins here. -/
theorem spreads_ticks (here : Place) (e : Nat) (older : List Way) (best : Option Match) :
    ∃ o, Spreads opener 1 here (joined (way 4 e :: older) best here.offset) ∅ o ∧
      o.ways = (if here.next = some tick then [way 4 e] else []) ++
        (if here.next.any (!Text.isBlank ·) then [way 6 here.offset] else []) ∧
      o.accepted = some ⟨9, 0, here.offset, some (.between here.offset here.offset)⟩ := by
  have h3 : 3 ∉ insert 4 (∅ : Set Nat) := by simp
  have h5 : 5 ∉ insert 3 (insert 4 (∅ : Set Nat)) := by simp
  have hfree : ∀ q, 6 ≤ q → q ∉ insert 5 (insert 3 (insert 4 (∅ : Set Nat))) := by
    intro q hq
    have : q ≠ 5 ∧ q ≠ 3 ∧ q ≠ 4 := by omega
    simpa using this
  obtain ⟨ws, hws⟩ := exists_joined_append [way 4 e] older best here.offset
  obtain ⟨o, ho, hways, haccepted⟩ := spreads_group here here.offset ws hfree
  rw [show joined (way 4 e :: older) best here.offset = way 4 e :: ws from hws]
  refine ⟨_, .step (s := .fork 3 5) (Set.notMem_empty _) rfl (by simp)
    (.step (s := .take (.single tick) 4) h3 rfl (by simp)
      (.step (s := .enter 1 6) h5 rfl (by simp) ho)), ?_, haccepted⟩
  dsimp only
  rw [step_tick, hways]
  rfl

theorem spreads_fresh (p : Char) (next : Option Char) (n : Nat) {entered : Set Nat}
    (h : 0 ∉ entered) :
    Spreads opener 1 ⟨some p, next, n⟩ [.fresh n] entered ⟨insert 0 entered, [], none⟩ :=
  .step (s := .check .textStart 1) (o := ⟨insert 0 entered, [], none⟩) h rfl (by simp) (.done _)

/-- As long as there are too few ticks only the way that has read all of them goes on. -/
theorem spreads_few (p : Char) (next : Option Char) (n : Nat) {q : Nat} (hq : q ≠ 0)
    (hs : opener[q]? = some (.take (.single tick) (q + 1))) :
    ∃ o, Spreads opener 1 ⟨some p, next, n⟩ [way q 0, .fresh n] ∅ o ∧
      o.ways = (if next = some tick then [way (q + 1) 0] else []) ∧ o.accepted = none := by
  have h0 : 0 ∉ insert q (∅ : Set Nat) := by simpa using hq.symm
  refine ⟨_, .step (Set.notMem_empty _) hs (by simp) (spreads_fresh p next n h0), ?_, rfl⟩
  dsimp only
  rw [step_tick]
  exact List.append_nil _

theorem spreads_start (next : Option Char) :
    ∃ o, Spreads opener 1 ⟨none, next, 0⟩ [.fresh 0] ∅ o ∧
      o.ways = (if next = some tick then [way 2 0] else []) ∧ o.accepted = none := by
  have h1 : 1 ∉ insert 0 (∅ : Set Nat) := by simp
  refine ⟨_, .step (s := .check .textStart 1) (Set.notMem_empty _) rfl (by simp)
    (.step (s := .take (.single tick) 2) h1 rfl (by simp) (.done _)), ?_, rfl⟩
  dsimp only
  rw [step_tick]
  exact List.append_nil _

def found (n : Nat) (t : Text) : Match :=
  let start := n + Text.size (t.takeWhile (· == tick))
  let stop := start + Text.size ((t.dropWhile (· == tick)).takeWhile (!Text.isBlank ·))
  ⟨.between 0 stop, some (.between start stop)⟩

variable {prev : Option Char} {p : Char} {n e : Nat} {t : Text}

theorem follows_lost : Follows opener 1 [] none (some p) n t none := by
  have hjoined : ∀ next p n, Spreads opener 1 ⟨some p, next, n⟩ (joined [] none n) ∅
      ⟨insert 0 ∅, [], none⟩ := fun next p n => spreads_fresh p next n (Set.notMem_empty 0)
  induction t generalizing p n with
  | nil => exact .done (hjoined none p n)
  | cons c t ih => exact .next (hjoined (some c) p n) ih

theorem follows_group (m : Match) :
    Follows opener 1 [way 6 e] (some m) prev n t
      (some ⟨.between 0 (n + Text.size (t.takeWhile (!Text.isBlank ·))),
        some (.between e (n + Text.size (t.takeWhile (!Text.isBlank ·))))⟩) := by
  have hfree : ∀ q, 6 ≤ q → q ∉ (∅ : Set Nat) := fun q _ => Set.notMem_empty q
  induction t generalizing m prev n with
  | nil =>
    obtain ⟨o, ho, -, haccepted⟩ := spreads_group ⟨prev, none, n⟩ e [] hfree
    have h : Follows opener 1 [way 6 e] (some m) prev n [] (o.best (some m) n) := .done ho
    rw [o.best_of_some haccepted] at h
    exact h
  | cons c t ih =>
    obtain ⟨o, ho, hways, haccepted⟩ := spreads_group ⟨prev, some c, n⟩ e [] hfree
    refine .next ho ?_
    rw [o.best_of_some haccepted, hways]
    by_cases hc : Text.isBlank c
    · simpa [hc, Text.size] using Follows.of_some _
    · simpa [hc, Text.size, Nat.add_assoc] using
        ih (n := n + c.utf8Size) ⟨.between 0 n, some (.between e n)⟩

theorem found_tick (n : Nat) (t : Text) : found n (tick :: t) = found (n + 1) t := by
  have hsize : tick.utf8Size = 1 := by decide
  simp [found, Text.size, hsize, Nat.add_assoc]

/-- Behind enough ticks the match is found, whatever other ways there are. -/
theorem follows_ticks (older : List Way) (best : Option Match) :
    Follows opener 1 (way 4 0 :: older) best prev n t (some (found n t)) := by
  induction t generalizing older best prev n with
  | nil =>
    obtain ⟨o, ho, -, haccepted⟩ := spreads_ticks ⟨prev, none, n⟩ 0 older best
    have h : Follows opener 1 (way 4 0 :: older) best prev n [] (o.best best n) := .done ho
    rw [o.best_of_some haccepted] at h
    exact h
  | cons c t ih =>
    obtain ⟨o, ho, hways, haccepted⟩ := spreads_ticks ⟨prev, some c, n⟩ 0 older best
    refine .next ho ?_
    rw [o.best_of_some haccepted, hways]
    by_cases htick : c = tick
    · -- the way with one more tick comes first
      rw [htick, found_tick]
      exact ih _ _
    · by_cases hc : Text.isBlank c
      · simpa [found, htick, hc, Text.size] using Follows.of_some _
      · simpa [found, htick, hc, Text.size, Nat.add_assoc] using
          follows_group (n := n + c.utf8Size) ⟨.between 0 n, some (.between n n)⟩

/-- With too few ticks read it depends on the number of the next ones whether there is a match. -/
theorem follows_few {q : Nat} (hq : q = 1 ∨ q = 2 ∨ q = 3) :
    Follows opener 1 [way q 0] none (some p) n t
      (if 4 ≤ q + (t.takeWhile (· == tick)).length then some (found n t) else none) := by
  have hs : ∀ q, q = 1 ∨ q = 2 ∨ q = 3 →
      opener[q]? = some (.take (.single tick) (q + 1)) := by
    rintro q (rfl | rfl | rfl) <;> rfl
  induction t generalizing p n q with
  | nil =>
    obtain ⟨o, ho, -, haccepted⟩ := spreads_few p none n (by omega) (hs q hq)
    have h : Follows opener 1 [way q 0] none (some p) n [] (o.best none n) := .done ho
    rw [o.best_of_none haccepted] at h
    rwa [if_neg (by simp; omega)]
  | cons c t ih =>
    obtain ⟨o, ho, hways, haccepted⟩ := spreads_few p (some c) n (by omega) (hs q hq)
    refine .next ho ?_
    rw [o.best_of_none haccepted, hways]
    by_cases htick : c = tick
    · have hcount : q + ((c :: t).takeWhile (· == tick)).length =
          q + 1 + (t.takeWhile (· == tick)).length := by
        rw [List.takeWhile_cons_of_pos (by simpa using htick), List.length_cons]
        omega
      rw [hcount, htick, found_tick, if_pos rfl]
      by_cases hlast : q = 3
      · subst hlast
        rw [if_pos (by omega)]
        exact follows_ticks [] none
      · exact ih (by omega)
    · rw [if_neg (by simpa using htick), if_neg (by simp [htick]; omega)]
      exact follows_lost

theorem follows_line (line : Text) : Follows opener 1 [] none none 0 line
    (if 3 ≤ (line.takeWhile (· == tick)).length then some (found 0 line) else none) := by
  cases line with
  | nil =>
    obtain ⟨o, ho, -, haccepted⟩ := spreads_start none
    have h : Follows opener 1 [] none none 0 [] (o.best none 0) := .done ho
    rw [o.best_of_none haccepted] at h
    exact h
  | cons c t =>
    obtain ⟨o, ho, hways, haccepted⟩ := spreads_start (some c)
    refine .next ho ?_
    rw [o.best_of_none haccepted, hways]
    by_cases htick : c = tick
    · have hcount : 3 ≤ ((c :: t).takeWhile (· == tick)).length ↔
          4 ≤ 2 + (t.takeWhile (· == tick)).length := by
        rw [List.takeWhile_cons_of_pos (by simpa using htick), List.length_cons]
        omega
      simp only [hcount]
      rw [htick, found_tick, if_pos rfl]
      exact follows_few (.inr (.inl rfl))
    · rw [if_neg (by simpa using htick), if_neg (by simp [htick])]
      exact follows_lost

/-- A search for the pattern finds it in the lines that start with enough ticks. What a search
follows is determined, so it is enough to have followed it to the match. -/
theorem findGroup_opener (line : Text) : opener.findGroup 1 line 0 =
    if 3 ≤ (line.takeWhile (· == tick)).length then some (found 0 line) else none :=
  (follows_findGroup opener 1 [] line).alike (follows_line line) rfl

/-- The tag of a line is what the group of the written pattern captures. -/
theorem tag?_eq_captured? (line : Text) : tag? line = captured? line := by
  have hat : Text.At line (Text.size (line.takeWhile (· == tick)))
      ((line.dropWhile (· == tick)).takeWhile (!Text.isBlank ·)) := by
    refine ⟨_, (line.dropWhile (· == tick)).dropWhile (!Text.isBlank ·), ?_, rfl⟩
    rw [List.append_assoc, List.takeWhile_append_dropWhile, List.takeWhile_append_dropWhile]
  unfold captured? tag?
  rw [ofText?_written, Option.bind_eq_bind, Option.bind_some, automaton_opening, findGroup_opener]
  split_ifs
  · simp [found, hat.slice_eq]
  · rfl

/-- All of the ticks come before the tag, and a tick in it is no end of it. -/
example : tag? "\x60\x60\x60\x60js\x60x y".toList = some "js\x60x".toList ∧
    tag? "\x60\x60js".toList = none := by decide

end FencedCode.Fence
