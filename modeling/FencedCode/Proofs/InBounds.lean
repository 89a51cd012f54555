import FencedCode.Proofs.LineIndex
import FencedCode.Proofs.Replacing

namespace FencedCode

/-- An answer is there whatever the ranges, and near intervals it is what a function gives. -/
def Ranges.Finds (near : List (Nat × Nat)) (f : List Interval → List Nat)
    (r : Except Fault (List Nat)) : Prop :=
  ∃ os, r = .ok os ∧ ∀ is : List Interval, is.map Interval.ends = near → os = f is

theorem Interval.ends_injective : Function.Injective Interval.ends := by
  intro r s h
  cases r
  cases s
  simp only [Interval.ends, Prod.mk.injEq] at h
  simp [h.1, h.2]

namespace Ranges

theorem skip_eq (near : List (Nat × Nat)) (lo next : Nat) : ∃ k, skip near lo next = .ok k ∧
    near.drop k = (near.drop next).dropWhile fun r => r.2 < lo := by
  fun_induction skip near lo next with
  | case1 next hlt ih =>
    rw [entry_eq_ok (List.getElem?_eq_getElem hlt), List.drop_eq_getElem_cons hlt]
    by_cases hlo : near[next].2 < lo
    · obtain ⟨k, hk, hdrop⟩ := ih
      refine ⟨k, ?_, ?_⟩
      · change (if near[next].2 < lo then skip near lo (next + 1) else _) = _
        rw [if_pos hlo, hk]
      · rw [hdrop, List.dropWhile_cons_of_pos (by simpa using hlo)]
    · refine ⟨next, if_neg hlo, ?_⟩
      rw [List.dropWhile_cons_of_neg (by simpa using hlo), List.drop_eq_getElem_cons hlt]
  | case2 next hge =>
    refine ⟨next, rfl, ?_⟩
    rw [List.drop_eq_nil_of_le (Nat.le_of_not_lt hge)]
    rfl

/-- Of intervals, what is found out is what those that are left say. -/
theorem touch_eq (near : List (Nat × Nat)) (r : Interval) (next : Nat) :
    ∃ hit k, touch near r next = .ok (hit, k) ∧
      ∀ is : List Interval, is.map Interval.ends = near →
        is.drop k = ((is.drop next).dropWhile fun s => s.hi < r.lo) ∧
          hit = Fence.reaches (is.drop k) r.hi := by
  obtain ⟨k, hk, hdrop⟩ := skip_eq near r.lo next
  have hleft : ∀ is : List Interval, is.map Interval.ends = near →
      is.drop k = (is.drop next).dropWhile fun s => s.hi < r.lo := by
    rintro is rfl
    rw [← List.map_drop, ← List.map_drop, List.dropWhile_map] at hdrop
    exact List.map_injective_iff.2 Interval.ends_injective hdrop
  unfold touch
  rw [hk]
  by_cases hlt : k < near.length
  · refine ⟨near[k].1 ≤ r.hi, k, ?_, fun is his => ⟨hleft is his, ?_⟩⟩
    · change (if k < near.length then _ else _) = _
      rw [if_pos hlt, entry_eq_ok (List.getElem?_eq_getElem hlt)]
      rfl
    · subst his
      rw [List.length_map] at hlt
      rw [List.drop_eq_getElem_cons hlt, List.getElem_map]
      rfl
  · refine ⟨false, k, if_neg hlt, fun is his => ⟨hleft is his, ?_⟩⟩
    subst his
    rw [List.length_map] at hlt
    rw [List.drop_eq_nil_of_le (Nat.le_of_not_lt hlt)]
    rfl

theorem touch_between (near : List (Nat × Nat)) {lo hi : Nat} (h : lo ≤ hi) (next : Nat) :
    ∃ hit k, touch near (.between lo hi) next = .ok (hit, k) ∧
      ∀ is : List Interval, is.map Interval.ends = near →
        is.drop k = ((is.drop next).dropWhile fun s => s.hi < lo) ∧
          hit = Fence.reaches (is.drop k) hi := by
  have htouch := touch_eq near (.between lo hi) next
  rwa [Interval.between_lo, Interval.between_hi, min_eq_left h, max_eq_right h] at htouch

end Ranges

namespace Document

theorem finds_openersLast (d : Document) (near : List (Nat × Nat)) (last next : Nat)
    {opened : Option Nat} (ho : ∀ start ∈ opened, start ≤ d.size) :
    Ranges.Finds near (fun is => Fence.scan d.size last (is.drop next) opened [])
      (d.openersLast near opened next) := by
  cases opened with
  | none => exact ⟨[], rfl, fun _ _ => rfl⟩
  | some start =>
    obtain ⟨hit, k, htouch, his⟩ := Ranges.touch_between near (ho start rfl) next
    refine ⟨if hit then [start] else [], ?_, fun is h => ?_⟩
    · unfold openersLast
      simp only [htouch]
      rfl
    · rw [(his is h).2, (his is h).1]
      rfl

/-- Reading on from a line never fails, and near intervals it is scanning the lines left. -/
theorem finds_openersFrom (t : Text) (near : List (Nat × Nat)) (last : Nat) {rest : List Line}
    (opened : Option Nat) (next index : Nat) (hrest : (ofText t).lines.drop index = rest)
    (ho : ∀ start ∈ opened, start ≤ Text.size t ∧ ∀ l ∈ rest, start ≤ l.start) :
    Ranges.Finds near (fun is => Fence.scan (Text.size t) last (is.drop next) opened rest)
      ((ofText t).openersFrom near last opened next index) := by
  induction rest generalizing opened next index with
  | nil =>
    have hge : ¬ index < (ofText t).lineCount := by
      rw [← length_lines]
      exact Nat.not_lt.2 (List.drop_eq_nil_iff.1 hrest)
    rw [openersFrom, if_neg hge]
    exact finds_openersLast _ near last next fun start h => (ho start h).1
  | cons l rest ih =>
    have hlen : index < (ofText t).lines.length := by
      apply Nat.lt_of_not_le
      intro hle
      rw [List.drop_eq_nil_of_le hle] at hrest
      exact List.cons_ne_nil l rest hrest.symm
    have hlt : index < (ofText t).lineCount := length_lines t ▸ hlen
    rw [List.drop_eq_getElem_cons hlen, List.cons_eq_cons] at hrest
    obtain ⟨hl, hrest⟩ := hrest
    have hmem : l ∈ (ofText t).lines := hl ▸ List.getElem_mem hlen
    have hline : (ofText t).line index = .ok (some l) := by
      rw [line_eq, line?, List.getElem?_eq_getElem hlen, hl]
    have hbounds := line_bounds hmem
    rw [openersFrom, if_pos hlt, hline]
    cases opened with
    | some start =>
      obtain ⟨hsize, hback⟩ := ho start rfl
      have hle : start ≤ l.stop := (hback l List.mem_cons_self).trans hbounds.1
      by_cases hc : Fence.closes l.text
      · obtain ⟨hit, k, htouch, his⟩ := Ranges.touch_between near hle next
        obtain ⟨os, hos, hscan⟩ := ih none k (index + 1) hrest (by simp)
        refine ⟨if hit then start :: os else os, ?_, fun is h => ?_⟩
        · simp only [bind, Except.bind, hc, if_true, htouch, hos]
          rfl
        · rw [hscan is h, (his is h).2]
          simp only [(his is h).1, Fence.scan, hc, if_true]
      · obtain ⟨os, hos, hscan⟩ := ih (some start) next (index + 1) hrest fun s hs =>
          (Option.some.inj hs) ▸ ⟨hsize, fun k hk => hback k (List.mem_cons_of_mem l hk)⟩
        refine ⟨os, ?_, fun is h => ?_⟩
        · simp only [bind, Except.bind, hc, hos]
          rfl
        · rw [hscan is h]
          simp only [Fence.scan, hc]
          rfl
    | none =>
      have hafter : ∀ k ∈ rest, l.start ≤ k.start := by
        have hp := (lines_pairwise t).drop (i := index)
        rw [List.drop_eq_getElem_cons hlen, hl, hrest] at hp
        intro k hk
        exact l.mark.start_le_stop.trans ((List.pairwise_cons.1 hp).1 k hk).le
      obtain ⟨os, hos, hscan⟩ := ih none next (index + 1) hrest (by simp)
      obtain ⟨os', hos', hscan'⟩ := ih (some l.start) next (index + 1) hrest fun s hs =>
        (Option.some.inj hs) ▸ ⟨hbounds.1.trans hbounds.2, hafter⟩
      refine ⟨if last < l.start then [] else if (Fence.tag? l.text).isSome then os' else os, ?_,
        fun is h => ?_⟩
      · simp only [bind, Except.bind, hos, hos']
        split_ifs <;> rfl
      · rw [hscan is h, hscan' is h]
        rfl

theorem finds_openersNear (t : Text) (near : List (Nat × Nat)) :
    Ranges.Finds near (ofText t).openers ((ofText t).openersNear near) := by
  unfold openersNear
  cases hlast : near.getLast? with
  | none =>
    refine ⟨[], rfl, fun is h => ?_⟩
    rw [← h, List.getLast?_map, Option.map_eq_none_iff] at hlast
    rw [openers, hlast]
  | some last =>
    obtain ⟨os, hos, hscan⟩ := finds_openersFrom t near last.2 none 0 0 rfl (by simp)
    refine ⟨os, hos, fun is h => ?_⟩
    rw [← h, List.getLast?_map, Option.map_eq_some_iff] at hlast
    obtain ⟨r, hr, rfl⟩ := hlast
    rw [openers, hr]
    exact hscan is h

theorem piece_revise (d : Document) (r : Revision) :
    ∃ w, d.text.piece (d.revise r).2.start (d.revise r).2.oldEnd = .ok w := by
  have happly : ∀ a b s, ∃ w,
      d.text.piece (d.apply a b s).2.start (d.apply a b s).2.oldEnd = .ok w := by
    intro a b s
    rw [apply_eq]
    exact ⟨_, if_pos ⟨Text.floor_mono d.text (min_le_right a b),
      Text.isBoundary_floor d.text _, Text.isBoundary_floor d.text _⟩⟩
  cases r with
  | replace a b text => exact happly a b text
  | insert pos text => exact happly pos pos text
  | delete a b => exact happly a b []

def new (t? : Option Text) : Document := t?.elim default ofText

theorem made_new (t? : Option Text) : (new t?).Made := by
  cases t? with
  | none => exact .default
  | some t => exact .ofText t

theorem Made.reviseAll {d : Document} (h : d.Made) (rs : List Revision) :
    (d.reviseAll rs).Made := by
  induction rs generalizing d with
  | nil => exact h
  | cons r rs ih =>
    apply ih
    cases r with
    | replace a b text => exact h.apply a b text
    | insert pos text => exact h.apply pos pos text
    | delete a b => exact h.apply a b []

theorem Made.line_eq {d : Document} (h : d.Made) (i : Nat) : d.line i = .ok (d.line? i) := by
  rcases h.eq_default_or_ofText with rfl | ⟨t, rfl⟩
  · rfl
  · exact Document.line_eq t i

theorem Made.lineCount_eq {d : Document} (h : d.Made) : d.lineCount = d.lines.length := by
  rcases h.eq_default_or_ofText with rfl | ⟨t, rfl⟩
  · rfl
  · exact (length_lines t).symm

theorem finds_default (near : List (Nat × Nat)) :
    Ranges.Finds near (default : Document).openers ((default : Document).openersNear near) := by
  refine ⟨[], ?_, fun is _ => ?_⟩
  · unfold openersNear
    cases near.getLast? with
    | none => rfl
    | some last =>
      dsimp only
      rw [openersFrom]
      rfl
  · unfold openers
    cases is.getLast? with
    | none => rfl
    | some last => rfl

theorem Made.finds_openersNear {d : Document} (h : d.Made) (near : List (Nat × Nat)) :
    Ranges.Finds near d.openers (d.openersNear near) := by
  rcases h.eq_default_or_ofText with rfl | ⟨t, rfl⟩
  · exact finds_default near
  · exact Document.finds_openersNear t near

/-- A document without an index has no line that could be found. -/
theorem lineAt_default (o : Nat) : (default : Document).lineAt o = .error .negative := by
  have hcount : partitionPoint (· ≤ min o (default : Document).size)
      (default : Document).starts = 0 := partitionPoint_eq_length .nil
  unfold lineAt
  dsimp only
  rw [hcount]
  rfl

theorem lineAt_reviseAll (t? : Option Text) (rs : List Revision) (o : Nat) :
    let d := (new t?).reviseAll rs
    (d.lineAt o = .ok (d.lineAt! o) ↔ t?.isSome ∨ rs ≠ []) ∧
      (d.lineAt o = .error .negative ↔ t? = none ∧ rs = []) := by
  intro d
  by_cases h : t?.isSome ∨ rs ≠ []
  · obtain ⟨t, ht⟩ : ∃ t, d = ofText t := by
      apply exists_reviseAll
      refine h.imp_left fun hsome => ?_
      obtain ⟨t, rfl⟩ := Option.isSome_iff_exists.1 hsome
      exact ⟨t, rfl⟩
    have hnot : ¬ (t? = none ∧ rs = []) := by
      rintro ⟨rfl, rfl⟩
      simp at h
    rw [ht, lineAt_eq]
    simp [h, hnot]
  · obtain ⟨rfl, rfl⟩ : t? = none ∧ rs = [] := by simpa using h
    have hask : d.lineAt o = .error .negative := lineAt_default o
    simp [hask]

/-- Whatever document there is and whatever changes have been made of it, what a change replaces
begins and ends between characters, and every question but one is answered, at whatever offsets,
numbers and ranges, without a check that fails: for a line, for the text between two offsets, for a
byte, for the number of lines and for the fences that open near some ranges. The line at an offset
is answered as well, unless the document has been made without a text and not been changed: then
no line starts anywhere, and one is taken away from their number. -/
theorem asking_in_bounds_iff (t? : Option Text) (rs : List Revision) :
    let d := (new t?).reviseAll rs
    ((∀ r, ∃ w, d.text.piece (d.revise r).2.start (d.revise r).2.oldEnd = .ok w) ∧
      (∀ i, d.line i = .ok (d.line? i)) ∧
      (∀ lo hi, d.textBetween lo hi = .ok (d.text.slice lo hi)) ∧
      (∀ o, d.byteAt o = d.text.bytes[o]?) ∧ d.lineCount = d.lines.length ∧
      (∀ near, ∃ os, d.openersNear near = .ok os) ∧
      ∀ near : List Interval, d.openersNear (near.map Interval.ends) = .ok (d.openers near)) ∧
    ∀ o, (d.lineAt o = .ok (d.lineAt! o) ↔ t?.isSome ∨ rs ≠ []) ∧
      (d.lineAt o = .error .negative ↔ t? = none ∧ rs = []) := by
  intro d
  have hmade : d.Made := (made_new t?).reviseAll rs
  have hcount : d.lineCount = d.lines.length := hmade.lineCount_eq
  refine ⟨⟨piece_revise d, hmade.line_eq, textBetween_eq d, Text.byteAt_eq_getElem? d.text, hcount,
    ?_, ?_⟩, lineAt_reviseAll t? rs⟩
  · intro near
    obtain ⟨os, hos, -⟩ := hmade.finds_openersNear near
    exact ⟨os, hos⟩
  · intro near
    obtain ⟨os, hos, hopeners⟩ := hmade.finds_openersNear (near.map Interval.ends)
    rw [hos, hopeners near rfl]

/-- A document made without a text has not even the one line of an empty text. -/
theorem lineAt_unindexed : (new none).lineAt 0 = .error .negative ∧
    (new none).lineCount = 0 ∧ (new (some [])).lineAt 0 = .ok ⟨0, 0, 0, []⟩ := by
  refine ⟨lineAt_default 0, rfl, ?_⟩
  exact lineAt_eq [] 0

end Document

end FencedCode
