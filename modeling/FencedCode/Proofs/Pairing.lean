import FencedCode.Proofs.Untouched

namespace FencedCode

namespace Decoration

/-- The decoration begins in the body of a region of some fence lines. -/
def RootedIn (fs : List Mark) (d : Decoration) : Prop :=
  ∃ r ∈ Region.pair none fs, r.opener.stop < d.start ∧ ∀ c, r.closer = some c → d.start < c.start

/-- An edit that avoids the fence lines leaves a decoration in the body it begins in. -/
theorem RootedIn.map {fs : List Mark} {e : Edit} (he : e.Ordered)
    (ha : ∀ m ∈ fs, e.Avoids m.start m.stop) {d d' : Decoration} (hd : d.start < d.stop)
    (hmap : d.map? e = some d') (h : d.RootedIn fs) : d'.RootedIn (fs.map (·.moved e)) := by
  obtain ⟨r, hr, hopen, hclose⟩ := h
  have hpair := Region.pair_map (·.moved e) (fun m => m.moved_text e) none fs
  have hord : e.start ≤ e.oldEnd ∧ e.start ≤ e.newEnd := he
  refine ⟨⟨r.opener.moved e, r.closer.map (·.moved e)⟩, ?_, ?_, fun c' hc' => ?_⟩
  · rw [Option.map_none] at hpair
    rw [hpair]
    exact List.mem_map_of_mem hr
  · have hao := ha _ ((Region.opener_mem hr).resolve_left (by simp))
    have := r.opener.start_le_stop
    rw [Mark.moved_stop hao he]
    unfold Edit.Avoids at hao
    unfold Edit.move
    rcases map?_eq_some hd hmap with ⟨h1, rfl⟩ | ⟨h1, h2, h3, -⟩ <;> split_ifs <;> omega
  · obtain ⟨c, hc, rfl⟩ := Option.map_eq_some_iff.1 hc'
    have hac := ha _ (Region.closer_mem hr hc)
    have hlt := hclose c hc
    have := c.start_le_stop
    rw [Mark.moved_start]
    unfold Edit.Avoids at hac
    unfold Edit.move
    rcases map?_eq_some hd hmap with ⟨h1, rfl⟩ | ⟨h1, h2, h3, -⟩ <;> split_ifs <;> omega

end Decoration

variable {t t' : Text} {es : List Edit}

namespace Tracked

/-- Some fence lines, tracked by their spans. -/
def Tracks (T : Tracked) (fs : List Mark) : Prop :=
  ∃ gs, T.fences = some gs ∧ ∀ i, i ∈ gs ↔ ∃ m ∈ fs, m.span = i

theorem structural_of_edits {T : Tracked} (h : (es.foldl Tracked.edit T).structural = false) :
    T.structural = false := by
  induction es generalizing T with
  | nil => exact h
  | cons e es ih =>
    have := ih h
    simp only [edit, Bool.or_eq_false_iff] at this
    exact this.1

theorem Tracks.edit {T : Tracked} {fs : List Mark} {e : Edit} (he : e.Ordered) (h : T.Tracks fs)
    (hs : (T.edit e).structural = false) :
    (∀ m ∈ fs, e.Avoids m.start m.stop) ∧ (T.edit e).Tracks (fs.map (·.moved e)) := by
  obtain ⟨gs, hgs, hmem⟩ := h
  have havoid : ∀ m ∈ fs, e.Avoids m.start m.stop := by
    intro m hm
    have hin := (hmem m.span).2 ⟨m, hm, rfl⟩
    simp only [Tracked.edit, hgs, Bool.or_eq_false_iff, Option.any_some, List.any_eq_false] at hs
    rw [← m.span_lo, ← m.span_hi]
    exact Edit.touches_eq_false_iff.1 (Bool.not_eq_true _ ▸ hs.2 _ hin)
  refine ⟨havoid, (gs.filter fun f => !e.touches f).map e.mapInterval, by
    rw [Tracked.edit, hgs]; rfl, fun i => ?_⟩
  have huntouched : ∀ m ∈ fs, e.touches m.span = false := by
    intro m hm
    rw [Edit.touches_eq_false_iff, m.span_lo, m.span_hi]
    exact havoid m hm
  simp only [List.mem_map, List.mem_filter, hmem]
  constructor
  · rintro ⟨_, ⟨⟨m, hm, rfl⟩, -⟩, rfl⟩
    exact ⟨_, ⟨m, hm, rfl⟩, Mark.moved_span (havoid m hm) he⟩
  · rintro ⟨_, ⟨m, hm, rfl⟩, rfl⟩
    exact ⟨m.span, ⟨⟨m, hm, rfl⟩, by rw [huntouched m hm]; rfl⟩,
      (Mark.moved_span (havoid m hm) he).symm⟩

/-- As long as nothing was structural the tracked fence lines have been avoided, are still fence
lines, and hold the decorations in their regions. -/
theorem Tracks.edits (hs : Splices t es t') {T : Tracked} {fs : List Mark} (h : T.Tracks fs)
    (hfs : ∀ m ∈ fs, m ∈ Text.fences t) (hst : (es.foldl Tracked.edit T).structural = false)
    (hw : DecorationSet.WellFormed (Text.size t) T.decorations)
    (hroot : ∀ d ∈ T.decorations, d.RootedIn fs) :
    (es.foldl Tracked.edit T).Tracks (fs.map (·.movedAll es)) ∧
      (∀ m ∈ fs, Edit.AvoidAll es m.start m.stop ∧ m.movedAll es ∈ Text.fences t') ∧
        ∀ d ∈ (es.foldl Tracked.edit T).decorations, d.RootedIn (fs.map (·.movedAll es)) := by
  induction hs generalizing T fs with
  | nil =>
    have hid : fs.map (·.movedAll []) = fs := List.map_id' fs
    rw [hid]
    exact ⟨h, fun m hm => ⟨trivial, hfs m hm⟩, hroot⟩
  | @cons _ t₁ _ e es hs _ ih =>
    have he := hs.ordered
    obtain ⟨havoid, htracks⟩ := h.edit he (structural_of_edits hst)
    have hmoved : ∀ m ∈ fs.map (·.moved e), m ∈ Text.fences t₁ := by
      intro m' hm'
      obtain ⟨m, hm, rfl⟩ := List.mem_map.1 hm'
      obtain ⟨hmark, hc⟩ := Text.mem_fences.1 (hfs m hm)
      exact Text.mem_fences.2 ⟨hs.moved_mem_marks hmark (havoid m hm), hc⟩
    obtain ⟨h1, h2, h3⟩ := ih htracks hmoved hst (hw.map hs) fun d' hd' => by
      obtain ⟨d, hd, hmap⟩ := List.mem_filterMap.1 hd'
      exact (hroot d hd).map he havoid (hw.bounds d hd).1 hmap
    have hcomp : (fs.map (·.moved e)).map (·.movedAll es) = fs.map (·.movedAll (e :: es)) := by
      rw [List.map_map]
      rfl
    rw [hcomp] at h1 h3
    refine ⟨h1, fun m hm => ?_, h3⟩
    obtain ⟨hav, hin⟩ := h2 _ (List.mem_map_of_mem hm)
    rw [Mark.moved_stop (havoid m hm) he] at hav
    exact ⟨⟨havoid m hm, hav⟩, hin⟩

/-- With every fence line of the new text among the tracked ones, the fence lines are those of
before. -/
theorem fences_eq_map (hs : Splices t es t')
    (hold : ∀ m ∈ Text.fences t,
      Edit.AvoidAll es m.start m.stop ∧ m.movedAll es ∈ Text.fences t')
    (hnew : ∀ m ∈ Text.fences t', ∃ n ∈ Text.fences t, (n.movedAll es).span = m.span) :
    Text.fences t' = (Text.fences t).map (·.movedAll es) := by
  have hirrefl : Std.Irrefl fun m n : Mark => m.start < n.start := ⟨fun m => lt_irrefl m.start⟩
  have hanti : Std.Antisymm fun m n : Mark => m.start < n.start :=
    ⟨fun m n h1 h2 => absurd h1 h2.le.not_gt⟩
  have hsorted : (Text.fences t').Pairwise fun m n => m.start < n.start :=
    (Text.fences_pairwise t').imp fun {m n} h => m.start_le_stop.trans_lt h
  have hmoved : ((Text.fences t).map (·.movedAll es)).Pairwise fun m n => m.start < n.start := by
    refine List.pairwise_map.2 ((Text.fences_pairwise t).imp_of_mem fun {m n} hm hn h => ?_)
    have hlt : m.start < n.start := m.start_le_stop.trans_lt h
    have hle := hs.moves_mono hlt.le
    apply lt_of_le_of_ne hle
    intro heq
    have hm' := hs.avoidAll_mono (hold m hm).1 le_rfl le_rfl m.start_le_stop
    have hn' := hs.avoidAll_mono (hold n hn).1 le_rfl le_rfl n.start_le_stop
    exact hlt.ne (hs.moves_inj hm' hn' heq)
  -- both lists are in order, so it is enough that they have the same members
  refine List.Pairwise.eq_of_mem_iff hsorted hmoved fun m => ⟨fun hm => ?_, fun hm => ?_⟩
  · obtain ⟨n, hn, hspan⟩ := hnew m hm
    have hlo := congrArg Interval.lo hspan
    rw [Mark.span_lo, Mark.span_lo] at hlo
    have hin := (hold n hn).2
    have heq : n.movedAll es = m := Text.mark_unique (Text.mem_fences.1 hin).1
      (Text.mem_fences.1 hm).1 ⟨le_rfl, (n.movedAll es).start_le_stop⟩
      ⟨hlo.ge, hlo.le.trans m.start_le_stop⟩
    exact heq ▸ List.mem_map_of_mem hn
  · obtain ⟨n, hn, rfl⟩ := List.mem_map.1 hm
    exact (hold n hn).2

end Tracked

/-- Both texts begin alike up to every offset that comes before all dirt. -/
def Shared (t t' : Text) (dirty : List Interval) : Prop :=
  ∃ x y y' : Text, t = x ++ y ∧ t' = x ++ y' ∧
    ∀ pos ≤ Text.size t', (∀ r ∈ dirty, pos ≤ r.lo) → pos ≤ Text.size x

theorem Shared.edit {t₀ : Text} {T : Tracked} {e : Edit} (h : Shared t₀ t T.dirty)
    (hs : Splice t e t') : Shared t₀ t' (T.edit e).dirty := by
  have he := hs.ordered
  obtain ⟨x, y, y₁, rfl, rfl, hx⟩ := h
  obtain ⟨x', old, new, z, ht, rfl, rfl⟩ := hs
  have hstart : ∀ pos, (∀ r ∈ (T.edit ⟨Text.size x', Text.size x' + Text.size old,
      Text.size x' + Text.size new⟩).dirty, pos ≤ r.lo) → pos ≤ Text.size x' := by
    intro pos hpos
    have := hpos _ (List.mem_append_right _ List.mem_cons_self)
    rwa [(Edit.newRange_bounds he).1] at this
  -- the shared part ends before the edit, or the edit cuts it short
  by_cases hle : Text.size x ≤ Text.size x'
  · rw [List.append_assoc] at ht
    obtain ⟨w, rfl, hw⟩ := Text.append_eq_append_of_size_le ht hle
    refine ⟨x, y, w ++ new ++ z, rfl, by simp, fun pos _ hpos => ?_⟩
    have hpos' := hstart pos hpos
    refine hx pos ?_ fun r hr => ?_
    · rw [hw]
      simp only [Text.size_append] at hpos' ⊢
      omega
    · by_contra hlt
      have := hpos _ (List.mem_append_left _ (List.mem_map_of_mem hr))
      rw [Edit.mapInterval_lo he, Edit.mapPos, if_pos (show r.lo < _ by dsimp only; omega)] at this
      omega
  · rw [List.append_assoc] at ht
    obtain ⟨w, rfl, hw⟩ := Text.append_eq_append_of_size_le ht.symm (by omega)
    exact ⟨x', w ++ y, new ++ z, by simp, by simp, fun pos _ hpos => hstart pos hpos⟩

theorem Shared.edits {t₀ : Text} (hs : Splices t es t') {T : Tracked} (h : Shared t₀ t T.dirty) :
    Shared t₀ t' (es.foldl Tracked.edit T).dirty := by
  induction hs generalizing T with
  | nil => exact h
  | cons hs _ ih => exact ih (h.edit hs)

/-- Above the line of the first dirt both texts have the same lines. -/
theorem Shared.exists_newline {dirty : List Interval} (h : Shared t t' dirty) {m : Mark}
    (hm : m ∈ Text.marks t') (h0 : 0 < m.start) (hd : ∀ r ∈ dirty, m.start ≤ r.lo) :
    ∃ u v v', t = u ++ '\n' :: v ∧ t' = u ++ '\n' :: v' ∧ Text.size u + 1 = m.start := by
  obtain ⟨x, y, y', rfl, rfl, hx⟩ := h
  obtain ⟨u, v', ht', hu⟩ := Text.exists_newline_before hm h0
  have hle : m.start ≤ Text.size x :=
    hx m.start (m.start_le_stop.trans (Text.stop_le_of_mem_marks hm)) hd
  have hnl : Text.size ['\n'] = 1 := rfl
  have hcut : (u ++ ['\n']) ++ v' = x ++ y' := by rw [ht']; simp
  obtain ⟨w, rfl, -⟩ := Text.append_eq_append_of_size_le hcut (by
    rw [Text.size_append, hnl, hu]
    exact hle)
  exact ⟨u, w ++ y, v', by simp, ht', hu⟩

namespace Tracked

/-- A decoration that begins before all dirt was there from the start. -/
theorem mem_or_behind (hs : Splices t es t') {D : List Decoration} {T : Tracked}
    (hw : DecorationSet.WellFormed (Text.size t) T.decorations)
    (h : ∀ d ∈ T.decorations, d ∈ D ∨ ∃ r ∈ T.dirty, r.lo ≤ d.start) :
    ∀ d ∈ (es.foldl Tracked.edit T).decorations,
      d ∈ D ∨ ∃ r ∈ (es.foldl Tracked.edit T).dirty, r.lo ≤ d.start := by
  induction hs generalizing T with
  | nil => exact h
  | @cons _ _ _ e es hs _ ih =>
    have he := hs.ordered
    have hord : e.start ≤ e.oldEnd ∧ e.start ≤ e.newEnd := he
    apply ih (T := T.edit e) (hw.map hs)
    intro d' hd'
    obtain ⟨d, hd, hmap⟩ := List.mem_filterMap.1 hd'
    have hlt := (hw.bounds d hd).1
    -- before the edit it stays, and behind it the edit itself is dirt that comes first
    rcases Decoration.map?_eq_some hlt hmap with ⟨h1, rfl⟩ | ⟨h1, h2, -, -⟩
    · apply (h d' hd).imp_right
      rintro ⟨r, hr, hle⟩
      refine ⟨_, List.mem_append_left _ (List.mem_map_of_mem hr), ?_⟩
      rw [Edit.mapInterval_lo he, Edit.mapPos, if_pos (by omega)]
      exact hle
    · refine .inr ⟨e.newRange, List.mem_append_right _ List.mem_cons_self, ?_⟩
      rw [(Edit.newRange_bounds he).1]
      omega

theorem eq_or_behind (hs : Splices t es t') {T : Tracked} {p q : Nat}
    (ha : Edit.AvoidAll es q q) (h : q = p ∨ ∃ r ∈ T.dirty, r.lo ≤ q) :
    Edit.moves es q = p ∨ ∃ r ∈ (es.foldl Tracked.edit T).dirty, r.lo ≤ Edit.moves es q := by
  induction hs generalizing T q with
  | nil => exact h
  | @cons _ _ _ e es hs _ ih =>
    have he := hs.ordered
    have hord : e.start ≤ e.oldEnd ∧ e.start ≤ e.newEnd := he
    obtain ⟨hav, hrest⟩ := ha
    rw [Edit.moves_cons]
    refine ih (T := T.edit e) (q := e.move q) hrest ?_
    by_cases hq : q < e.start
    · have hmove : e.move q = q := if_pos hq
      rw [hmove]
      apply h.imp_right
      rintro ⟨r, hr, hle⟩
      refine ⟨_, List.mem_append_left _ (List.mem_map_of_mem hr), ?_⟩
      rw [Edit.mapInterval_lo he, Edit.mapPos, if_pos (by omega)]
      exact hle
    · refine .inr ⟨e.newRange, List.mem_append_right _ List.mem_cons_self, ?_⟩
      have hmove : e.move q = q - e.oldEnd + e.newEnd := if_neg hq
      rw [(Edit.newRange_bounds he).1, hmove]
      omega

end Tracked

end FencedCode
