import FencedCode.Proofs.Session
import FencedCode.Proofs.Stretches

namespace FencedCode

open FencedCode.Interval (Spaced)

namespace Document

def fenceSpans (d : Document) : List Interval :=
  (d.lines.filter fun l => Fence.closes l.text).map fun l => .between l.start l.stop

variable {t : Text}

theorem fenceSpans_ofText (t : Text) : (ofText t).fenceSpans = (Text.fences t).map (·.span) := by
  rw [fenceSpans, Text.fences, ← map_mark_lines, List.filter_map, List.map_map]
  refine List.map_congr_left fun l hl => ?_
  rw [stop_eq_mark_stop (List.mem_filter.1 hl).1]
  rfl

theorem mem_fenceSpans {i : Interval} :
    i ∈ (ofText t).fenceSpans ↔ ∃ m ∈ Text.fences t, m.span = i := by
  rw [fenceSpans_ofText, List.mem_map]

theorem fenceSpans_spaced (t : Text) : Spaced (ofText t).fenceSpans := by
  rw [fenceSpans_ofText]
  refine List.pairwise_map.2 ((Text.fences_pairwise t).imp fun {m n} h => ?_)
  rwa [m.span_hi, n.span_lo]

theorem fenceLines_sublist (d : Document) (r : Interval) :
    (d.fenceLines r).Sublist d.fenceSpans :=
  (((List.take_sublist _ _).trans (List.drop_sublist _ _)).filter _).map _

theorem fenceLines_all (t : Text) :
    (ofText t).fenceLines (ofText t).all = (ofText t).fenceSpans :=
  Spaced.eq_of_mem_iff ((fenceSpans_spaced t).sublist (fenceLines_sublist _ _))
    (fenceSpans_spaced t) fun _ => mem_fenceLines_all.trans mem_fenceSpans.symm

theorem ends_of_mem_wholeLines {rs : List Interval} {r : Interval}
    (h : r ∈ (ofText t).wholeLines rs) :
    (∃ m ∈ Text.marks t, m.start = r.lo) ∧ ∃ m ∈ Text.marks t, m.stop = r.hi := by
  have hline : ∀ s : Interval,
      ((ofText t).lineAt! s.lo).start ≤ ((ofText t).lineAt! s.hi).stop := by
    intro s
    have := s.lo_le_hi
    obtain ⟨-, h1, -⟩ := lineAt_spec t s.lo
    obtain ⟨-, -, h2⟩ := lineAt_spec t s.hi
    omega
  obtain ⟨⟨p, hp, hlo⟩, q, hq, hhi⟩ := Interval.ends_of_mem_normalize h
  obtain ⟨a, -, rfl⟩ := List.mem_map.1 hp
  obtain ⟨b, -, rfl⟩ := List.mem_map.1 hq
  obtain ⟨ha, -⟩ := lineAt_spec t a.lo
  obtain ⟨hb, -⟩ := lineAt_spec t b.hi
  rw [Interval.between_lo, min_eq_left (hline a)] at hlo
  rw [Interval.between_hi, max_eq_right (hline b), stop_eq_mark_stop hb] at hhi
  exact ⟨⟨_, mark_mem_marks ha, hlo⟩, _, mark_mem_marks hb, hhi⟩

/-- The fence lines found on edited lines are in order: no line belongs to two edited stretches. -/
theorem found_spaced (t : Text) (rs : List Interval) :
    Spaced (((ofText t).wholeLines rs).flatMap (ofText t).fenceLines) := by
  refine List.pairwise_flatMap.2
    ⟨fun r _ => (fenceSpans_spaced t).sublist (fenceLines_sublist _ r), ?_⟩
  refine (Interval.normalize_pairwise _).imp_of_mem fun {r s} hr hs hlt i hi j hj => ?_
  obtain ⟨m, hm, rfl, hmr, -⟩ := mem_fenceLines.1 hi
  obtain ⟨n, hn, rfl, -, hns⟩ := mem_fenceLines.1 hj
  obtain ⟨-, k, hk, hkr⟩ := ends_of_mem_wholeLines hr
  obtain ⟨⟨l, hl, hls⟩, -⟩ := ends_of_mem_wholeLines hs
  have hlsize := Text.stop_le_of_mem_marks hl
  have := k.start_le_stop
  have := l.start_le_stop
  have := n.start_le_stop
  rw [m.span_hi, n.span_lo]
  -- the first line ends in its stretch, and the second begins in its own
  have hfirst : m.stop ≤ r.hi := by
    rcases pairwise_trichotomy (Text.marks_pairwise t) (Text.mem_fences.1 hm).1 hk with h | h | h
    · rw [h, hkr]
    · omega
    · omega
  have hsecond : s.lo ≤ n.start := by
    rcases pairwise_trichotomy (Text.marks_pairwise t) (Text.mem_fences.1 hn).1 hl with h | h | h
    · rw [h, hls]
    · omega
    · omega
  omega

theorem refence_spaced {rs : List Interval} {fences : Option (List Interval)}
    (hspaced : ∀ fs, fences = some fs → Spaced fs)
    (hsub : ∀ fs, fences = some fs → ∀ i ∈ fs, ∃ m ∈ Text.fences t, m.span = i) :
    Spaced (Highlighter.refence (ofText t) ((ofText t).wholeLines rs) fences).1 := by
  cases fences with
  | none => exact (fenceSpans_spaced t).sublist (fenceLines_sublist _ _)
  | some fs =>
    set edited := (ofText t).wholeLines rs with hed
    have hkept : Spaced (fs.filter fun f => !edited.any (·.intersects f)) :=
      (hspaced fs rfl).filter _
    have hfound : Spaced (edited.flatMap (ofText t).fenceLines) := found_spaced t rs
    -- a line that was kept is not one that was found, so the two lie apart
    have hapart : ∀ i ∈ fs.filter fun f => !edited.any (·.intersects f),
        ∀ j ∈ edited.flatMap (ofText t).fenceLines, i.hi < j.lo ∨ j.hi < i.lo := by
      intro i hi j hj
      obtain ⟨hi, hout⟩ := List.mem_filter.1 hi
      obtain ⟨m, hm, rfl⟩ := hsub fs rfl i hi
      obtain ⟨n, hn, rfl, hin⟩ := (mem_found (hed ▸ wholeLines_hi_le)).1 hj
      rw [m.span_lo, m.span_hi, n.span_lo, n.span_hi]
      refine (pairwise_trichotomy (Text.fences_pairwise t) hm hn).resolve_left ?_
      rintro rfl
      rw [hin] at hout
      cases hout
    have hall : (fs.filter (fun f => !edited.any (·.intersects f)) ++
        edited.flatMap (ofText t).fenceLines).Pairwise fun i j => i.hi < j.lo ∨ j.hi < i.lo :=
      List.pairwise_append.2 ⟨hkept.imp .inl, hfound.imp .inl, hapart⟩
    have hsorted : (((fs.filter fun f => !edited.any (·.intersects f)) ++
        edited.flatMap (ofText t).fenceLines).mergeSort fun i j => decide (i.lo ≤ j.lo)).Pairwise
          fun i j => decide (i.lo ≤ j.lo) = true :=
      List.pairwise_mergeSort (by simp only [decide_eq_true_eq]; omega)
        (by simp only [Bool.or_eq_true, decide_eq_true_eq]; omega) _
    have hperm := (List.mergeSort_perm _ fun i j : Interval => decide (i.lo ≤ j.lo)).symm.pairwise
      hall fun h => h.symm
    refine (hsorted.and hperm).imp fun {i j} h => ?_
    obtain ⟨hle, hlt⟩ := h
    have hle := of_decide_eq_true hle
    have := j.lo_le_hi
    omega

end Document

namespace Tracked

variable {t t' : Text} {es : List Edit}

theorem spaced_edit {T : Tracked} {e : Edit} (he : e.Ordered)
    (h : ∀ fs, T.fences = some fs → Spaced fs) : ∀ fs, (T.edit e).fences = some fs → Spaced fs := by
  intro fs hfs
  obtain ⟨gs, hgs, rfl⟩ := Option.map_eq_some_iff.1 hfs
  refine List.pairwise_map.2 (((h gs hgs).filter _).imp_of_mem fun {r s} hr hs hlt => ?_)
  have hra := Edit.touches_eq_false_iff.1 (by simpa using (List.mem_filter.1 hr).2)
  have hsa := Edit.touches_eq_false_iff.1 (by simpa using (List.mem_filter.1 hs).2)
  rw [Edit.mapInterval_hi he, Edit.mapInterval_lo he,
    Edit.mapPos_eq_move (hra.mono r.lo_le_hi le_rfl) he,
    Edit.mapPos_eq_move (hsa.mono le_rfl s.lo_le_hi) he]
  have hrle := r.lo_le_hi
  have hsle := s.lo_le_hi
  have hord : e.start ≤ e.oldEnd ∧ e.start ≤ e.newEnd := he
  unfold Edit.Avoids at hra hsa
  unfold Edit.move
  split_ifs <;> omega

theorem spaced_edits (hs : Splices t es t') {T : Tracked}
    (h : ∀ fs, T.fences = some fs → Spaced fs) :
    ∀ fs, (es.foldl Tracked.edit T).fences = some fs → Spaced fs := by
  induction hs generalizing T with
  | nil => exact h
  | cons hs _ ih => exact ih (spaced_edit hs.ordered h)

/-- The fence lines and the dirt are tracked without regard to the rest. -/
theorem edits_congr (es : List Edit) {T U : Tracked} (hf : T.fences = U.fences)
    (hd : T.dirty = U.dirty) (hs : T.structural = U.structural) :
    (es.foldl Tracked.edit T).fences = (es.foldl Tracked.edit U).fences ∧
      (es.foldl Tracked.edit T).dirty = (es.foldl Tracked.edit U).dirty ∧
        (es.foldl Tracked.edit T).structural = (es.foldl Tracked.edit U).structural := by
  induction es generalizing T U with
  | nil => exact ⟨hf, hd, hs⟩
  | cons e es ih =>
    apply ih
    · simp only [edit, hf]
    · simp only [edit, hd]
    · simp only [edit, hf, hs]

end Tracked

namespace Highlighter

variable {σ : Type} {h : Highlighter σ} {t t' : Text} {es : List Edit}

/-- What the highlighter remembers of fence lines is all of them, in order. -/
def Remembers (h : Highlighter σ) (t : Text) : Prop :=
  ∀ fs, h.fences = some fs → fs = (Document.ofText t).fenceSpans

def blank (h : Highlighter σ) : Highlighter σ := { h with decorations := [], visible := none }

/-- An exact memory of fence lines is all that a highlighter needs to be sound once it is blank. -/
theorem Remembers.sound_blank (hr : h.Remembers t) : h.blank.Sound t := by
  refine ⟨fun fs hfs i => ?_, by simp [blank], DecorationSet.wellFormed_nil _, by simp [blank],
    by simp [blank]⟩
  rw [hr fs hfs]
  exact Document.mem_fenceSpans

/-- What is remembered does not depend on what is painted or in sight, nor does whether fence lines
may pair differently. -/
theorem refenced_blank (h : Highlighter σ) (es : List Edit) (t' : Text) :
    h.blank.refenced es t' = h.refenced es t' ∧ h.blank.repaired es t' = h.repaired es t' := by
  obtain ⟨hf, hd, hs⟩ :=
    Tracked.edits_congr es (T := h.blank.tracked) (U := h.tracked) rfl rfl rfl
  have hrefenced : h.blank.refenced es t' = h.refenced es t' := by
    unfold refenced after
    rw [hf, hd]
  refine ⟨hrefenced, ?_⟩
  unfold repaired after
  rw [hrefenced, hs]

/-- Edits keep the memory of fence lines exact, and begin it where there was none. -/
theorem Remembers.edit (hr : h.Remembers t) (hsp : Splices t es t') (hes : es ≠ []) :
    (h.edit (.ofText t') es).fences = some (Document.ofText t').fenceSpans := by
  have hsound := hr.sound_blank.after hsp
  have hspaced := Tracked.spaced_edits hsp (T := h.blank.tracked) fun fs hfs =>
    (hr fs hfs).symm ▸ Document.fenceSpans_spaced t
  have hindex := hr.sound_blank.edit hsp
  rw [edit_eq hes] at hindex ⊢
  rw [(reconcile_rest _ _ _).2.1]
  change some (h.refenced es t').1 = _
  rw [← (h.refenced_blank es t').1]
  refine congrArg some (Spaced.eq_of_mem_iff (Document.refence_spaced hspaced hsound.fences)
    (Document.fenceSpans_spaced t') fun i => ?_)
  rw [Document.mem_fenceSpans]
  exact hindex.fences _ (by rw [(reconcile_rest _ _ _).2.1]; rfl) i

theorem fences_scroll (h : Highlighter σ) (t : Text) (visible : List Interval) :
    (h.scroll (.ofText t) visible).fences =
      if h.visible = none then some (Document.ofText t).fenceSpans else h.fences := by
  unfold Highlighter.scroll
  dsimp only
  split
  · rename_i previous hprevious
    rw [(reconcile_rest _ _ _).2.1, if_neg (by simp [hprevious])]
  · rename_i hnone
    rw [(reconcile_rest _ _ _).2.1, if_pos hnone, Document.fenceLines_all]

theorem fences_refresh (h : Highlighter σ) (t : Text) :
    (h.refresh (.ofText t)).fences = h.fences :=
  (h.reconcile_rest t _).2.1

theorem fences_setTheme {theme : String} {h' : Highlighter σ}
    (hok : h.setTheme (.ofText t) theme = .ok h') : h'.fences = h.fences := by
  unfold Highlighter.setTheme at hok
  split at hok
  · cases hok
  · obtain rfl := Except.ok.inj hok
    exact fences_refresh _ t

theorem fences_configure (h : Highlighter σ) (t : Text) (aliases : Aliases) (theme : String) :
    (h.configure (.ofText t) aliases theme).1.fences = h.fences := by
  unfold Highlighter.configure
  dsimp only
  split_ifs
  · rfl
  · split
    · rename_i hok
      exact fences_setTheme (h := h.setAliases aliases) hok
    · rfl

theorem fences_processLoads (h : Highlighter σ) (t : Text) :
    (h.processLoads (.ofText t)).1.fences = h.fences := by
  unfold Highlighter.processLoads
  dsimp only
  split_ifs
  · exact fences_refresh _ t
  · rfl

end Highlighter

namespace Session

variable {σ : Type}

def Remembers (s : Session σ) : Prop := ∃ t, s.document = .ofText t ∧ s.highlighter.Remembers t

/-- Whatever happens, the memory of fence lines stays exact, and only closing empties it. -/
theorem Remembers.apply {s : Session σ} (hs : s.Remembers) (c : Change σ) :
    (s.apply c).Remembers ∧
      (s.highlighter.fences ≠ none → c ≠ .close → (s.apply c).highlighter.fences ≠ none) := by
  obtain ⟨t, hd, hr⟩ := hs
  obtain ⟨h, d⟩ := s
  obtain rfl : d = .ofText t := hd
  -- most changes do not concern the fence lines
  have hsame : ∀ k : Highlighter σ, k.fences = h.fences →
      Remembers ⟨k, .ofText t⟩ ∧ (h.fences ≠ none → c ≠ .close → k.fences ≠ none) := fun k hk =>
    ⟨⟨t, rfl, fun fs hfs => hr fs (hk ▸ hfs)⟩, fun hne _ => hk ▸ hne⟩
  have hnew : ∀ (k : Highlighter σ) (t' : Text),
      k.fences = some (Document.ofText t').fenceSpans →
        Remembers ⟨k, .ofText t'⟩ ∧ (h.fences ≠ none → c ≠ .close → k.fences ≠ none) :=
    fun k t' hk => ⟨⟨t', rfl, fun fs hfs => Option.some.inj (hfs.symm.trans hk)⟩, by simp [hk]⟩
  cases c with
  | attach visible =>
    exact hnew _ t (Highlighter.fences_scroll { h with visible := none } t visible)
  | scroll visible =>
    have hscroll := h.fences_scroll t visible
    split_ifs at hscroll
    · exact hnew _ t hscroll
    · exact hsame _ hscroll
  | edit replacements =>
    obtain ⟨t', es, heq, hsp⟩ := Document.exists_applyAll t replacements
    simp only [Session.apply, heq]
    by_cases hes : es = []
    · subst hes
      cases hsp
      exact hsame _ rfl
    · exact hnew _ t' (hr.edit hsp hes)
  | setTheme theme =>
    unfold Session.apply
    dsimp only
    split
    · rename_i hok
      exact hsame _ (Highlighter.fences_setTheme hok)
    · exact hsame h rfl
  | setAliases aliases => exact hsame _ rfl
  | configure aliases theme => exact hsame _ (h.fences_configure t aliases theme)
  | refresh => exact hsame _ (h.fences_refresh t)
  | processLoads => exact hsame _ (h.fences_processLoads t)
  | close =>
    refine ⟨⟨t, rfl, fun fs hfs => ?_⟩, fun _ hc => absurd rfl hc⟩
    have hnone : h.close.fences = none := by
      unfold Highlighter.close
      dsimp only
      split_ifs <;> rfl
    cases hnone.symm.trans hfs
  | finish id result state => exact hsame _ rfl
  | retool state => exact hsame _ rfl

theorem Remembers.run {s : Session σ} (hs : s.Remembers) (changes : List (Change σ)) :
    (s.run changes).Remembers ∧ (s.highlighter.fences ≠ none → Change.close ∉ changes →
      (s.run changes).highlighter.fences ≠ none) := by
  induction changes generalizing s with
  | nil => exact ⟨hs, fun hne _ => hne⟩
  | cons c cs ih =>
    obtain ⟨hr, hne⟩ := hs.apply c
    obtain ⟨hr', hne'⟩ := ih hr
    refine ⟨hr', fun h hmem => hne' (hne h ?_) ?_⟩
    · rintro rfl
      exact hmem List.mem_cons_self
    · exact fun h => hmem (List.mem_cons_of_mem _ h)

theorem fences_attached (h : Highlighter σ) (t : Text) (visible : List Interval)
    (changes : List (Change σ)) :
    let s := run ⟨h.attach (.ofText t) visible, .ofText t⟩ changes
    ∃ t', s.document = .ofText t' ∧
      (s.highlighter.fences = some (Document.ofText t').fenceSpans ∨
        s.highlighter.fences = none ∧ Change.close ∈ changes) := by
  intro s
  have hattached : (h.attach (.ofText t) visible).fences = some (Document.ofText t).fenceSpans :=
    Highlighter.fences_scroll { h with visible := none } t visible
  have hstart : Remembers ⟨h.attach (.ofText t) visible, .ofText t⟩ :=
    ⟨t, rfl, fun fs hfs => Option.some.inj (hfs.symm.trans hattached)⟩
  obtain ⟨⟨t', hd, hr⟩, hne⟩ := hstart.run changes
  have hne := hne (by rw [hattached]; exact Option.some_ne_none _)
  refine ⟨t', hd, ?_⟩
  cases hf : s.highlighter.fences with
  | some fs => exact .inl (congrArg some (hr fs hf))
  | none => exact .inr ⟨rfl, by_contra fun hc => hne hc hf⟩

/-- Whatever a highlighter did before, once it is attached to a document and whatever happens then,
it remembers the spans of exactly those lines that look like a fence, in document order and each
once; only closing the document makes it forget them. -/
theorem fences_exact (h : Highlighter σ) (t : Text) (visible : List Interval)
    (changes : List (Change σ)) :
    let s := run ⟨h.attach (.ofText t) visible, .ofText t⟩ changes
    let fences := (s.document.lines.filter fun l => Fence.closes l.text).map
      fun l => Interval.between l.start l.stop
    (s.highlighter.fences = some fences ∨
      s.highlighter.fences = none ∧ Change.close ∈ changes) ∧
        fences.Pairwise fun i j => i.hi < j.lo := by
  intro s fences
  obtain ⟨t', hd, hfences⟩ := fences_attached h t visible changes
  have hspaced : Spaced s.document.fenceSpans := by
    rw [hd]
    exact Document.fenceSpans_spaced t'
  rw [← hd] at hfences
  exact ⟨hfences, hspaced⟩

end Session

end FencedCode
