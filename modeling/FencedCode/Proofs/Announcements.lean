import FencedCode.Proofs.Session
import FencedCode.Proofs.Sorting
import FencedCode.Tokenizer.Scripted

namespace FencedCode

namespace DecorationSet

/-- No decoration is empty, and they stand in order. -/
structure Sorted (ds : DecorationSet) : Prop where
  nonempty : ∀ d ∈ ds, d.start < d.stop
  ordered : ds.Pairwise fun d e => d.before e = true

variable {ds : DecorationSet}

theorem sorted_nil : Sorted [] := ⟨by simp, .nil⟩

theorem Sorted.map (h : ds.Sorted) {e : Edit} (he : e.Ordered) : (ds.map e).Sorted := by
  have hord : e.start ≤ e.oldEnd ∧ e.start ≤ e.newEnd := he
  refine ⟨nonempty_map h.nonempty e, List.pairwise_filterMap.2
    (h.ordered.imp_of_mem fun {a b} ha hb hab a' ha' b' hb' => ?_)⟩
  have hea := h.nonempty a ha
  have heb := h.nonempty b hb
  simp only [Decoration.before, Bool.or_eq_true, Bool.and_eq_true, decide_eq_true_eq,
    beq_iff_eq] at hab ⊢
  -- the edit lies behind both, before both, or between them
  rcases Decoration.map?_eq_some hea ha' with ⟨h1, rfl⟩ | ⟨h1, h2, h3, -⟩ <;>
    rcases Decoration.map?_eq_some heb hb' with ⟨h4, rfl⟩ | ⟨h4, h5, h6, -⟩ <;> omega

theorem Sorted.edits {t t' : Text} {es : List Edit} (hs : Splices t es t') {T : Tracked}
    (h : T.decorations.Sorted) : (es.foldl Tracked.edit T).decorations.Sorted := by
  induction hs generalizing T with
  | nil => exact h
  | cons hs _ ih => exact ih (T := T.edit _) (h.map hs.ordered)

theorem Sorted.update (h : ds.Sorted) {keep : Nat → Bool} {add : List Decoration}
    (ha : ∀ d ∈ add, d.start < d.stop) : (ds.update keep add).1.Sorted := by
  constructor
  · intro d hd
    rcases mem_update.1 hd with ⟨hd, -⟩ | hd
    · exact h.nonempty d hd
    · exact ha d hd
  · exact update_pairwise ds keep add

theorem update_snd_eq_false {keep : Nat → Bool} {add : List Decoration} :
    (ds.update keep add).2 = false ↔ (∀ d ∈ ds, keep d.start = true) ∧ add = [] := by
  have hlen : ¬ (ds.filter fun d => keep d.start).length < ds.length ↔
      ∀ d ∈ ds, keep d.start = true := by
    rw [List.length_filter_lt_length_iff_exists]
    simp
  rw [← hlen]
  simp [update]

theorem Sorted.update_eq (h : ds.Sorted) {keep : Nat → Bool} {add : List Decoration}
    (hu : (ds.update keep add).2 = false) : (ds.update keep add).1 = ds := by
  obtain ⟨hkeep, rfl⟩ := update_snd_eq_false.1 hu
  have hall : (ds.filter fun d => keep d.start) = ds := List.filter_eq_self.2 hkeep
  change ((ds.filter fun d : Decoration => keep d.start) ++ []).mergeSort Decoration.before = ds
  rw [hall, List.append_nil]
  exact List.mergeSort_of_pairwise h.ordered

end DecorationSet

namespace Highlighter

variable {σ : Type} {h : Highlighter σ} {t : Text} {dirty : List Interval}

/-- No decoration starts in dirt or in a block painted anew, and nothing is painted. -/
def Idle (h : Highlighter σ) (t : Text) (dirty : List Interval) : Prop :=
  (∀ d ∈ h.decorations, ¬ Dirty t dirty d.start ∧
    ∀ b ∈ h.repainted t dirty, ¬ (b.start ≤ d.start ∧ d.start ≤ b.stop)) ∧
  h.fresh t dirty = []

theorem idle_nil (h : Highlighter σ) (t : Text) : h.Idle t [] := by
  rw [Idle, fresh, repainted_nil]
  simp [Dirty, Interval.Touched, Backend.renderAll]

theorem idle_iff : h.Idle t dirty ↔
    (h.decorations.update (kept t dirty (h.repainted t dirty)) (h.fresh t dirty)).2 = false := by
  rw [DecorationSet.update_snd_eq_false, Idle]
  simp only [kept_iff (h.repainted_le t dirty)]

theorem reconcile_announced (hi : ¬ h.Idle t dirty) :
    (h.reconcile (.ofText t) dirty).announced =
      (h.reconcile (.ofText t) dirty).decorations :: h.announced := by
  have hd : dirty ≠ [] := by
    rintro rfl
    exact hi (idle_nil h t)
  rw [idle_iff, Bool.not_eq_false] at hi
  unfold fresh at hi
  rw [reconcile_eq h t hd]
  dsimp only
  rw [hi]
  rfl

theorem reconcile_idle (hs : h.decorations.Sorted) (hi : h.Idle t dirty) :
    (h.reconcile (.ofText t) dirty).announced = h.announced ∧
      (h.reconcile (.ofText t) dirty).decorations = h.decorations := by
  by_cases hd : dirty = []
  · subst hd
    rw [reconcile_nil]
    exact ⟨rfl, rfl⟩
  rw [idle_iff] at hi
  have hsame := hs.update_eq hi
  unfold fresh at hi hsame
  rw [reconcile_eq h t hd]
  dsimp only
  rw [hi]
  exact ⟨rfl, hsame⟩

theorem sorted_reconcile (hs : h.decorations.Sorted) :
    (h.reconcile (.ofText t) dirty).decorations.Sorted := by
  by_cases hd : dirty = []
  · subst hd
    rwa [reconcile_nil]
  · obtain ⟨a, ha⟩ := reconcile_cons h t hd
    rw [ha]
    exact hs.update fun d hfresh => ((h.fresh_wellFormed t dirty).1.bounds d hfresh).1

/-- The decorations are in order, and listeners have been told them if they are not as before. -/
structure Tells (h h' : Highlighter σ) : Prop where
  sorted : h'.decorations.Sorted
  told : h'.announced = h'.decorations :: h.announced ∨
    h'.announced = h.announced ∧ h'.decorations = h.decorations

theorem tells_same {h' : Highlighter σ} (hs : h.decorations.Sorted)
    (ha : h'.announced = h.announced) (hd : h'.decorations = h.decorations) : h.Tells h' :=
  ⟨hd ▸ hs, .inr ⟨ha, hd⟩⟩

/-- Reconciling tells, also when something else than the decorations has been changed before. -/
theorem tells_reconcile {k : Highlighter σ} (hs : h.decorations.Sorted)
    (ha : k.announced = h.announced) (hd : k.decorations = h.decorations) (t : Text)
    (dirty : List Interval) : h.Tells (k.reconcile (.ofText t) dirty) := by
  have ks : k.decorations.Sorted := hd ▸ hs
  refine ⟨sorted_reconcile ks, ?_⟩
  by_cases hi : k.Idle t dirty
  · obtain ⟨ha', hd'⟩ := reconcile_idle ks hi
    exact .inr ⟨ha'.trans ha, hd'.trans hd⟩
  · exact .inl (ha ▸ reconcile_announced hi)

theorem tells_scroll {k : Highlighter σ} (hs : h.decorations.Sorted)
    (ha : k.announced = h.announced) (hd : k.decorations = h.decorations) (t : Text)
    (visible : List Interval) : h.Tells (k.scroll (.ofText t) visible) := by
  unfold Highlighter.scroll
  dsimp only
  split
  · exact tells_reconcile hs (by exact ha) (by exact hd) t _
  · exact tells_reconcile hs (by exact ha) (by exact hd) t _

theorem tells_close (hs : h.decorations.Sorted) : h.Tells h.close := by
  unfold Highlighter.close
  dsimp only
  split_ifs with he
  · exact tells_same hs rfl (List.isEmpty_iff.1 he).symm
  · exact ⟨DecorationSet.sorted_nil, .inl rfl⟩

theorem tells_setTheme {k : Highlighter σ} (hs : h.decorations.Sorted)
    (ha : k.announced = h.announced) (hd : k.decorations = h.decorations) {theme : String}
    {h' : Highlighter σ} (hok : k.setTheme (.ofText t) theme = .ok h') : h.Tells h' := by
  unfold Highlighter.setTheme at hok
  split at hok
  · cases hok
  · obtain rfl := Except.ok.inj hok
    exact tells_reconcile hs (by exact ha) (by exact hd) t _

theorem tells_configure (hs : h.decorations.Sorted) (t : Text) (aliases : Aliases)
    (theme : String) : h.Tells (h.configure (.ofText t) aliases theme).1 := by
  unfold Highlighter.configure
  dsimp only
  split_ifs
  · exact tells_same hs rfl rfl
  · split
    · rename_i hok
      exact tells_setTheme (k := h.setAliases aliases) hs rfl rfl hok
    · exact tells_same hs rfl rfl

theorem tells_processLoads (hs : h.decorations.Sorted) (t : Text) :
    h.Tells (h.processLoads (.ofText t)).1 := by
  unfold Highlighter.processLoads
  dsimp only
  split_ifs
  · exact tells_reconcile hs (by rfl) (by rfl) t _
  · exact tells_same hs rfl rfl

variable {es : List Edit} {t' : Text}

/-- Some decorations are moved or dropped by edits, and after that there is nothing to do. -/
def OnlyMoved (h : Highlighter σ) (es : List Edit) (t' : Text) : Prop :=
  (h.after es).decorations ≠ h.decorations ∧ (h.carried es t').Idle t' (h.dirt es t')

theorem sorted_carried (hs : h.decorations.Sorted) (hsp : Splices t es t') :
    (h.carried es t').decorations.Sorted :=
  DecorationSet.Sorted.edits hsp (T := h.tracked) hs

theorem sorted_edit (hs : h.decorations.Sorted) (hsp : Splices t es t') :
    (h.edit (.ofText t') es).decorations.Sorted := by
  by_cases hes : es = []
  · subst hes
    exact hs
  · rw [edit_eq hes]
    exact sorted_reconcile (sorted_carried hs hsp)

theorem tells_edit (hs : h.decorations.Sorted) (hsp : Splices t es t')
    (hm : ¬ h.OnlyMoved es t') : h.Tells (h.edit (.ofText t') es) := by
  refine ⟨sorted_edit hs hsp, ?_⟩
  by_cases hes : es = []
  · subst hes
    exact .inr ⟨rfl, rfl⟩
  rw [edit_eq hes]
  by_cases hi : (h.carried es t').Idle t' (h.dirt es t')
  · obtain ⟨ha, hd⟩ := reconcile_idle (sorted_carried hs hsp) hi
    exact .inr ⟨ha, hd.trans (by_contra fun hne => hm ⟨hne, hi⟩)⟩
  · exact .inl (reconcile_announced hi)

/-- Edits that only move decorations change them without a word. -/
theorem edit_onlyMoved (hs : h.decorations.Sorted) (hsp : Splices t es t')
    (hm : h.OnlyMoved es t') : (h.edit (.ofText t') es).announced = h.announced ∧
      (h.edit (.ofText t') es).decorations ≠ h.decorations := by
  have hes : es ≠ [] := by
    rintro rfl
    exact hm.1 rfl
  obtain ⟨ha, hd⟩ := reconcile_idle (sorted_carried hs hsp) hm.2
  rw [edit_eq hes]
  exact ⟨ha, hd ▸ hm.1⟩

end Highlighter

namespace Session

variable {σ : Type} {s : Session σ}

/-- The sessions that arise from new ones. Whatever has happened, the document may be exchanged for
any other without the highlighter being told. -/
inductive Arises : Session σ → Prop where
  | start (backend : Backend σ) (aliases : Aliases) (theme : String) (t : Text) :
      Arises (start backend aliases theme t)
  | apply {s : Session σ} (hs : Arises s) (c : Change σ) : Arises (s.apply c)
  | exchange {s : Session σ} (hs : Arises s) (t : Text) :
      Arises { s with document := .ofText t }

def OnlyMoves (s : Session σ) : Change σ → Prop
  | .edit replacements =>
    s.highlighter.OnlyMoved (s.document.applyAll replacements).2
      (s.document.applyAll replacements).1.text
  | _ => False

theorem tells_apply {t : Text} (hd : s.document = .ofText t)
    (hs : s.highlighter.decorations.Sorted) {c : Change σ} (hm : ¬ s.OnlyMoves c) :
    s.highlighter.Tells (s.apply c).highlighter := by
  obtain ⟨h, d⟩ := s
  obtain rfl : d = .ofText t := hd
  cases c with
  | attach visible =>
    exact Highlighter.tells_scroll (k := { h with visible := none }) hs rfl rfl t visible
  | scroll visible => exact Highlighter.tells_scroll hs rfl rfl t visible
  | edit replacements =>
    obtain ⟨t', es, heq, hsp⟩ := Document.exists_applyAll t replacements
    simp only [OnlyMoves, heq] at hm
    simp only [Session.apply, heq]
    exact Highlighter.tells_edit hs hsp hm
  | setTheme theme =>
    unfold Session.apply
    dsimp only
    split
    · rename_i hok
      exact Highlighter.tells_setTheme hs rfl rfl hok
    · exact Highlighter.tells_same hs rfl rfl
  | setAliases aliases => exact Highlighter.tells_same hs rfl rfl
  | configure aliases theme => exact Highlighter.tells_configure hs t aliases theme
  | refresh => exact Highlighter.tells_reconcile hs rfl rfl t _
  | processLoads => exact Highlighter.tells_processLoads hs t
  | close => exact Highlighter.tells_close hs
  | finish id result state => exact Highlighter.tells_same hs rfl rfl
  | retool state => exact Highlighter.tells_same hs rfl rfl

/-- Listeners are never told of an edit that only moves or drops decorations. -/
theorem apply_onlyMoves {t : Text} (hd : s.document = .ofText t)
    (hs : s.highlighter.decorations.Sorted) {c : Change σ} (hm : s.OnlyMoves c) :
    (s.apply c).highlighter.decorations.Sorted ∧
      (s.apply c).highlighter.announced = s.highlighter.announced ∧
        (s.apply c).highlighter.decorations ≠ s.highlighter.decorations := by
  obtain ⟨h, d⟩ := s
  obtain rfl : d = .ofText t := hd
  cases c with
  | edit replacements =>
    obtain ⟨t', es, heq, hsp⟩ := Document.exists_applyAll t replacements
    simp only [OnlyMoves, heq] at hm
    simp only [Session.apply, heq]
    exact ⟨Highlighter.sorted_edit hs hsp, Highlighter.edit_onlyMoved hs hsp hm⟩
  | _ => exact hm.elim

theorem document_apply {t : Text} (hd : s.document = .ofText t) (c : Change σ) :
    ∃ t', (s.apply c).document = .ofText t' := by
  obtain ⟨h, d⟩ := s
  obtain rfl : d = .ofText t := hd
  cases c with
  | edit replacements =>
    obtain ⟨t', es, heq, -⟩ := Document.exists_applyAll t replacements
    exact ⟨t', by simp only [Session.apply, heq]⟩
  | setTheme theme =>
    refine ⟨t, ?_⟩
    unfold Session.apply
    dsimp only
    split
    · rfl
    · rfl
  | _ => exact ⟨t, rfl⟩

/-- The decorations of a session that arises are in order, whatever its document. -/
theorem Arises.sorted (hs : s.Arises) :
    (∃ t, s.document = .ofText t) ∧ s.highlighter.decorations.Sorted := by
  induction hs with
  | start backend aliases theme t => exact ⟨⟨t, rfl⟩, DecorationSet.sorted_nil⟩
  | exchange hs t ih => exact ⟨⟨t, rfl⟩, ih.2⟩
  | @apply s hs c ih =>
    obtain ⟨⟨t, hd⟩, hsorted⟩ := ih
    refine ⟨document_apply hd c, ?_⟩
    by_cases hm : s.OnlyMoves c
    · exact (apply_onlyMoves hd hsorted hm).1
    · exact (tells_apply hd hsorted hm).sorted

/-- Every change of the decorations is announced, and the last that listeners hear of is how they
are then, unless the change is an edit that only moves or drops decorations: none of those it leaves
starts in the dirt or in a block to be painted anew, and nothing is painted. -/
theorem announced_iff (hs : s.Arises) (c : Change σ) :
    let h := s.highlighter
    let h' := (s.apply c).highlighter
    (h'.announced = h.announced ∨ h'.announced = h'.decorations :: h.announced) ∧
      ((h'.decorations ≠ h.decorations → h'.announced = h'.decorations :: h.announced) ↔
        ¬ s.OnlyMoves c) := by
  intro h h'
  obtain ⟨⟨t, hd⟩, hsorted⟩ := hs.sorted
  by_cases hm : s.OnlyMoves c
  · obtain ⟨-, ha, hne⟩ := apply_onlyMoves hd hsorted hm
    refine ⟨.inl ha, fun htold => ?_, fun hnot => absurd hm hnot⟩
    exact absurd (ha.symm.trans (htold hne)) (List.cons_ne_self _ _).symm
  · have htells := (tells_apply hd hsorted hm).told
    refine ⟨htells.symm.imp_left And.left, fun _ => hm, fun _ hne => ?_⟩
    exact htells.resolve_right fun hsame => hne hsame.2

def belowLine : Session (List String) :=
  (start ⟨.scripted, ["javascript"], {}⟩ default "A" "a\n```js\nx\n```\n".toList).apply
    (.attach [.between 0 14])

/-- A character typed above the block moves the decoration in it, and taking the block away drops
that. Both go unannounced. -/
theorem announced_iff_belowLine :
    belowLine.OnlyMoves (.edit [(0, 0, "b".toList)]) ∧
      belowLine.OnlyMoves (.edit [(2, 13, [])]) ∧
        belowLine.highlighter.decorations = [⟨8, 9, "color: #A;"⟩] ∧
          (belowLine.apply (.edit [(0, 0, "b".toList)])).highlighter.decorations =
            [⟨9, 10, "color: #A;"⟩] ∧
          (belowLine.apply (.edit [(2, 13, [])])).highlighter.decorations = [] := by
  have harises : belowLine.Arises := .apply (.start _ _ _ _) _
  have hold : belowLine.highlighter.decorations = [⟨8, 9, "color: #A;"⟩] := by decide +kernel
  have hmoved : (belowLine.apply (.edit [(0, 0, "b".toList)])).highlighter.decorations =
      [⟨9, 10, "color: #A;"⟩] := by decide +kernel
  have hdropped : (belowLine.apply (.edit [(2, 13, [])])).highlighter.decorations = [] ∧
      (belowLine.apply (.edit [(2, 13, [])])).highlighter.announced =
        belowLine.highlighter.announced := by
    simp only [apply, Highlighter.edit, Highlighter.reconcile, DecorationSet.update, Host.locate,
      Document.blocksAt, Highlighter.refence, Interval.normalize, mergeSort_eq_sortWithin]
    decide +kernel
  refine ⟨?_, ?_, hold, hmoved, hdropped.1⟩
  · by_contra hm
    have htold := (announced_iff harises (.edit [(0, 0, "b".toList)])).2.2 hm
    have hsilent : (belowLine.apply (.edit [(0, 0, "b".toList)])).highlighter.announced =
        belowLine.highlighter.announced := by decide +kernel
    rw [hmoved, hold, hsilent] at htold
    exact List.cons_ne_self _ _ (htold (by decide)).symm
  · by_contra hm
    have htold := (announced_iff harises (.edit [(2, 13, [])])).2.2 hm
    rw [hdropped.1, hold, hdropped.2] at htold
    exact List.cons_ne_self _ _ (htold (by decide)).symm

end Session

end FencedCode
