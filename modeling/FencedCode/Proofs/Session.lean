import FencedCode.Proofs.Batch

namespace FencedCode

def Document.applyAll (d : Document) : List (Nat × Nat × Text) → Document × List Edit
  | [] => (d, [])
  | (a, b, insert) :: rest =>
    let (d, e) := d.apply a b insert
    let (d, es) := applyAll d rest
    (d, e :: es)

theorem Document.applyAll_ofText (t : Text) (replacements : List (Nat × Nat × Text)) :
    ∃ t', ((ofText t).applyAll replacements).1 = ofText t' ∧
      Splices t ((ofText t).applyAll replacements).2 t' := by
  induction replacements generalizing t with
  | nil => exact ⟨t, rfl, .nil t⟩
  | cons r rest ih =>
    obtain ⟨a, b, insert⟩ := r
    obtain ⟨t₁, h₁, hs⟩ := apply_ofText t a b insert
    obtain ⟨t', h', hss⟩ := ih t₁
    rw [← h₁] at h' hss
    exact ⟨t', h', .cons hs hss⟩

theorem Document.exists_applyAll (t : Text) (replacements : List (Nat × Nat × Text)) :
    ∃ t' es, (ofText t).applyAll replacements = (ofText t', es) ∧ Splices t es t' := by
  obtain ⟨t', ht', hsp⟩ := applyAll_ofText t replacements
  exact ⟨t', _, Prod.ext ht' rfl, hsp⟩

structure Session (σ : Type) where
  highlighter : Highlighter σ
  document : Document

/-- What can happen to a highlighter, its document and its tokenizer. -/
inductive Change (σ : Type) where
  | attach (visible : List Interval)
  | scroll (visible : List Interval)
  /-- Spans of the document are replaced, and the highlighter is told all the edits at once. -/
  | edit (replacements : List (Nat × Nat × Text))
  | setTheme (theme : String)
  | setAliases (aliases : Aliases)
  | configure (aliases : Aliases) (theme : String)
  | refresh
  | processLoads
  | close
  /-- A load is over, with the tokenizer changed by it. -/
  | finish (id : String) (result : LoadResult) (state : σ)
  /-- The tokenizer changes by itself. -/
  | retool (state : σ)

namespace Session

variable {σ : Type}

def start (backend : Backend σ) (aliases : Aliases) (theme : String) (t : Text) : Session σ :=
  ⟨{ backend, aliases, theme }, .ofText t⟩

def apply (s : Session σ) : Change σ → Session σ
  | .attach visible => { s with highlighter := s.highlighter.attach s.document visible }
  | .scroll visible => { s with highlighter := s.highlighter.scroll s.document visible }
  | .edit replacements =>
    let (d, es) := s.document.applyAll replacements
    ⟨s.highlighter.edit d es, d⟩
  | .setTheme theme =>
    match s.highlighter.setTheme s.document theme with
    | .ok h => { s with highlighter := h }
    | .error _ => s
  | .setAliases aliases => { s with highlighter := s.highlighter.setAliases aliases }
  | .configure aliases theme =>
    { s with highlighter := (s.highlighter.configure s.document aliases theme).1 }
  | .refresh => { s with highlighter := s.highlighter.refresh s.document }
  | .processLoads => { s with highlighter := (s.highlighter.processLoads s.document).1 }
  | .close => { s with highlighter := s.highlighter.close }
  | .finish id result state =>
    let backend := s.highlighter.backend
    let backend := { backend with state, loader := backend.loader.complete id result }
    { s with highlighter := { s.highlighter with backend } }
  | .retool state =>
    let backend := { s.highlighter.backend with state }
    { s with highlighter := { s.highlighter with backend } }

def run (s : Session σ) (changes : List (Change σ)) : Session σ := changes.foldl apply s

end Session

namespace Highlighter

variable {σ : Type} {h : Highlighter σ} {t : Text}

@[simp] theorem reconcile_tokenizer (h : Highlighter σ) (d : Document) (dirty : List Interval) :
    (h.reconcile d dirty).backend.tokenizer = h.backend.tokenizer := by
  unfold reconcile
  dsimp only
  split_ifs
  · rfl
  · exact Backend.renderAll_tokenizer _ _ _ _
  · exact Backend.renderAll_tokenizer _ _ _ _

@[simp] theorem scroll_tokenizer (h : Highlighter σ) (d : Document) (visible : List Interval) :
    (h.scroll d visible).backend.tokenizer = h.backend.tokenizer := by
  unfold Highlighter.scroll
  dsimp only
  split
  · exact reconcile_tokenizer _ d _
  · exact reconcile_tokenizer _ d _

@[simp] theorem edit_tokenizer (h : Highlighter σ) (d : Document) (es : List Edit) :
    (h.edit d es).backend.tokenizer = h.backend.tokenizer := by
  unfold Highlighter.edit
  split_ifs
  · rfl
  · exact reconcile_tokenizer _ d _

theorem setTheme_tokenizer {d : Document} {theme : String} {h' : Highlighter σ}
    (hok : h.setTheme d theme = .ok h') : h'.backend.tokenizer = h.backend.tokenizer := by
  unfold Highlighter.setTheme at hok
  split at hok
  · cases hok
  · obtain rfl := Except.ok.inj hok
    exact reconcile_tokenizer _ d _

@[simp] theorem processLoads_tokenizer (h : Highlighter σ) (d : Document) :
    (h.processLoads d).1.backend.tokenizer = h.backend.tokenizer := by
  unfold Highlighter.processLoads
  dsimp only
  split_ifs
  · exact reconcile_tokenizer _ d _
  · rfl

theorem Sound.refresh (hs : h.Sound t) : (h.refresh (Document.ofText t)).Sound t :=
  hs.reconcile _

theorem Sound.scroll (hs : h.Sound t) (visible : List Interval) :
    (h.scroll (Document.ofText t) visible).Sound t := by
  unfold Highlighter.scroll
  dsimp only
  split
  · have hs' : Highlighter.Sound { h with
        visible := some (Interval.normalize (visible.map (·.clamp (Text.size t)))) } t :=
      ⟨hs.fences, fun vs hvs => Option.some.inj hvs ▸ Interval.normalize_clamp_hi_le,
        hs.wellFormed, hs.rooted, hs.clear⟩
    exact hs'.reconcile _
  · have hs' : Highlighter.Sound { h with
        visible := some (Interval.normalize (visible.map (·.clamp (Text.size t))))
        fences := some ((Document.ofText t).fenceLines (Document.ofText t).all) } t :=
      ⟨fun fs hfs i => Option.some.inj hfs ▸ Document.mem_fenceLines_all,
        fun vs hvs => Option.some.inj hvs ▸ Interval.normalize_clamp_hi_le,
        hs.wellFormed, hs.rooted, hs.clear⟩
    exact hs'.reconcile _

theorem Sound.attach (hs : h.Sound t) (visible : List Interval) :
    (h.attach (Document.ofText t) visible).Sound t := by
  have hs' : Highlighter.Sound { h with visible := none } t :=
    ⟨hs.fences, by simp, hs.wellFormed, hs.rooted, hs.clear⟩
  exact hs'.scroll visible

theorem sound_nil (h : Highlighter σ) (t : Text) (hd : h.decorations = []) (hv : h.visible = none)
    (hf : h.fences = none) : h.Sound t := by
  refine ⟨by simp [hf], by simp [hv], ?_, by simp [hd], by simp [hd]⟩
  rw [hd]
  exact DecorationSet.wellFormed_nil _

theorem Sound.close (h : Highlighter σ) (t : Text) : h.close.Sound t := by
  unfold Highlighter.close
  dsimp only
  split_ifs
  · exact sound_nil _ t rfl rfl rfl
  · exact sound_nil _ t rfl rfl rfl

theorem Sound.setTheme (hs : h.Sound t) {theme : String} {h' : Highlighter σ}
    (hok : h.setTheme (Document.ofText t) theme = .ok h') : h'.Sound t := by
  unfold Highlighter.setTheme at hok
  split at hok
  · cases hok
  · obtain rfl := Except.ok.inj hok
    exact Sound.refresh (hs.congr rfl rfl rfl)

theorem Sound.setAliases (hs : h.Sound t) (aliases : Aliases) : (h.setAliases aliases).Sound t :=
  hs.congr rfl rfl rfl

theorem Sound.configure (hs : h.Sound t) (aliases : Aliases) (theme : String) :
    (h.configure (Document.ofText t) aliases theme).1.Sound t := by
  unfold Highlighter.configure
  dsimp only
  split_ifs
  · exact hs.setAliases aliases
  · split
    · rename_i hok
      exact (hs.setAliases aliases).setTheme hok
    · exact hs.setAliases aliases

theorem Sound.processLoads (hs : h.Sound t) :
    (h.processLoads (Document.ofText t)).1.Sound t := by
  unfold Highlighter.processLoads
  dsimp only
  split_ifs
  · exact Sound.refresh (hs.congr rfl rfl rfl)
  · exact hs.congr rfl rfl rfl

end Highlighter

namespace Session

variable {σ : Type}

def Sound (s : Session σ) : Prop := ∃ t, s.document = .ofText t ∧ s.highlighter.Sound t

/-- Whatever happens, a sound session stays sound. -/
theorem Sound.apply {s : Session σ} (hs : s.Sound) (c : Change σ) : (s.apply c).Sound := by
  obtain ⟨t, hd, hs⟩ := hs
  obtain ⟨h, d⟩ := s
  obtain rfl : d = .ofText t := hd
  cases c with
  | attach visible => exact ⟨t, rfl, hs.attach visible⟩
  | scroll visible => exact ⟨t, rfl, hs.scroll visible⟩
  | edit replacements =>
    obtain ⟨t', ht', hsp⟩ := Document.applyAll_ofText t replacements
    refine ⟨t', ht', ?_⟩
    change (h.edit ((Document.ofText t).applyAll replacements).1 _).Sound t'
    rw [ht']
    exact hs.edit hsp
  | setTheme theme =>
    unfold Session.apply
    dsimp only
    split
    · rename_i h' hok
      exact ⟨t, rfl, hs.setTheme hok⟩
    · exact ⟨t, rfl, hs⟩
  | setAliases aliases => exact ⟨t, rfl, hs.setAliases aliases⟩
  | configure aliases theme => exact ⟨t, rfl, hs.configure aliases theme⟩
  | refresh => exact ⟨t, rfl, hs.refresh⟩
  | processLoads => exact ⟨t, rfl, hs.processLoads⟩
  | close => exact ⟨t, rfl, .close h t⟩
  | finish id result state =>
    exact ⟨t, rfl, hs.congr rfl rfl rfl⟩
  | retool state =>
    exact ⟨t, rfl, hs.congr rfl rfl rfl⟩

theorem sound_start (backend : Backend σ) (aliases : Aliases) (theme : String) (t : Text) :
    (start backend aliases theme t).Sound :=
  ⟨t, rfl, Highlighter.sound_nil _ t rfl rfl rfl⟩

theorem Sound.run {s : Session σ} (hs : s.Sound) (changes : List (Change σ)) :
    (s.run changes).Sound := by
  induction changes generalizing s with
  | nil => exact hs
  | cons c cs ih => exact ih (hs.apply c)

theorem apply_tokenizer (s : Session σ) (c : Change σ) :
    (s.apply c).highlighter.backend.tokenizer = s.highlighter.backend.tokenizer := by
  obtain ⟨h, d⟩ := s
  cases c with
  | attach visible => exact Highlighter.scroll_tokenizer _ d visible
  | scroll visible => exact h.scroll_tokenizer d visible
  | edit replacements => exact h.edit_tokenizer _ _
  | setTheme theme =>
    unfold Session.apply
    dsimp only
    split
    · rename_i hok
      exact Highlighter.setTheme_tokenizer hok
    · rfl
  | setAliases aliases => rfl
  | configure aliases theme =>
    unfold Session.apply Highlighter.configure
    dsimp only
    split_ifs
    · rfl
    · split
      · rename_i hok
        exact Highlighter.setTheme_tokenizer (h := h.setAliases aliases) hok
      · rfl
  | refresh => exact h.reconcile_tokenizer d _
  | processLoads => exact h.processLoads_tokenizer d
  | close =>
    unfold Session.apply Highlighter.close
    dsimp only
    split_ifs
    · rfl
    · rfl
  | finish id result state => rfl
  | retool state => rfl

theorem run_tokenizer (s : Session σ) (changes : List (Change σ)) :
    (s.run changes).highlighter.backend.tokenizer = s.highlighter.backend.tokenizer := by
  induction changes generalizing s with
  | nil => rfl
  | cons c cs ih => exact (ih (s.apply c)).trans (s.apply_tokenizer c)

/-- Whatever a tokenizer does and whatever happens, no decoration is empty or runs beyond the text,
and they are sorted, each ending before the next starts. -/
theorem decorations_wellFormed (backend : Backend σ) (aliases : Aliases) (theme : String) (t : Text)
    (changes : List (Change σ)) :
    let s := (start backend aliases theme t).run changes
    (∀ d ∈ s.highlighter.decorations, d.start < d.stop ∧ d.stop ≤ s.document.size) ∧
      s.highlighter.decorations.Pairwise (fun d e => d.before e = true) ∧
        s.highlighter.decorations.Pairwise fun d e => d.stop ≤ e.start := by
  intro s
  obtain ⟨t', hd, hs⟩ := (sound_start backend aliases theme t).run changes
  rw [hd]
  exact ⟨hs.wellFormed.bounds, hs.wellFormed.sorted, hs.wellFormed.ordered⟩

end Session

end FencedCode
