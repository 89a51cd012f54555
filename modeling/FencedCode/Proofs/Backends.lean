import FencedCode.Proofs.Rendering

namespace FencedCode

variable {σ : Type}

namespace Tokenizer

def ready (tk : Tokenizer σ) (s : σ) (language : String) : Option String :=
  (tk.resolve s language).filter (tk.isLoaded s)

/-- The tokens of code right now, if its language is ready and tokenizing succeeds. -/
def answer (tk : Tokenizer σ) (s : σ) (theme language : String) (code : Text) :
    Option (List TokenLine) :=
  (tk.ready s language).bind fun id => (tk.tokenize s code id theme).2.toOption

/-- Two states that know, have loaded and tokenize the same. -/
structure Agree (tk : Tokenizer σ) (s u : σ) : Prop where
  resolve : tk.resolve s = tk.resolve u
  isLoaded : tk.isLoaded s = tk.isLoaded u
  tokenize : ∀ code id theme, (tk.tokenize s code id theme).2 = (tk.tokenize u code id theme).2

theorem Agree.refl (tk : Tokenizer σ) (s : σ) : tk.Agree s s := ⟨rfl, rfl, fun _ _ _ => rfl⟩

theorem Agree.symm {tk : Tokenizer σ} {s u : σ} (h : tk.Agree s u) : tk.Agree u s :=
  ⟨h.resolve.symm, h.isLoaded.symm, fun c i t => (h.tokenize c i t).symm⟩

theorem Agree.trans {tk : Tokenizer σ} {s u v : σ} (h : tk.Agree s u) (h' : tk.Agree u v) :
    tk.Agree s v :=
  ⟨h.resolve.trans h'.resolve, h.isLoaded.trans h'.isLoaded,
    fun c i t => (h.tokenize c i t).trans (h'.tokenize c i t)⟩

theorem Agree.answer {tk : Tokenizer σ} {s u : σ} (h : tk.Agree s u) :
    tk.answer s = tk.answer u := by
  funext theme language code
  simp only [Tokenizer.answer, ready, h.resolve, h.isLoaded, h.tokenize]

/-- Being used does not change a tokenizer; being asked to load a language changes it only if the
load is over at once, and in a way that depends on nothing else. -/
structure Steady (tk : Tokenizer σ) : Prop where
  tokenize : ∀ s code id theme, tk.Agree (tk.tokenize s code id theme).1 s
  load : ∀ s u id, tk.Agree s u → tk.Agree (tk.load s id).1 (tk.load u id).1
  pending : ∀ s id, (tk.load s id).2 ≠ some .loaded → tk.Agree (tk.load s id).1 s

/-- Tokenizing depends on the code, the language and the theme only, and what is ready changes only
with a load that succeeds. -/
structure Pure (tk : Tokenizer σ) : Prop where
  tokenize : ∀ s u code id theme, tk.isLoaded s id → tk.isLoaded u id →
    (tk.tokenize s code id theme).2 = (tk.tokenize u code id theme).2
  tokenize_ready : ∀ s code id theme, tk.ready (tk.tokenize s code id theme).1 = tk.ready s
  load_ready : ∀ s id, (tk.load s id).2 ≠ some .loaded → tk.ready (tk.load s id).1 = tk.ready s

theorem Pure.answer {tk : Tokenizer σ} (h : tk.Pure) {s u : σ} (hr : tk.ready s = tk.ready u) :
    tk.answer s = tk.answer u := by
  funext theme language code
  unfold Tokenizer.answer
  rw [hr]
  cases hu : tk.ready u language with
  | none => rfl
  | some id =>
    have hs : tk.ready s language = some id := by rw [hr, hu]
    rw [Option.bind_some, Option.bind_some, h.tokenize s u code id theme
      (Option.filter_eq_some_iff.1 hs).2 (Option.filter_eq_some_iff.1 hu).2]

/-- Neither being used nor being asked to load a language, unless the load succeeds at once, changes
what a tokenizer has ready or what it answers. -/
structure Stable (tk : Tokenizer σ) : Prop where
  tokenize : ∀ s code id theme, tk.ready (tk.tokenize s code id theme).1 = tk.ready s ∧
    tk.answer (tk.tokenize s code id theme).1 = tk.answer s
  load : ∀ s id, (tk.load s id).2 ≠ some .loaded →
    tk.ready (tk.load s id).1 = tk.ready s ∧ tk.answer (tk.load s id).1 = tk.answer s

theorem Pure.stable {tk : Tokenizer σ} (h : tk.Pure) : tk.Stable where
  tokenize s code id theme :=
    ⟨h.tokenize_ready s code id theme, h.answer (h.tokenize_ready s code id theme)⟩
  load s id hne := ⟨h.load_ready s id hne, h.answer (h.load_ready s id hne)⟩

theorem Agree.ready {tk : Tokenizer σ} {s u : σ} (h : tk.Agree s u) : tk.ready s = tk.ready u := by
  funext name
  simp only [Tokenizer.ready, h.resolve, h.isLoaded]

theorem Steady.stable {tk : Tokenizer σ} (h : tk.Steady) : tk.Stable where
  tokenize s code id theme :=
    ⟨(h.tokenize s code id theme).ready, (h.tokenize s code id theme).answer⟩
  load s id hne := ⟨(h.pending s id hne).ready, (h.pending s id hne).answer⟩

end Tokenizer

namespace Document

/-- The decorations of a block whose tokens are as told. -/
def paint (d : Document) (answer : String → Text → Option (List TokenLine)) (b : Block) :
    List Decoration :=
  ((answer b.language (d.slice b.body)).map (d.host.place b)).getD []

theorem paint_wellFormed {t : Text} {aliases : Aliases} {b : Block}
    (h : b ∈ (ofText t).blocks aliases) (answer : String → Text → Option (List TokenLine)) :
    DecorationSet.WellFormed (Text.size t) ((ofText t).paint answer b) ∧
      ∀ d ∈ (ofText t).paint answer b, b.bodyStart ≤ d.start ∧ d.stop ≤ b.bodyStop := by
  unfold paint
  cases answer b.language ((ofText t).slice b.body) with
  | none => exact ⟨DecorationSet.wellFormed_nil _, by simp⟩
  | some tokens => exact place_wellFormed h tokens

end Document

namespace Loader

def arrivals (l : Loader) : Nat := l.posted.countP (·.succeeded)

def started (l : Loader) (id : String) (result : Option LoadResult) : Loader :=
  let l := { l with inFlight := l.inFlight ++ [id], tickets := l.tickets ++ [id] }
  result.elim l (l.complete id)

@[simp] theorem started_inFlight (l : Loader) (id : String) (result : Option LoadResult) :
    (l.started id result).inFlight = l.inFlight ++ [id] := by
  cases result <;> simp [started, complete]

@[simp] theorem started_posted (l : Loader) (id : String) (result : Option LoadResult) :
    (l.started id result).posted = l.posted ++ (result.map (⟨id, ·⟩)).toList := by
  cases result <;> simp [started, complete]

theorem ensure_unloaded {tk : Tokenizer σ} {s : σ} {l : Loader} {language id : String}
    (hr : tk.resolve s language = some id) (hload : tk.isLoaded s id = false)
    (hfl : id ∉ l.inFlight) :
    ensure tk s l language = (.loading, (tk.load s id).1, l.started id (tk.load s id).2) := by
  unfold ensure started
  rw [hr]
  simp only [hload, Bool.false_eq_true, if_false, if_neg hfl]
  split
  · rename_i he
    rw [he]
    rfl
  · rename_i r he
    rw [he]
    rfl

end Loader

namespace Backend

def loading (b : Backend σ) (id : String) : Backend σ :=
  { b with
    state := (b.tokenizer.load b.state id).1
    loader := b.loader.started id (b.tokenizer.load b.state id).2 }

/-- Making a language available that is not ready starts to load it, unless it is unknown or on its
way. -/
theorem ensure_cases {b : Backend σ} {language : String}
    (h : b.tokenizer.ready b.state language = none) :
    (∀ id, (b.ensure language).1 ≠ .ready id) ∧
      ((b.ensure language).2 = b ∧
          (∀ id, b.tokenizer.resolve b.state language = some id → id ∈ b.loader.inFlight) ∨
        ∃ id, b.tokenizer.resolve b.state language = some id ∧ id ∉ b.loader.inFlight ∧
          (b.ensure language).2 = b.loading id) := by
  unfold Tokenizer.ready at h
  cases hr : b.tokenizer.resolve b.state language with
  | none =>
    have he : b.ensure language = (.unknown, b) := by simp only [ensure, Loader.ensure, hr]
    rw [he]
    exact ⟨by simp, .inl ⟨rfl, by simp⟩⟩
  | some id =>
    have hload : b.tokenizer.isLoaded b.state id = false := by simpa [hr] using h
    by_cases hfl : id ∈ b.loader.inFlight
    · have he : b.ensure language = (.loading, b) := by
        simp only [ensure, Loader.ensure, hr, hload, Bool.false_eq_true, if_false, if_pos hfl]
      rw [he]
      exact ⟨by simp, .inl ⟨rfl, fun i hi => Option.some.inj hi ▸ hfl⟩⟩
    · have he : b.ensure language = (.loading, b.loading id) := by
        simp only [ensure, Loader.ensure_unloaded hr hload hfl]
        rfl
      rw [he]
      exact ⟨by simp, .inr ⟨id, rfl, hfl, rfl⟩⟩

theorem ensure_ready {b : Backend σ} {language id : String}
    (h : b.tokenizer.ready b.state language = some id) : b.ensure language = (.ready id, b) := by
  obtain ⟨hr, hload⟩ := Option.filter_eq_some_iff.1 h
  unfold ensure Loader.ensure
  simp only [hr, hload, if_true]

/-- A block is painted with what the tokenizer answers at that moment. -/
theorem render_fst (b : Backend σ) (theme : String) (d : Document) {block : Block}
    (hb : block.bodyStart < block.bodyStop) :
    (b.render theme d block).1 = d.paint (b.tokenizer.answer b.state theme) block := by
  unfold render Document.paint Tokenizer.answer
  rw [if_pos hb]
  cases hr : b.tokenizer.ready b.state block.language with
  | some id =>
    rw [ensure_ready hr]
    dsimp only [Option.bind_some]
    split
    · rename_i lines he
      rw [show (b.tokenizer.tokenize b.state (d.slice block.body) id theme).2 = .ok lines from he]
      rfl
    · rename_i e he
      rw [show (b.tokenizer.tokenize b.state (d.slice block.body) id theme).2 = .error e from he]
      rfl
  | none =>
    obtain ⟨hne, -⟩ := ensure_cases hr
    split
    · rename_i id b' he
      exact absurd (congrArg Prod.fst he) (hne id)
    · rfl

/-- Rendering a block uses the tokenizer, or starts to load the language of the block, or does
nothing. -/
theorem render_snd (b : Backend σ) (theme : String) (d : Document) {block : Block}
    (hb : block.bodyStart < block.bodyStop) :
    (∃ id, b.tokenizer.ready b.state block.language = some id ∧
        (b.render theme d block).2 =
          { b with state := (b.tokenizer.tokenize b.state (d.slice block.body) id theme).1 }) ∨
      (b.tokenizer.ready b.state block.language = none ∧
        ((b.render theme d block).2 = b ∧
            (∀ id, b.tokenizer.resolve b.state block.language = some id → id ∈ b.loader.inFlight) ∨
          ∃ id, b.tokenizer.resolve b.state block.language = some id ∧ id ∉ b.loader.inFlight ∧
            (b.render theme d block).2 = b.loading id)) := by
  unfold render
  rw [if_pos hb]
  cases hr : b.tokenizer.ready b.state block.language with
  | some id =>
    refine .inl ⟨id, rfl, ?_⟩
    rw [ensure_ready hr]
    dsimp only
    split <;> rfl
  | none =>
    refine .inr ⟨rfl, ?_⟩
    obtain ⟨hne, hcases⟩ := ensure_cases hr
    split
    · rename_i id b' he
      exact absurd (congrArg Prod.fst he) (hne id)
    · rename_i b' _ he
      have hb' : (b.ensure block.language).2 = b' := congrArg Prod.snd he
      rw [hb'] at hcases
      exact hcases

@[simp] theorem render_tokenizer (b : Backend σ) (theme : String) (d : Document) (block : Block) :
    (b.render theme d block).2.tokenizer = b.tokenizer := by
  by_cases hb : block.bodyStart < block.bodyStop
  · rcases render_snd b theme d hb with ⟨id, -, h⟩ | ⟨-, ⟨h, -⟩ | ⟨id, -, -, h⟩⟩
    · rw [h]
    · rw [h]
    · rw [h]
      rfl
  · rw [render, if_neg hb]

theorem loading_posted (b : Backend σ) (id : String) :
    b.loader.posted <+: (b.loading id).loader.posted := by
  rw [loading, Loader.started_posted]
  exact List.prefix_append _ _

theorem render_posted (b : Backend σ) (theme : String) (d : Document) {block : Block}
    (hb : block.bodyStart < block.bodyStop) :
    b.loader.posted <+: (b.render theme d block).2.loader.posted := by
  rcases render_snd b theme d hb with ⟨id, -, h⟩ | ⟨-, ⟨h, -⟩ | ⟨id, -, -, h⟩⟩
  · simp [h]
  · simp [h]
  · rw [h]
    exact b.loading_posted id

theorem renderAll_cons (b : Backend σ) (theme : String) (h : Host) (block : Block)
    (bs : List Block) : b.renderAll theme h (block :: bs) =
      ((b.render theme h block).1 ++ ((b.render theme h block).2.renderAll theme h bs).1,
        ((b.render theme h block).2.renderAll theme h bs).2) := rfl

@[simp] theorem renderAll_tokenizer (b : Backend σ) (theme : String) (d : Document)
    (bs : List Block) : (b.renderAll theme d bs).2.tokenizer = b.tokenizer := by
  induction bs generalizing b with
  | nil => rfl
  | cons block bs ih => rw [renderAll_cons, ih, render_tokenizer]

theorem renderAll_posted (theme : String) (d : Document) (bs : List Block)
    (hbs : ∀ b ∈ bs, b.bodyStart < b.bodyStop) (b : Backend σ) :
    b.loader.posted <+: (b.renderAll theme d bs).2.loader.posted := by
  induction bs generalizing b with
  | nil => exact List.prefix_rfl
  | cons block bs ih =>
    have h1 := b.render_posted theme d (hbs block List.mem_cons_self)
    have h2 := ih (fun c hc => hbs c (List.mem_cons_of_mem _ hc)) (b.render theme d block).2
    rw [renderAll_cons]
    exact h1.trans h2

theorem renderAll_arrivals (theme : String) (d : Document) (bs : List Block)
    (hbs : ∀ b ∈ bs, b.bodyStart < b.bodyStop) (b : Backend σ) :
    b.loader.arrivals ≤ (b.renderAll theme d bs).2.loader.arrivals :=
  (renderAll_posted theme d bs hbs b).sublist.countP_le

theorem load_ne_loaded {b : Backend σ} {id : String}
    (h : (b.loading id).loader.arrivals ≤ b.loader.arrivals) :
    (b.tokenizer.load b.state id).2 ≠ some .loaded := by
  intro hl
  rw [Loader.arrivals, Loader.arrivals, loading, Loader.started_posted, hl, List.countP_append] at h
  have hone : [LoadEvent.mk id .loaded].countP (·.succeeded) = 1 := rfl
  simp only [Option.map_some, Option.toList_some, hone] at h
  omega

/-- Whatever the tokenizer does, the decorations of some blocks lie in their bodies and do not
overlap. -/
theorem renderAll_wellFormed {t : Text} {aliases : Aliases} (theme : String) {bs : List Block}
    (hbs : ∀ b ∈ bs, b ∈ (Document.ofText t).blocks aliases)
    (hp : bs.Pairwise fun b c => b.stop < c.start) (b : Backend σ) :
    DecorationSet.WellFormed (Text.size t) (b.renderAll theme (Document.ofText t) bs).1 ∧
      ∀ d ∈ (b.renderAll theme (Document.ofText t) bs).1,
        ∃ c ∈ bs, c.bodyStart ≤ d.start ∧ d.stop ≤ c.bodyStop := by
  induction bs generalizing b with
  | nil => exact ⟨DecorationSet.wellFormed_nil _, by simp [renderAll]⟩
  | cons block bs ih =>
    obtain ⟨hhead, htail⟩ := List.pairwise_cons.1 hp
    have hmem := hbs block List.mem_cons_self
    obtain ⟨-, hlt, hle, -⟩ := Document.block_bounds hmem
    obtain ⟨hw, hin⟩ := ih (fun c hc => hbs c (List.mem_cons_of_mem _ hc)) htail
      (b.render theme (Document.ofText t) block).2
    obtain ⟨hw', hin'⟩ := Document.paint_wellFormed hmem (b.tokenizer.answer b.state theme)
    rw [← b.render_fst theme _ hlt] at hw' hin'
    refine ⟨hw'.append hw fun d hd e he => ?_, fun d hd => ?_⟩
    · obtain ⟨c, hc, hstart, -⟩ := hin e he
      have := hhead c hc
      have := (hin' d hd).2
      have := (Document.block_bounds (hbs c (List.mem_cons_of_mem _ hc))).1
      omega
    · rcases List.mem_append.1 hd with hd | hd
      · exact ⟨block, List.mem_cons_self, hin' d hd⟩
      · obtain ⟨c, hc, h⟩ := hin d hd
        exact ⟨c, List.mem_cons_of_mem _ hc, h⟩

/-- As long as no load succeeds on the way, every block is painted with what the tokenizer answers
at the start. -/
theorem renderAll_quiet {b : Backend σ} (hst : b.tokenizer.Stable) (theme : String) (d : Document)
    {bs : List Block} (hbs : ∀ b ∈ bs, b.bodyStart < b.bodyStop)
    (hq : (b.renderAll theme d bs).2.loader.arrivals ≤ b.loader.arrivals) :
    (b.renderAll theme d bs).1 = bs.flatMap (d.paint (b.tokenizer.answer b.state theme)) ∧
      b.tokenizer.ready (b.renderAll theme d bs).2.state = b.tokenizer.ready b.state ∧
        b.tokenizer.answer (b.renderAll theme d bs).2.state = b.tokenizer.answer b.state := by
  induction bs generalizing b with
  | nil => exact ⟨rfl, rfl, rfl⟩
  | cons block bs ih =>
    have hb := hbs block List.mem_cons_self
    have hbs' : ∀ c ∈ bs, c.bodyStart < c.bodyStop := fun c hc => hbs c (List.mem_cons_of_mem _ hc)
    have h1 : b.loader.arrivals ≤ (b.render theme d block).2.loader.arrivals :=
      (b.render_posted theme d hb).sublist.countP_le
    have h2 := renderAll_arrivals theme d bs hbs' (b.render theme d block).2
    rw [renderAll_cons] at hq ⊢
    have htk := b.render_tokenizer theme d block
    -- no load succeeds on the way, so none does now
    have hq1 := h2.trans hq
    obtain ⟨hready, hanswer⟩ : b.tokenizer.ready (b.render theme d block).2.state =
        b.tokenizer.ready b.state ∧ b.tokenizer.answer (b.render theme d block).2.state =
          b.tokenizer.answer b.state := by
      rcases b.render_snd theme d hb with ⟨id, -, h⟩ | ⟨-, ⟨h, -⟩ | ⟨id, -, -, h⟩⟩
      · rw [h]
        exact hst.tokenize _ _ _ _
      · rw [h]
        exact ⟨rfl, rfl⟩
      · rw [h] at hq1 ⊢
        exact hst.load _ _ (load_ne_loaded hq1)
    obtain ⟨ih1, ih2, ih3⟩ := ih (b := (b.render theme d block).2) (htk ▸ hst) hbs' (hq.trans h1)
    rw [htk] at ih1 ih2 ih3
    refine ⟨?_, ih2.trans hready, ih3.trans hanswer⟩
    rw [hanswer] at ih1
    rw [b.render_fst theme d hb, ih1, List.flatMap_cons]

/-- Two backends that answer alike and have the same loads on their way, but for some in `known`
that only the first has. -/
structure InStep (tk : Tokenizer σ) (known : List String) (b c : Backend σ) : Prop where
  left : b.tokenizer = tk
  right : c.tokenizer = tk
  agree : tk.Agree b.state c.state
  subset : c.loader.inFlight ⊆ b.loader.inFlight
  known : ∀ id ∈ b.loader.inFlight, id ∈ known ∨ id ∈ c.loader.inFlight

variable {tk : Tokenizer σ} {known : List String} {b c : Backend σ}

theorem InStep.ready (h : InStep tk known b c) : tk.ready b.state = tk.ready c.state :=
  h.agree.ready

/-- Only the second starts to load a language that the first has on its way. -/
theorem InStep.loading_right (h : InStep tk known b c) (hs : tk.Steady) {id : String}
    (hfl : id ∈ b.loader.inFlight) (hne : (tk.load c.state id).2 ≠ some .loaded) :
    InStep tk known b (c.loading id) := by
  obtain ⟨hleft, hright, hagree, hsub, hknown⟩ := h
  refine ⟨hleft, hright, ?_, ?_, ?_⟩
  · rw [loading, hright]
    exact hagree.trans (hs.pending _ _ hne).symm
  · rw [loading, Loader.started_inFlight]
    exact List.append_subset.2 ⟨hsub, by simpa using hfl⟩
  · rw [loading, Loader.started_inFlight]
    intro i hi
    exact (hknown i hi).imp_right (List.mem_append_left _)

theorem InStep.loading (h : InStep tk known b c) (hs : tk.Steady) (id : String) :
    InStep tk known (b.loading id) (c.loading id) := by
  obtain ⟨hleft, hright, hagree, hsub, hknown⟩ := h
  refine ⟨hleft, hright, ?_, ?_, ?_⟩
  · rw [Backend.loading, Backend.loading, hleft, hright]
    exact hs.load _ _ _ hagree
  · rw [Backend.loading, Backend.loading, Loader.started_inFlight, Loader.started_inFlight]
    exact List.append_subset.2 ⟨fun i hi => List.mem_append_left _ (hsub hi), by simp⟩
  · rw [Backend.loading, Backend.loading, Loader.started_inFlight, Loader.started_inFlight]
    intro i hi
    rcases List.mem_append.1 hi with hi | hi
    · exact (hknown i hi).imp_right (List.mem_append_left _)
    · exact .inr (List.mem_append_right _ hi)

/-- Rendering a block keeps two backends in step, unless the second completes a load that only the
first has on its way. -/
theorem InStep.render (h : InStep tk known b c) (hs : tk.Steady) (theme : String) (d : Document)
    {block : Block} (hb : block.bodyStart < block.bodyStop)
    (hq : ∀ e ∈ (c.render theme d block).2.loader.posted, e.succeeded → e.language ∉ known) :
    InStep tk known (b.render theme d block).2 (c.render theme d block).2 := by
  have hb' := b.render_snd theme d hb
  have hc' := c.render_snd theme d hb
  rw [h.left, h.ready, h.agree.resolve] at hb'
  rw [h.right] at hc'
  rcases hc' with ⟨i, hi, hc'⟩ | ⟨hi, hc'⟩
  · rcases hb' with ⟨j, -, hb'⟩ | ⟨hj, -⟩
    · rw [hb', hc']
      exact ⟨rfl, rfl, ((hs.tokenize _ _ _ _).trans h.agree).trans
        (hs.tokenize _ _ _ _).symm, h.subset, h.known⟩
    · rw [hi] at hj
      cases hj
  · rcases hb' with ⟨j, hj, -⟩ | ⟨-, hb'⟩
    · rw [hi] at hj
      cases hj
    · rcases hb' with ⟨hb', hfl⟩ | ⟨j, hj, hjn, hb'⟩ <;>
        rcases hc' with ⟨hc', hfl'⟩ | ⟨i, hi, hin, hc'⟩
      · rw [hb', hc']
        exact h
      · -- only the first backend has the load on its way, so asking for it completes nothing
        have hik : i ∈ known := (h.known i (hfl i hi)).resolve_right hin
        have hne : (tk.load c.state i).2 ≠ some .loaded := by
          intro hl
          refine hq ⟨i, .loaded⟩ ?_ rfl hik
          rw [hc', Backend.loading, Loader.started_posted, h.right, hl]
          simp
        rw [hb', hc']
        exact h.loading_right hs (hfl i hi) hne
      · exact absurd (h.subset (hfl' j hj)) hjn
      · obtain rfl : i = j := Option.some.inj (hi.symm.trans hj)
        rw [hb', hc']
        exact h.loading hs i

theorem InStep.renderAll (h : InStep tk known b c) (hs : tk.Steady) (theme : String) (d : Document)
    {bs : List Block} (hbs : ∀ b ∈ bs, b.bodyStart < b.bodyStop)
    (hq : ∀ e ∈ (c.renderAll theme d bs).2.loader.posted, e.succeeded → e.language ∉ known) :
    (b.renderAll theme d bs).1 = (c.renderAll theme d bs).1 := by
  induction bs generalizing b c with
  | nil => rfl
  | cons block bs ih =>
    have hblock := hbs block List.mem_cons_self
    have hbs' : ∀ c ∈ bs, c.bodyStart < c.bodyStop := fun c hc => hbs c (List.mem_cons_of_mem _ hc)
    have hposted := renderAll_posted theme d bs hbs' (c.render theme d block).2
    rw [renderAll_cons] at hq
    have hstep := h.render hs theme d hblock fun e he => hq e (hposted.subset he)
    have hrest := ih hstep hbs' hq
    simp only [renderAll_cons, render_fst b theme d hblock, render_fst c theme d hblock, h.left,
      h.right, h.agree.answer, hrest]

end Backend

end FencedCode
