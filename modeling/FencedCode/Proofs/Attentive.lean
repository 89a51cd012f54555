import FencedCode.Proofs.BackgroundLoads
import FencedCode.Proofs.Bundled
import FencedCode.Proofs.Loads
import FencedCode.Proofs.Resync
import FencedCode.Proofs.Faithful

namespace FencedCode

theorem Catalog.Registry.isLoaded_load {r : Registry} {i : String} (h : r.isLoaded i)
    (id : String) : (r.load id).1.isLoaded i := by
  unfold load
  split
  · exact isLoaded_insert h _ _
  · exact h

/-- With the language of a block loaded, or no such language, two registries answer the same. -/
theorem Catalog.answer_congr {r u : Registry} (hr : r.Made) (hu : u.Made) {language : String}
    (h : ∀ id, resolve language = some id → r.isLoaded id ∧ u.isLoaded id) (theme : String)
    (code : Text) :
    tokenizer.answer r theme language code = tokenizer.answer u theme language code := by
  have hready : ∀ s : Registry, tokenizer.ready s language =
      (resolve language).filter s.isLoaded := fun _ => rfl
  unfold Tokenizer.answer
  rw [hready, hready]
  cases hres : resolve language with
  | none => rfl
  | some id =>
    obtain ⟨hrl, hul⟩ := h id hres
    rw [Option.filter_some, if_pos hrl, Option.filter_some, if_pos hul, Option.bind_some,
      Option.bind_some]
    have htokens : r.tokenize code id theme = u.tokenize code id theme := by
      unfold Registry.tokenize
      by_cases hplain : id = plaintext
      · simp only [hplain, if_true]
      · -- both have the bundled grammar
        obtain ⟨g, hg⟩ : ∃ g, r.grammars.lookup id = some g := by
          simpa [Registry.isLoaded, hplain, Option.isSome_iff_exists] using hrl
        obtain ⟨g', hg'⟩ : ∃ g, u.grammars.lookup id = some g := by
          simpa [Registry.isLoaded, hplain, Option.isSome_iff_exists] using hul
        obtain rfl : g = g' :=
          Except.ok.inj ((hr.compile_eq hg).symm.trans (hu.compile_eq hg'))
        rw [hg, hg']
    exact congrArg Except.toOption htokens

namespace Backend

/-- The language of a block is loaded, on its way or unknown. -/
def Awaits (b : Backend Catalog.Registry) (block : Block) : Prop :=
  ∀ id, Catalog.resolve block.language = some id →
    b.state.isLoaded id ∨ id ∈ b.loader.inFlight

/-- What rendering does to a backend with the bundled tokenizer: it may ask for loads. -/
structure Asks (b c : Backend Catalog.Registry) : Prop where
  tokenizer : c.tokenizer = b.tokenizer
  state : c.state = b.state
  posted : c.loader.posted = b.loader.posted
  inFlight : b.loader.inFlight ⊆ c.loader.inFlight
  sound : b.loader.Sound → c.loader.Sound

theorem Asks.refl (b : Backend Catalog.Registry) : b.Asks b :=
  ⟨rfl, rfl, rfl, List.Subset.refl _, id⟩

variable {b c d : Backend Catalog.Registry} {block : Block}

theorem Asks.trans (h : b.Asks c) (h' : c.Asks d) : b.Asks d :=
  ⟨h'.tokenizer.trans h.tokenizer, h'.state.trans h.state, h'.posted.trans h.posted,
    fun _ hid => h'.inFlight (h.inFlight hid), h'.sound ∘ h.sound⟩

theorem Asks.awaits (h : b.Asks c) (hb : b.Awaits block) : c.Awaits block := by
  intro id hid
  rw [h.state]
  exact (hb id hid).imp_right (@h.inFlight id)

theorem Asks.arrivals (h : b.Asks c) : c.loader.arrivals ≤ b.loader.arrivals := by
  rw [Loader.arrivals, h.posted]
  exact le_rfl

theorem render_asks (htk : b.tokenizer = Catalog.tokenizer) (theme : String) (doc : Document)
    (hb : block.bodyStart < block.bodyStop) :
    b.Asks (b.render theme doc block).2 ∧ (b.render theme doc block).2.Awaits block := by
  rcases b.render_snd theme doc hb with ⟨id, hready, h⟩ | ⟨-, ⟨h, hfl⟩ | ⟨id, hres, hfl, h⟩⟩
  · rw [h, htk]
    refine ⟨⟨htk.symm, rfl, rfl, List.Subset.refl _, fun h => h⟩, fun i hi => .inl ?_⟩
    rw [htk] at hready
    obtain ⟨hres, hload⟩ := Option.filter_eq_some_iff.1 hready
    obtain rfl := Option.some.inj (hi.symm.trans hres)
    exact hload
  · rw [h]
    rw [htk] at hfl
    exact ⟨.refl b, fun i hi => .inr (hfl i hi)⟩
  · rw [h]
    rw [htk] at hres
    have hload : b.tokenizer.load b.state id = (b.state, none) := by rw [htk]; rfl
    unfold loading
    rw [hload]
    refine ⟨⟨rfl, rfl, by simp, ?_, fun hs => hs.started hfl none⟩, fun i hi => .inr ?_⟩
    · rw [Loader.started_inFlight]
      exact List.subset_append_left _ _
    · obtain rfl := Option.some.inj (hi.symm.trans hres)
      simp

theorem renderAll_asks (htk : b.tokenizer = Catalog.tokenizer) (theme : String) (doc : Document)
    {bs : List Block} (hbs : ∀ b ∈ bs, b.bodyStart < b.bodyStop) :
    b.Asks (b.renderAll theme doc bs).2 ∧
      ∀ block ∈ bs, (b.renderAll theme doc bs).2.Awaits block := by
  induction bs generalizing b with
  | nil => exact ⟨.refl b, by simp⟩
  | cons block bs ih =>
    obtain ⟨hb, hbs⟩ := List.forall_mem_cons.1 hbs
    obtain ⟨hasks, hawaits⟩ := render_asks htk theme doc hb
    obtain ⟨hasks', hawaits'⟩ := ih (hasks.tokenizer.trans htk) hbs
    rw [renderAll_cons]
    exact ⟨hasks.trans hasks', List.forall_mem_cons.2 ⟨hasks'.awaits hawaits, hawaits'⟩⟩

end Backend

theorem Loader.drain_of_posted_eq_nil {l : Loader} (h : l.posted = []) : l.drain.2 = l := by
  obtain ⟨inFlight, tickets, posted⟩ := l
  obtain rfl : posted = [] := h
  simp [drain]

theorem Loader.Sound.ticket_mem {l : Loader} (h : l.Sound) {id : String} (hid : id ∈ l.tickets) :
    id ∈ l.inFlight := by
  by_contra hfl
  have hpending := h id
  have := List.count_pos_iff.2 hid
  rw [if_neg hfl, pending] at hpending
  omega

namespace Highlighter

variable {h : Highlighter Catalog.Registry} {t : Text}

structure Fortunate (h : Highlighter Catalog.Registry) (t : Text) : Prop where
  tokenizer : h.backend.tokenizer = Catalog.tokenizer
  sound : h.Sound t
  registry : h.backend.state.Made
  loader : h.backend.loader.Sound
  posted : ∀ e ∈ h.backend.loader.posted, e.succeeded

/-- Nothing in sight is forgotten. -/
structure Attentive (h : Highlighter Catalog.Registry) (t : Text) : Prop extends
    h.Fortunate t where
  awaits : ∀ b ∈ (Document.ofText t).blocks h.aliases, ∀ pos, h.InSight pos → b.start ≤ pos →
    pos ≤ b.stop → h.backend.Awaits b
  faithful : h.backend.loader.inFlight = [] → h.Faithful t

theorem Fortunate.stable (hf : h.Fortunate t) : h.backend.tokenizer.Stable :=
  hf.tokenizer ▸ Catalog.tokenizer_steady.stable

theorem reconcile_asks (htk : h.backend.tokenizer = Catalog.tokenizer) (t : Text)
    (dirty : List Interval) :
    h.backend.Asks (h.reconcile (.ofText t) dirty).backend ∧
      ∀ b ∈ h.repainted t dirty, (h.reconcile (.ofText t) dirty).backend.Awaits b := by
  rw [reconcile_backend]
  exact Backend.renderAll_asks htk h.theme (.ofText t) (h.repainted_bodies t dirty)

theorem Fortunate.of_asks (hf : h.Fortunate t) {k : Highlighter Catalog.Registry} (hk : k.Sound t)
    (hasks : h.backend.Asks k.backend) : k.Fortunate t :=
  ⟨hasks.tokenizer.trans hf.tokenizer, hk, hasks.state ▸ hf.registry, hasks.sound hf.loader,
    hasks.posted ▸ hf.posted⟩

/-- After a refresh nothing in sight is forgotten. -/
theorem Fortunate.refresh (hf : h.Fortunate t) : (h.refresh (.ofText t)).Attentive t := by
  obtain ⟨hasks, hawaits⟩ :=
    reconcile_asks hf.tokenizer t (h.visible.getD [(Document.ofText t).all])
  refine ⟨hf.of_asks hf.sound.refresh hasks, fun b hb pos hpos hlo hhi => hawaits b ?_,
    fun _ => hf.sound.faithful_refresh hf.stable hasks.arrivals⟩
  rw [Highlighter.refresh, (h.reconcile_rest t _).2.2.2] at hb
  rw [Highlighter.refresh, insight_reconcile] at hpos
  refine mem_repainted.2 ⟨hb, pos, ?_, hpos.shows, hlo, hhi⟩
  have hle := hpos.le hf.sound
  obtain ⟨vs, hvs, hc⟩ := hpos
  rw [hvs, Option.getD_some]
  exact Interval.touched_clamp hc.touched hle

/-- Scrolling forgets nothing that was in sight and attends to what comes into it. -/
theorem Attentive.scroll (ha : h.Attentive t) (visible : List Interval) :
    (h.scroll (.ofText t) visible).Attentive t := by
  have hsound := ha.sound.scroll visible
  have hfaithful := fun hf : h.Faithful t => hf.scroll ha.stable visible
  obtain ⟨k, dirty, hkb, -, hka, -, -, hscroll, hclean⟩ := h.exists_scroll_eq t visible
  obtain ⟨hasks, hawaits⟩ := reconcile_asks (hkb ▸ ha.tokenizer) t dirty
  rw [hkb] at hasks
  rw [hscroll] at hsound hfaithful ⊢
  refine ⟨ha.of_asks hsound hasks, fun b hb pos hpos hlo hhi => ?_, fun hfl => ?_⟩
  · rw [(k.reconcile_rest t _).2.2.2, hka] at hb
    rw [insight_reconcile] at hpos
    by_cases hin : b ∈ k.repainted t dirty
    · exact hawaits b hin
    · exact hasks.awaits (ha.awaits b hb pos (hclean b hb pos hpos hlo hhi hin).1 hlo hhi)
  · -- nothing is on its way, so nothing was
    exact hfaithful (ha.faithful (List.subset_nil.1 (hfl ▸ hasks.inFlight))) hasks.arrivals

theorem Fortunate.attach (hf : h.Fortunate t) (visible : List Interval) :
    (h.attach (.ofText t) visible).Attentive t := by
  have hnone : Highlighter.Attentive { h with visible := none } t := by
    refine ⟨⟨hf.tokenizer, ?_, hf.registry, hf.loader, hf.posted⟩, ?_,
      fun _ => faithful_of_visible_eq_none rfl⟩
    · exact ⟨hf.sound.fences, by simp, hf.sound.wellFormed, hf.sound.rooted, hf.sound.clear⟩
    · rintro b - pos ⟨vs, hvs, -⟩
      cases hvs
  exact hnone.scroll visible

theorem setTheme_eq (htk : h.backend.tokenizer = Catalog.tokenizer) (d : Document) {theme : Theme}
    (htheme : theme ∈ Theme.bundled) :
    h.setTheme d theme.id = .ok ({ h with theme := theme.id }.refresh d) := by
  have hcolors : Catalog.tokenizer.colors h.backend.state theme.id = some theme.colors := by
    change (Theme.find? theme.id).map (·.colors) = some theme.colors
    rw [Theme.find?_id htheme, Option.map_some]
  unfold Highlighter.setTheme
  rw [htk, hcolors]

theorem Fortunate.retheme (hf : h.Fortunate t) (theme : String) :
    Highlighter.Fortunate { h with theme } t :=
  ⟨hf.tokenizer, hf.sound.congr rfl rfl rfl, hf.registry, hf.loader, hf.posted⟩

/-- Taking note of finished loads paints what has waited for them. -/
theorem Attentive.processLoads (ha : h.Attentive t) :
    (h.processLoads (.ofText t)).1.Attentive t := by
  unfold Highlighter.processLoads
  dsimp only
  split_ifs with hany
  · have hf : Highlighter.Fortunate
        { h with backend := { h.backend with loader := h.backend.loader.drain.2 } } t :=
      ⟨ha.tokenizer, ha.sound.congr rfl rfl rfl, ha.registry, ha.loader.drain, by
        simp [Loader.drain]⟩
    exact hf.refresh
  · -- all loads succeed, so none is over
    have hposted : h.backend.loader.posted = [] := by
      refine List.eq_nil_iff_forall_not_mem.2 fun e he => hany ?_
      exact List.any_eq_true.2 ⟨e, he, ha.posted e he⟩
    rw [Loader.drain_of_posted_eq_nil hposted]
    exact ha

/-- The grammar of a language whose load is under way is compiled. What waits for it is not painted
yet. -/
theorem Attentive.publish (ha : h.Attentive t) {id : String}
    (hid : id ∈ h.backend.loader.tickets) :
    Highlighter.Attentive
      { h with backend := { h.backend with state := (h.backend.state.load id).1 } } t := by
  refine ⟨⟨ha.tokenizer, ha.sound.congr rfl rfl rfl, ha.registry.load id, ha.loader, ha.posted⟩,
    fun b hb pos hpos hlo hhi i hi => ?_, fun hfl => ?_⟩
  · exact (ha.awaits b hb pos hpos hlo hhi i hi).imp_left
      (Catalog.Registry.isLoaded_load · id)
  · exact absurd (ha.loader.ticket_mem hid) (hfl ▸ List.not_mem_nil)

/-- A load is reported over. It is on its way until that has been taken note of. -/
theorem Attentive.report (ha : h.Attentive t) {id : String}
    (hid : id ∈ h.backend.loader.tickets) :
    Highlighter.Attentive
      { h with backend := { h.backend with loader := h.backend.loader.complete id .loaded } }
      t := by
  have hfl : (h.backend.loader.complete id .loaded).inFlight = h.backend.loader.inFlight :=
    Loader.complete_inFlight _ _ _
  have hposted : ∀ e ∈ (h.backend.loader.complete id .loaded).posted, e.succeeded := by
    rw [Loader.complete_of_mem hid]
    exact List.forall_mem_append.2 ⟨ha.posted, by simp [LoadEvent.succeeded]⟩
  refine ⟨⟨ha.tokenizer, ha.sound.congr rfl rfl rfl, ha.registry, ha.loader.complete id .loaded,
    hposted⟩, fun b hb pos hpos hlo hhi i hi => ?_, fun hnone => ?_⟩
  · exact (ha.awaits b hb pos hpos hlo hhi i hi).imp_right fun hmem => hfl ▸ hmem
  · exact absurd (ha.loader.ticket_mem hid) ((hfl.symm.trans hnone) ▸ List.not_mem_nil)

theorem Attentive.announced (ha : h.Attentive t) (announced : List DecorationSet) :
    Highlighter.Attentive { h with announced } t :=
  ⟨⟨ha.tokenizer, ha.sound.congr rfl rfl rfl, ha.registry, ha.loader, ha.posted⟩, ha.awaits,
    ha.faithful⟩

theorem fortunate_new (aliases : Aliases) (theme : String) (t : Text) :
    Fortunate { backend := { tokenizer := Catalog.tokenizer, state := {} }, aliases, theme } t :=
  ⟨rfl, sound_nil _ t rfl rfl rfl, .empty, Loader.sound_empty, by simp⟩

theorem processLoads_rest (h : Highlighter Catalog.Registry) (t : Text) :
    (h.processLoads (.ofText t)).1.visible = h.visible ∧
      (h.processLoads (.ofText t)).1.theme = h.theme ∧
        (h.processLoads (.ofText t)).1.aliases = h.aliases := by
  unfold Highlighter.processLoads
  dsimp only
  split_ifs
  · obtain ⟨hvisible, -, hrest⟩ := Highlighter.reconcile_rest
      { h with backend := { h.backend with loader := h.backend.loader.drain.2 } } t
      (h.visible.getD [(Document.ofText t).all])
    exact ⟨hvisible, hrest⟩
  · exact ⟨rfl, rfl, rfl⟩

/-- Two attentive highlighters of one text that have the same in sight, in the same theme, show the
same once nothing is on its way. -/
theorem Attentive.covering_eq {k : Highlighter Catalog.Registry} (ha : h.Attentive t)
    (ka : k.Attentive t) (haliases : h.aliases = k.aliases) (htheme : h.theme = k.theme)
    (hvisible : h.visible = k.visible) (hfl : h.backend.loader.inFlight = [])
    (kfl : k.backend.loader.inFlight = []) {pos : Nat} (hpos : h.InSight pos) :
    h.decorations.covering pos = k.decorations.covering pos := by
  have kpos : k.InSight pos := by rwa [InSight, ← hvisible]
  refine covering_eq_of_faithfulAt ha.sound ka.sound (fun b hb hlo hhi => ?_)
    (fun b hb => ha.faithful hfl b hb pos hpos)
    (fun b hb => ka.faithful kfl b (haliases ▸ hb) pos kpos)
  -- the language of the block is loaded in both, or unknown
  have hloaded : ∀ id, Catalog.resolve b.language = some id →
      h.backend.state.isLoaded id ∧ k.backend.state.isLoaded id := by
    intro id hid
    have h1 := ha.awaits b hb pos hpos hlo hhi id hid
    have h2 := ka.awaits b (haliases ▸ hb) pos kpos hlo hhi id hid
    rw [hfl] at h1
    rw [kfl] at h2
    exact ⟨h1.resolve_right List.not_mem_nil, h2.resolve_right List.not_mem_nil⟩
  unfold Document.paint answer
  rw [ha.tokenizer, ka.tokenizer, ← htheme,
    Catalog.answer_congr ha.registry ka.registry hloaded]

end Highlighter

end FencedCode
