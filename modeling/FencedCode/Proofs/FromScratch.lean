import FencedCode.Proofs.Incremental
import FencedCode.Proofs.Resync
import FencedCode.Proofs.Sorting

namespace FencedCode

namespace Highlighter

variable {σ : Type} {h : Highlighter σ} {t : Text}

theorem Current.setTheme (hc : h.Current t) (hp : h.backend.tokenizer.Pure) {theme : String}
    {h' : Highlighter σ} (hok : h.setTheme (.ofText t) theme = .ok h') : h'.Current t := by
  have hs := hc.sound
  unfold Highlighter.setTheme at hok
  split at hok
  · cases hok
  · obtain rfl := Except.ok.inj hok
    have hs' : Highlighter.Sound { h with theme } t := hs.congr rfl rfl rfl
    exact hs'.current_refresh hp.stable

theorem Current.processLoads (hc : h.Current t) (hp : h.backend.tokenizer.Pure) :
    (h.processLoads (.ofText t)).1.Current t := by
  have hs := hc.sound
  unfold Highlighter.processLoads
  dsimp only
  split_ifs with hany
  · have hs' : Highlighter.Sound
        { h with backend := { h.backend with loader := h.backend.loader.drain.2 } } t :=
      hs.congr rfl rfl rfl
    exact hs'.current_refresh hp.stable
  · refine ⟨hs.congr rfl rfl rfl, fun _ => ?_⟩
    refine hc.faithful (List.countP_eq_zero.2 fun e he hsucc => hany ?_)
    exact List.any_eq_true.2 ⟨e, he, hsucc⟩

/-- A load that is over either waits to be drained as a success or has changed nothing. -/
theorem Current.finish (hc : h.Current t) (hp : h.backend.tokenizer.Pure) {id : String}
    {result : LoadResult} {state : σ} (hid : id ∈ h.backend.loader.tickets)
    (hready : result ≠ .loaded →
      h.backend.tokenizer.ready state = h.backend.tokenizer.ready h.backend.state) :
    Highlighter.Current { h with backend := { h.backend with
      state, loader := h.backend.loader.complete id result } } t := by
  have hs := hc.sound
  refine ⟨hs.congr rfl rfl rfl, fun ha => ?_⟩
  have hcount : h.backend.loader.arrivals + [LoadEvent.mk id result].countP (·.succeeded) = 0 := by
    rw [← ha, Loader.arrivals, Loader.arrivals, Loader.complete, if_pos hid, List.countP_append]
  -- a success would be one more arrival
  have hne : result ≠ .loaded := by
    rintro rfl
    have hone : [LoadEvent.mk id .loaded].countP (·.succeeded) = 1 := rfl
    omega
  -- so the same languages are ready, and the tokenizer answers as before
  have hanswer : h.backend.tokenizer.answer state h.theme = h.answer :=
    congrFun (hp.answer (hready hne)) _
  have hold := hc.faithful (by omega)
  intro b hb pos hpos d hd hlo hhi
  have := hold b hb pos hpos d hd hlo hhi
  rwa [← hanswer] at this

/-- A new highlighter, attached with the intervals of another, is faithful to the same answers. -/
theorem current_anew (hp : h.backend.tokenizer.Pure) {u : σ}
    (hu : h.backend.tokenizer.ready u = h.backend.tokenizer.ready h.backend.state)
    {vs : List Interval}
    (ha : ((h.anew u).attach (.ofText t) vs).backend.loader.arrivals = 0) :
    ((h.anew u).attach (.ofText t) vs).Current t ∧
      ((h.anew u).attach (.ofText t) vs).answer = h.answer ∧
        ((h.anew u).attach (.ofText t) vs).aliases = h.aliases := by
  have hcur := (h.sound_anew u t).current_attach hp.stable vs
  obtain ⟨k, hkb, hka, hkt, -, -, hk⟩ := h.anew_attach u t vs
  have hktk : k.backend.tokenizer = h.backend.tokenizer := by rw [hkb]; rfl
  rw [hk] at ha hcur ⊢
  refine ⟨hcur, ?_, (k.reconcile_rest t _).2.2.2.trans hka⟩
  rw [(quiet_of_arrivals ha).answer (hktk ▸ hp.stable), answer, answer, hkb, hkt]
  exact congrFun (hp.answer hu) _

theorem insight_anew (hs : h.Sound t) {u : σ} {vs : List Interval} (hvs : h.visible = some vs)
    {pos : Nat} (hpos : h.InSight pos) : ((h.anew u).attach (.ofText t) vs).InSight pos := by
  obtain ⟨k, -, -, -, -, hkv, hk⟩ := h.anew_attach u t vs
  obtain ⟨ws, hws, hc⟩ := hpos
  obtain rfl : vs = ws := Option.some.inj (hvs.symm.trans hws)
  rw [Interval.map_clamp (hs.visible vs hvs)] at hkv
  rw [hk, insight_reconcile]
  exact ⟨_, hkv, Interval.covered_normalize.2 hc⟩

/-- To be faithful is to show over every byte in sight what a new highlighter shows. -/
theorem Sound.faithful_iff (hs : h.Sound t) (hp : h.backend.tokenizer.Pure) {u : σ}
    (hu : h.backend.tokenizer.ready u = h.backend.tokenizer.ready h.backend.state)
    {vs : List Interval} (hvs : h.visible = some vs)
    (ha : ((h.anew u).attach (.ofText t) vs).backend.loader.arrivals = 0) :
    h.Faithful t ↔ ∀ pos, Interval.Covered vs pos → h.decorations.covering pos =
      ((h.anew u).attach (.ofText t) vs).decorations.covering pos := by
  obtain ⟨hcur, hanswer, haliases⟩ := current_anew hp hu ha
  have hnew : ∀ b ∈ (Document.ofText t).blocks h.aliases, ∀ pos, h.InSight pos →
      ((h.anew u).attach (.ofText t) vs).FaithfulAt t b pos := fun b hb pos hpos =>
    hcur.faithful ha b (haliases ▸ hb) pos (insight_anew hs hvs hpos)
  constructor
  · intro hf pos hpos
    have hin : h.InSight pos := ⟨vs, hvs, hpos⟩
    apply covering_eq_of_faithfulAt hs hcur.sound (fun b _ _ _ => by rw [hanswer])
      (fun b hb => hf b hb pos hin)
    intro b hb
    exact hnew b (haliases ▸ hb) pos hin
  · intro hover b hb pos hin
    obtain ⟨ws, hws, hpos⟩ := hin
    obtain rfl : vs = ws := Option.some.inj (hvs.symm.trans hws)
    exact faithfulAt_of_covering_eq hanswer.symm (hnew b hb pos ⟨vs, hvs, hpos⟩) (hover pos hpos)

end Highlighter

theorem Tokenizer.scripted_pure : Tokenizer.scripted.Pure where
  tokenize _ _ _ _ _ _ _ := rfl
  tokenize_ready _ _ _ _ := rfl
  load_ready _ _ _ := rfl

namespace Session

variable {σ : Type}

/-- What may happen while the aliases stay, edits are made in sight and the tokenizer has other
languages ready only when one that it was asked for has been loaded. -/
def Allowed (s : Session σ) : Change σ → Prop
  | .attach _ | .scroll _ | .setTheme _ | .refresh | .processLoads => True
  | .edit replacements => ∃ vs, s.highlighter.visible = some vs ∧
      Edit.InsideAll vs (s.document.applyAll replacements).2
  | .finish id result state => id ∈ s.highlighter.backend.loader.tickets ∧
      (result ≠ .loaded → s.highlighter.backend.tokenizer.ready state =
        s.highlighter.backend.tokenizer.ready s.highlighter.backend.state)
  | .setAliases _ | .configure _ _ | .close | .retool _ => False

/-- The sessions that allowed changes lead to. -/
inductive Reaches (s₀ : Session σ) : Session σ → Prop
  | start : Reaches s₀ s₀
  | step {s : Session σ} {c : Change σ} (h : Reaches s₀ s) (hc : s.Allowed c) :
    Reaches s₀ (s.apply c)

/-- The highlighter is up to date with its document. -/
def Current (s : Session σ) : Prop := ∃ t, s.document = .ofText t ∧ s.highlighter.Current t

theorem Current.apply {s : Session σ} (hs : s.Current) (hp : s.highlighter.backend.tokenizer.Pure)
    {c : Change σ} (hc : s.Allowed c) : (s.apply c).Current := by
  obtain ⟨t, hd, hs⟩ := hs
  obtain ⟨h, d⟩ := s
  obtain rfl : d = .ofText t := hd
  cases c with
  | attach visible => exact ⟨t, rfl, hs.sound.current_attach hp.stable visible⟩
  | scroll visible => exact ⟨t, rfl, hs.scroll hp.stable visible⟩
  | edit replacements =>
    obtain ⟨vs, hvs, hin⟩ := hc
    obtain ⟨t', ht', hsp⟩ := Document.applyAll_ofText t replacements
    refine ⟨t', ht', ?_⟩
    change (h.edit ((Document.ofText t).applyAll replacements).1 _).Current t'
    rw [ht']
    exact hs.edit hp hsp hvs hin
  | setTheme theme =>
    unfold Session.apply
    dsimp only
    split
    · rename_i h' hok
      exact ⟨t, rfl, hs.setTheme hp hok⟩
    · exact ⟨t, rfl, hs⟩
  | refresh => exact ⟨t, rfl, hs.sound.current_refresh hp.stable⟩
  | processLoads => exact ⟨t, rfl, hs.processLoads hp⟩
  | finish id result state => exact ⟨t, rfl, hs.finish hp hc.1 hc.2⟩
  | setAliases aliases => exact hc.elim
  | configure aliases theme => exact hc.elim
  | close => exact hc.elim
  | retool state => exact hc.elim

theorem current_start (backend : Backend σ) (aliases : Aliases) (theme : String) (t : Text) :
    (start backend aliases theme t).Current := by
  refine ⟨t, rfl, Highlighter.sound_nil _ t rfl rfl rfl, fun _ b _ pos hpos => ?_⟩
  obtain ⟨vs, hvs, -⟩ := hpos
  cases hvs

theorem Reaches.current {s₀ s : Session σ} (h : s₀.Reaches s) (hs₀ : s₀.Current)
    (hp : s₀.highlighter.backend.tokenizer.Pure) :
    s.Current ∧ s.highlighter.backend.tokenizer = s₀.highlighter.backend.tokenizer := by
  induction h with
  | start => exact ⟨hs₀, rfl⟩
  | step _ hc ih =>
    obtain ⟨hcur, htk⟩ := ih
    exact ⟨hcur.apply (htk ▸ hp) hc, (apply_tokenizer _ _).trans htk⟩

/-- Incremental highlighting equals highlighting from scratch: as long as edits are made in sight
and once no successful load waits to be drained, every byte in sight is decorated as by a new
highlighter with the same languages ready that is attached to the document as it is. -/
theorem incremental_eq_scratch (backend : Backend σ) (hp : backend.tokenizer.Pure)
    (aliases : Aliases) (theme : String) (t : Text) {s : Session σ}
    (hs : (start backend aliases theme t).Reaches s)
    (hdrained : s.highlighter.backend.loader.arrivals = 0) {vs : List Interval}
    (hvs : s.highlighter.visible = some vs) (u : σ)
    (hu : backend.tokenizer.ready u = backend.tokenizer.ready s.highlighter.backend.state)
    (hnew : ((s.highlighter.anew u).attach s.document vs).backend.loader.arrivals = 0) (pos : Nat)
    (hpos : Interval.Covered vs pos) :
    s.highlighter.decorations.covering pos =
      ((s.highlighter.anew u).attach s.document vs).decorations.covering pos := by
  obtain ⟨⟨t', hd, hcur⟩, htk⟩ := hs.current (current_start backend aliases theme t) hp
  change s.highlighter.backend.tokenizer = backend.tokenizer at htk
  rw [← htk] at hp hu
  rw [hd] at hnew ⊢
  exact (hcur.sound.faithful_iff hp hu hvs hnew).1 (hcur.faithful hdrained) pos hpos

def typed : Session (List String) :=
  ((start ⟨.scripted, ["javascript"], {}⟩ default "A" "```js\nlet a\n```\n".toList).apply
    (.attach [.between 0 16])).apply (.edit [(6, 6, "x ".toList)])

theorem incremental_eq_scratch_typed :
    typed.highlighter.decorations.covering 8 =
      ((typed.highlighter.anew ["javascript"]).attach typed.document
        [.between 0 18]).decorations.covering 8 := by
  have hreach : (start ⟨.scripted, ["javascript"], {}⟩ default "A"
      "```js\nlet a\n```\n".toList).Reaches typed := by
    refine .step (.step .start trivial) ⟨[.between 0 16], by decide +kernel, ?_⟩
    exact ⟨⟨_, List.mem_cons_self, by decide +kernel, by decide +kernel⟩, trivial⟩
  obtain ⟨hstate, hdrained, hvisible, hnew⟩ :
      typed.highlighter.backend.state = ["javascript"] ∧
        typed.highlighter.backend.loader.arrivals = 0 ∧
          typed.highlighter.visible = some [.between 0 18] ∧
            ((typed.highlighter.anew ["javascript"]).attach typed.document
              [.between 0 18]).backend.loader.arrivals = 0 := by
    simp only [typed, apply, Highlighter.attach, Highlighter.scroll, Highlighter.edit,
      Highlighter.reconcile, Highlighter.refence, DecorationSet.update, Host.locate,
      Document.blocksAt, Document.wholeLines, Interval.normalize, mergeSort_eq_sortWithin]
    decide +kernel
  exact incremental_eq_scratch ⟨.scripted, ["javascript"], {}⟩ Tokenizer.scripted_pure default "A"
    "```js\nlet a\n```\n".toList hreach hdrained hvisible ["javascript"] (by rw [hstate]) hnew 8
    ⟨_, List.mem_cons_self, by decide, by decide⟩

end Session

end FencedCode
