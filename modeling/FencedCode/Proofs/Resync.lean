import FencedCode.Catalog
import FencedCode.Proofs.Session
import FencedCode.Tokenizer.Scripted

namespace FencedCode

namespace Highlighter

variable {σ : Type} {h k : Highlighter σ} {t : Text}

/-- A new highlighter with the aliases and theme of another. -/
def anew (h : Highlighter σ) (state : σ) : Highlighter σ :=
  { backend := { tokenizer := h.backend.tokenizer, state }, aliases := h.aliases, theme := h.theme }

/-- The intervals in sight, those of the whole text unless told otherwise. -/
def shown (h : Highlighter σ) (d : Document) : List Interval := h.visible.getD [d.all]

theorem repainted_congr {dirty dirty' : List Interval} (ha : h.aliases = k.aliases)
    (hd : ∀ pos, Dirty t dirty pos ∧ h.Shows pos ↔ Dirty t dirty' pos ∧ k.Shows pos) :
    h.repainted t dirty = k.repainted t dirty' := by
  unfold repainted
  rw [ha]
  apply List.filter_congr
  intro b _
  rw [Bool.eq_iff_iff]
  simp only [Interval.any_intersects, touched_visiblePart, Interval.touched_normalize]
  exact exists_congr fun pos => and_congr_left fun _ => hd pos

theorem shows_iff (hs : h.Sound t) {pos : Nat} :
    Dirty t (h.shown (.ofText t)) pos ∧ h.Shows pos ↔ Dirty t (h.shown (.ofText t)) pos := by
  apply and_iff_left_of_imp
  intro hd vs hvs
  rwa [shown, hvs, Option.getD_some, Dirty, Interval.map_clamp (hs.visible vs hvs)] at hd

theorem anew_attach (h : Highlighter σ) (u : σ) (t : Text) (vs : List Interval) :
    ∃ k : Highlighter σ, k.backend = (h.anew u).backend ∧ k.aliases = h.aliases ∧
      k.theme = h.theme ∧ k.decorations = [] ∧
        k.visible = some (Interval.normalize (vs.map (·.clamp (Text.size t)))) ∧
          (h.anew u).attach (.ofText t) vs =
            k.reconcile (.ofText t) (Interval.normalize (vs.map (·.clamp (Text.size t)))) :=
  ⟨{ h.anew u with
      visible := some (Interval.normalize (vs.map (·.clamp (Text.size t))))
      fences := some ((Document.ofText t).fenceLines (Document.ofText t).all) },
    rfl, rfl, rfl, rfl, rfl, rfl⟩

/-- A new highlighter whose tokenizer answers alike is in step, with no load on its way. -/
theorem inStep_anew (h : Highlighter σ) {u : σ}
    (hu : h.backend.tokenizer.Agree h.backend.state u) :
    Backend.InStep h.backend.tokenizer h.backend.loader.inFlight h.backend (h.anew u).backend :=
  ⟨rfl, rfl, hu, List.nil_subset _, fun _ hid => .inl hid⟩

theorem sound_anew (h : Highlighter σ) (u : σ) (t : Text) : (h.anew u).Sound t :=
  sound_nil _ t rfl rfl rfl

/-- Refreshed, a sound highlighter shows over every byte in sight what a new one shows. -/
theorem Sound.refresh_covering (hs : h.Sound t) (hst : h.backend.tokenizer.Steady) {u : σ}
    (hu : h.backend.tokenizer.Agree h.backend.state u)
    (hq : ∀ e ∈ ((h.anew u).attach (.ofText t) (h.shown (.ofText t))).backend.loader.posted,
      e.succeeded → e.language ∉ h.backend.loader.inFlight) {pos : Nat}
    (hpos : Interval.Covered (h.shown (.ofText t)) pos) :
    (h.refresh (.ofText t)).decorations.covering pos =
      ((h.anew u).attach (.ofText t) (h.shown (.ofText t))).decorations.covering pos := by
  have hnew := (h.sound_anew u t).attach (h.shown (.ofText t))
  obtain ⟨k, hkb, hka, hkt, hkd, hkv, hk⟩ := h.anew_attach u t (h.shown (.ofText t))
  -- both paint the same blocks
  have hblocks : h.repainted t (h.shown (.ofText t)) = k.repainted t (Interval.normalize
      ((h.shown (.ofText t)).map (·.clamp (Text.size t)))) := by
    refine repainted_congr hka.symm fun pos => (shows_iff hs).trans ?_
    rw [Shows, hkv, dirty_normalize, Dirty]
    simp
  rw [hk, reconcile_backend, hkt, ← hblocks] at hq
  have hstep := h.inStep_anew hu
  rw [← hkb] at hstep
  have hpaint := hstep.renderAll hst h.theme (.ofText t) (h.repainted_bodies t _) hq
  apply hs.refresh.wellFormed.covering_eq hnew.wellFormed
  intro d hd
  rw [hk, mem_reconcile, hkd, Highlighter.refresh]
  change d ∈ (h.reconcile (.ofText t) (h.shown (.ofText t))).decorations ↔ _
  rw [mem_reconcile, fresh, fresh, hpaint, hkt, ← hblocks]
  simp only [List.not_mem_nil, false_and, false_or]
  apply or_iff_right
  rintro ⟨hold, _, hout⟩
  -- a decoration over a byte in sight lies in a block that is painted again
  obtain ⟨b, hb, hlo, hhi⟩ := hs.exists_block hold h.aliases
  obtain ⟨hstart, hp⟩ := Decoration.within_block hb hd hlo hhi
  have hdirt : Dirty t (h.shown (.ofText t)) pos :=
    Interval.touched_clamp hpos.touched (hp.2.trans (Document.block_bounds hb).2.2.2)
  exact hout b (mem_repainted.2 ⟨hb, pos, hdirt, ((shows_iff hs).2 hdirt).2, hp⟩) hstart

end Highlighter

/-- The bundled tokenizer changes only when the load of a grammar is over. -/
theorem Catalog.tokenizer_steady : Catalog.tokenizer.Steady where
  tokenize s _ _ _ := .refl _ s
  load _ _ _ h := h
  pending s _ _ := .refl _ s

theorem Tokenizer.scripted_steady : Tokenizer.scripted.Steady where
  tokenize s _ _ _ := .refl _ s
  load _ _ _ h := h
  pending s _ _ := .refl _ s

namespace Session

variable {σ : Type}

/-- Whatever has happened, a refresh makes the highlighter show over every byte in sight what a new
one shows whose tokenizer answers alike, as long as the new one does not complete a load that the
other still waits for. -/
theorem refresh_resynchronises (backend : Backend σ) (hst : backend.tokenizer.Steady)
    (aliases : Aliases) (theme : String) (t : Text) (changes : List (Change σ)) (u : σ) :
    let s := (start backend aliases theme t).run changes
    let shown := s.highlighter.shown s.document
    let new := (s.highlighter.anew u).attach s.document shown
    backend.tokenizer.Agree s.highlighter.backend.state u →
      (∀ e ∈ new.backend.loader.posted,
        e.succeeded → e.language ∉ s.highlighter.backend.loader.inFlight) →
      ∀ pos, Interval.Covered shown pos →
        (s.highlighter.refresh s.document).decorations.covering pos =
          new.decorations.covering pos := by
  intro s shown new hu hq pos hpos
  have htk : s.highlighter.backend.tokenizer = backend.tokenizer :=
    (start backend aliases theme t).run_tokenizer changes
  obtain ⟨t', hd, hs⟩ := (sound_start backend aliases theme t).run changes
  change s.document = .ofText t' at hd
  rw [← htk] at hst hu
  unfold new shown at *
  rw [hd] at hq hpos ⊢
  exact hs.refresh_covering hst hu hq hpos

def unnoticed : Session (List String) :=
  (start ⟨.scripted, [], {}⟩ default "A" "```js\nlet a\n```\n".toList).run
    [.attach [.between 0 16], .edit [(6, 6, "x ".toList)], .retool ["javascript"]]

/-- A refresh paints the block as a new highlighter does. -/
theorem refresh_resynchronises_unnoticed :
    (unnoticed.highlighter.refresh unnoticed.document).decorations.covering 8 =
      ((unnoticed.highlighter.anew ["javascript"]).attach unnoticed.document
        (unnoticed.highlighter.shown unnoticed.document)).decorations.covering 8 := by
  have hstate : unnoticed.highlighter.backend.state = ["javascript"] := by decide +kernel
  have hposted : ((unnoticed.highlighter.anew ["javascript"]).attach unnoticed.document
      (unnoticed.highlighter.shown unnoticed.document)).backend.loader.posted = [] := by
    decide +kernel
  have hshown : unnoticed.highlighter.shown unnoticed.document = [.between 0 18] := by
    decide +kernel
  have h := refresh_resynchronises ⟨.scripted, [], {}⟩ Tokenizer.scripted_steady default "A"
    "```js\nlet a\n```\n".toList
    [.attach [.between 0 16], .edit [(6, 6, "x ".toList)], .retool ["javascript"]] ["javascript"]
  dsimp only at h
  rw [← unnoticed, hposted, hshown, hstate] at h
  rw [hshown]
  exact h (.refl _ _) (by simp) 8 ⟨_, List.mem_cons_self, by decide, by decide⟩

end Session

end FencedCode
