import FencedCode.Proofs.Resync
import FencedCode.Proofs.Sorting

namespace FencedCode

/-- Over a byte that none of the other decorations contains a set with them shows what it shows
without. -/
theorem DecorationSet.WellFormed.covering_eq_iff {ds es : DecorationSet} {left : List Decoration}
    {len : Nat} (he : es.WellFormed len) (hperm : ds.Perm (left ++ es)) (pos : Nat) :
    ds.covering pos = es.covering pos ↔ ∀ x ∈ left, ¬ x.contains pos := by
  have hcover : (ds.covering pos).Perm (left.filter (·.contains pos) ++ es.covering pos) := by
    have := hperm.filter (·.contains pos)
    rwa [List.filter_append] at this
  rw [← List.filter_eq_nil_iff]
  constructor
  · intro heq
    have hlen := hcover.length_eq
    rw [heq, List.length_append] at hlen
    exact List.eq_nil_of_length_eq_zero (by omega)
  · intro hnil
    rw [hnil, List.nil_append] at hcover
    -- there is one such decoration or none, so the two cannot differ in their order
    have hone : (es.covering pos).length ≤ 1 := by
      rw [length_covering he.ordered]
      split_ifs <;> decide
    match hes : es.covering pos, hone with
    | [], _ => exact (hes ▸ hcover).eq_nil
    | [x], _ => exact List.perm_singleton.1 (hes ▸ hcover)

namespace Highlighter

variable {σ : Type} {h : Highlighter σ} {t : Text} {visible : List Interval}

/-- The decorations of before that stay when a document is attached: they begin neither in sight nor
in a block that is in sight. -/
def leftovers (h : Highlighter σ) (d : Document) (visible : List Interval) : List Decoration :=
  let shown := visible.map (·.clamp d.size)
  let blocks := d.host.locate h.aliases shown
  h.decorations.filter fun x => !(shown ++ blocks.map (·.span)).any (·.touches x.start)

/-- The highlighter that a document is shown to, before it has looked at any of it. -/
def facing (h : Highlighter σ) (d : Document) (visible : List Interval) : Highlighter σ :=
  { h with
    visible := some (Interval.normalize (visible.map (·.clamp d.size)))
    fences := some (d.fenceLines d.all) }

theorem attach_eq (h : Highlighter σ) (d : Document) (visible : List Interval) :
    h.attach d visible = (h.facing d visible).reconcile d
      (Interval.normalize (visible.map (·.clamp d.size))) := rfl

/-- Reconciling keeps some decorations, adds what is painted anew, and sorts them. -/
theorem reconcile_perm (h : Highlighter σ) (t : Text) (dirty : List Interval) :
    (h.reconcile (.ofText t) dirty).decorations.Perm
      ((h.decorations.filter fun x => kept t dirty (h.repainted t dirty) x.start) ++
        h.fresh t dirty) := by
  by_cases hd : dirty = []
  · subst hd
    have hall : ∀ x ∈ h.decorations, kept t [] (h.repainted t []) x.start = true := fun x _ => by
      rw [kept_iff (h.repainted_le t []), repainted_nil]
      simp [Dirty, Interval.Touched]
    rw [reconcile_nil, List.filter_eq_self.2 hall, fresh, repainted_nil, Backend.renderAll,
      List.append_nil]
  · obtain ⟨a, ha⟩ := reconcile_cons h t hd
    rw [ha]
    exact List.mergeSort_perm _ _

theorem repainted_facing (h : Highlighter σ) (t : Text) (visible : List Interval) :
    (h.facing (.ofText t) visible).repainted t
        (Interval.normalize (visible.map (·.clamp (Text.size t)))) =
      (Document.ofText t).host.locate h.aliases (visible.map (·.clamp (Text.size t))) := by
  rw [Document.locate_eq, repainted, Interval.map_clamp Interval.normalize_clamp_hi_le]
  refine List.filter_congr fun b _ => ?_
  have hshows : ∀ pos, (h.facing (.ofText t) visible).Shows pos ↔
      Interval.Touched (visible.map (·.clamp (Text.size t))) pos := by
    simp [Shows, facing, Document.ofText_size]
  rw [Bool.eq_iff_iff]
  simp only [Interval.any_intersects, touched_visiblePart, Interval.touched_normalize, hshows,
    and_self]

theorem kept_facing (h : Highlighter σ) (t : Text) (visible : List Interval) :
    let dirty := Interval.normalize (visible.map (·.clamp (Text.size t)))
    let k := h.facing (.ofText t) visible
    k.decorations.filter (fun x => kept t dirty (k.repainted t dirty) x.start) =
      h.leftovers (.ofText t) visible := by
  intro dirty k
  refine List.filter_congr fun x _ => congrArg Bool.not ?_
  rw [Bool.eq_iff_iff, Interval.any_touches, Interval.any_touches, Interval.touched_normalize,
    Interval.touched_append, Interval.touched_append, Interval.touched_normalize,
    Interval.map_clamp Interval.normalize_clamp_hi_le, Interval.touched_normalize,
    repainted_facing, Document.ofText_size]

/-- A new highlighter paints the same, unless it completes a load that the other still waits for. -/
theorem fresh_facing (hst : h.backend.tokenizer.Steady) {u : σ}
    (hu : h.backend.tokenizer.Agree h.backend.state u)
    (hq : ∀ e ∈ ((h.anew u).attach (.ofText t) visible).backend.loader.posted,
      e.succeeded → e.language ∉ h.backend.loader.inFlight) :
    let dirty := Interval.normalize (visible.map (·.clamp (Text.size t)))
    (h.facing (.ofText t) visible).fresh t dirty =
      ((h.anew u).facing (.ofText t) visible).fresh t dirty := by
  intro dirty
  rw [attach_eq, Document.ofText_size, reconcile_backend, repainted_facing] at hq
  rw [fresh, fresh, repainted_facing, repainted_facing]
  refine (h.inStep_anew hu).renderAll hst h.theme (.ofText t) (fun b hb => ?_) hq
  rw [Document.locate_eq] at hb
  exact (Document.block_bounds (List.mem_filter.1 hb).1).2.1

theorem attach_perm (hst : h.backend.tokenizer.Steady) {u : σ}
    (hu : h.backend.tokenizer.Agree h.backend.state u)
    (hq : ∀ e ∈ ((h.anew u).attach (.ofText t) visible).backend.loader.posted,
      e.succeeded → e.language ∉ h.backend.loader.inFlight) :
    (h.attach (.ofText t) visible).decorations.Perm (h.leftovers (.ofText t) visible ++
      ((h.anew u).attach (.ofText t) visible).decorations) := by
  have hnew := ((h.anew u).facing (.ofText t) visible).reconcile_perm t
    (Interval.normalize (visible.map (·.clamp (Text.size t))))
  have hold := (h.facing (.ofText t) visible).reconcile_perm t
    (Interval.normalize (visible.map (·.clamp (Text.size t))))
  rw [kept_facing, fresh_facing hst hu hq] at hold
  rw [kept_facing] at hnew
  exact hold.trans (hnew.symm.append_left _)

theorem new_wellFormed (h : Highlighter σ) (u : σ) (t : Text) (visible : List Interval) :
    DecorationSet.WellFormed (Text.size t)
      ((h.anew u).attach (.ofText t) visible).decorations :=
  ((h.sound_anew u t).attach visible).wellFormed

theorem exists_close (h : Highlighter σ) : ∃ announced,
    h.close = { h with visible := none, fences := none, decorations := [], announced } := by
  unfold close
  dsimp only
  split_ifs
  · exact ⟨_, rfl⟩
  · exact ⟨_, rfl⟩

/-- Attaching a document does not clear the decorations, closing does. Whatever a highlighter did
before, once attached it has its leftovers and besides them what a new one has whose tokenizer
answers alike, as long as the new one does not complete a load that the other still waits for. So
its decorations lie in the document exactly if the leftovers do, and it shows over a byte what the
new one shows exactly if no leftover contains the byte. Closed before, it has no leftovers. -/
theorem attach_leaves (h : Highlighter σ) (hst : h.backend.tokenizer.Steady) (t : Text)
    (visible : List Interval) (u : σ) :
    let d := Document.ofText t
    let attached := h.attach d visible
    let new := (h.anew u).attach d visible
    h.backend.tokenizer.Agree h.backend.state u →
      (∀ e ∈ new.backend.loader.posted, e.succeeded → e.language ∉ h.backend.loader.inFlight) →
      attached.decorations.Perm (h.leftovers d visible ++ new.decorations) ∧
        ((∀ x ∈ attached.decorations, x.stop ≤ d.size) ↔
          ∀ x ∈ h.leftovers d visible, x.stop ≤ d.size) ∧
        (∀ pos, attached.decorations.covering pos = new.decorations.covering pos ↔
          ∀ x ∈ h.leftovers d visible, ¬ x.contains pos) ∧
        (h.close.attach d visible).decorations = new.decorations := by
  intro d attached new hu hq
  have hw := h.new_wellFormed u t visible
  have hperm := attach_perm hst hu hq
  refine ⟨hperm, ?_, hw.covering_eq_iff hperm, ?_⟩
  · constructor
    · intro hall x hx
      exact hall x (hperm.mem_iff.2 (List.mem_append_left _ hx))
    · intro hleft x hx
      rcases List.mem_append.1 (hperm.mem_iff.1 hx) with hx | hx
      · exact hleft x hx
      · exact (hw.bounds x hx).2
  · have hclosed := ((Sound.close h t).attach visible).wellFormed
    obtain ⟨a, ha⟩ := h.exists_close
    rw [ha] at hclosed ⊢
    have hsame := attach_perm (h := { h with
      visible := none, fences := none, decorations := [], announced := a }) hst hu hq
    exact DecorationSet.eq_of_mem_iff hclosed.starts hw.starts fun _ => hsame.mem_iff

def ofScript : Highlighter (List String) :=
  ((Session.start ⟨.scripted, ["javascript"], {}⟩ default "A"
    "```js\nabcdefghij\nx\n```\n".toList).run [.attach [.between 0 23]]).highlighter

def digits : Document := .ofText "0123456789ab".toList

/-- Both decorations are leftovers; neither contains the fourth byte, and closing leaves none. -/
theorem attach_leaves_digits :
    let new := (ofScript.anew ["javascript"]).attach digits [.between 8 12]
    ofScript.leftovers digits [.between 8 12] =
        [⟨6, 16, "color: #A;"⟩, ⟨17, 18, "color: #A;"⟩] ∧
      (ofScript.attach digits [.between 8 12]).decorations.covering 3 =
        new.decorations.covering 3 ∧
      (ofScript.close.attach digits [.between 8 12]).decorations = new.decorations := by
  have hleft : ofScript.leftovers digits [.between 8 12] =
      [⟨6, 16, "color: #A;"⟩, ⟨17, 18, "color: #A;"⟩] := by
    simp only [ofScript, Session.run, List.foldl_cons, List.foldl_nil, Session.apply, leftovers,
      attach, scroll, reconcile, DecorationSet.update, Host.locate, Document.blocksAt,
      Interval.normalize, mergeSort_eq_sortWithin]
    decide +kernel
  have hsteady : ofScript.backend.tokenizer.Steady := by
    rw [ofScript, Session.run_tokenizer]
    exact Tokenizer.scripted_steady
  have hstate : ofScript.backend.state = ["javascript"] := by decide +kernel
  have hposted : ((ofScript.anew ["javascript"]).attach digits
      [.between 8 12]).backend.loader.posted = [] := by decide +kernel
  obtain ⟨-, -, hcover, hclosed⟩ := ofScript.attach_leaves hsteady "0123456789ab".toList
    [.between 8 12] ["javascript"] (hstate ▸ .refl _ _)
    (fun e he => absurd (hposted ▸ he) List.not_mem_nil)
  refine ⟨hleft, (hcover 3).2 ?_, hclosed⟩
  rw [← digits, hleft]
  decide

/-- Attached to the shorter document without closing, the highlighter has a decoration that runs
beyond it, and shows over a byte in sight what a new one does not. -/
theorem attach_digits_stale :
    (∃ x ∈ (ofScript.attach digits [.between 8 12]).decorations, digits.size < x.stop) ∧
      Interval.Covered [.between 8 12] 8 ∧
        (ofScript.attach digits [.between 8 12]).decorations.covering 8 ≠
          ((ofScript.anew ofScript.backend.state).attach digits
            [.between 8 12]).decorations.covering 8 := by
  have hstale : (ofScript.attach digits [.between 8 12]).decorations =
      [⟨6, 16, "color: #A;"⟩, ⟨17, 18, "color: #A;"⟩] := by
    simp only [ofScript, Session.run, List.foldl_cons, List.foldl_nil, Session.apply, attach,
      scroll, reconcile, DecorationSet.update, Host.locate, Document.blocksAt, Interval.normalize,
      mergeSort_eq_sortWithin]
    decide +kernel
  have hnew : ((ofScript.anew ofScript.backend.state).attach digits
      [.between 8 12]).decorations = [] := by decide +kernel
  rw [hstale, hnew]
  refine ⟨⟨_, List.mem_cons_self, by decide⟩, ⟨_, List.mem_cons_self, by decide, by decide⟩, ?_⟩
  decide

end Highlighter

end FencedCode
