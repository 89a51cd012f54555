import FencedCode.Proofs.Carryover
import FencedCode.Proofs.FenceMemory
import FencedCode.Proofs.Locating
import FencedCode.Proofs.Sorting
import FencedCode.Tokenizer.Scripted

namespace FencedCode

/-- Where an offset lies after edits, each made in the text that the one before it left. -/
def Edit.mapAll (es : List Edit) (bias : Bias) (pos : Nat) : Nat :=
  es.foldl (fun pos e => e.mapPos pos bias) pos

namespace Splices

variable {t t' : Text} {es : List Edit}

/-- An offset that all edits avoid lies at the same place whichever way it is mapped. -/
theorem mapAll_eq_moves (hs : Splices t es t') {pos : Nat} (h : Edit.AvoidAll es pos pos)
    (bias : Bias) : Edit.mapAll es bias pos = Edit.moves es pos := by
  induction hs generalizing pos with
  | nil => rfl
  | @cons _ _ _ e es hs _ ih =>
    obtain ⟨ha, hrest⟩ := h
    have htail := ih hrest
    rw [← Edit.mapPos_eq_move ha hs.ordered bias] at htail
    rw [Edit.moves_cons, ← Edit.mapPos_eq_move ha hs.ordered bias]
    exact htail

theorem mapAll_size (hs : Splices t es t') :
    Edit.mapAll es .right (Text.size t) = Text.size t' := by
  induction hs with
  | nil => rfl
  | @cons t t₁ _ e es hs _ ih =>
    have hstep : e.mapPos (Text.size t) .right = Text.size t₁ := by
      have hold := hs.oldEnd_le
      have hsize := hs.size_eq
      obtain ⟨h1, h2⟩ := hs.ordered
      simp only [Edit.mapPos, Bool.or_eq_true, Bool.and_eq_true, decide_eq_true_eq, beq_iff_eq]
      split_ifs <;> omega
    rw [← ih, ← hstep]
    rfl

end Splices

def Region.mapped (r : Region) (es : List Edit) (bias : Bias) : Region :=
  let line (m : Mark) : Mark := { m with start := Edit.mapAll es bias m.start }
  ⟨line r.opener, r.closer.map line⟩

/-- The fenced regions of a document, as a reader finds them who goes over its lines once. -/
def Document.regions (d : Document) : List Region := Region.read none (d.lines.map Line.mark)

namespace Region

variable {t t' : Text} {es : List Edit} {r : Region}

theorem mapped_eq_movedAll (hsp : Splices t es t')
    (hav : ∀ m ∈ Text.fences t, Edit.AvoidAll es m.start m.stop) (hr : r ∈ Text.regions t)
    (bias : Bias) : r.mapped es bias = r.movedAll es := by
  have hline : ∀ m ∈ Text.fences t, Edit.mapAll es bias m.start = Edit.moves es m.start :=
    fun m hm => hsp.mapAll_eq_moves
      (hsp.avoidAll_mono (hav m hm) le_rfl le_rfl m.start_le_stop) bias
  unfold mapped movedAll Mark.movedAll
  dsimp only
  rw [hline _ (Text.opener_mem_fences hr)]
  congr 1
  refine Option.map_congr fun c hc => ?_
  rw [hline c (Text.closer_mem_fences hr hc)]

theorem stop_movedAll (hsp : Splices t es t')
    (hav : ∀ m ∈ Text.fences t, Edit.AvoidAll es m.start m.stop) (hr : r ∈ Text.regions t) :
    (r.movedAll es).stop (Text.size t') = Edit.mapAll es .right (r.stop (Text.size t)) := by
  cases hc : r.closer with
  | none =>
    simp only [movedAll, stop, hc, Option.map_none, Option.elim_none]
    exact hsp.mapAll_size.symm
  | some c =>
    have hline := hav c (Text.closer_mem_fences hr hc)
    simp only [movedAll, stop, hc, Option.map_some, Option.elim_some]
    rw [Mark.movedAll_stop hsp hline, hsp.mapAll_eq_moves
      (hsp.avoidAll_mono hline c.start_le_stop le_rfl le_rfl)]

end Region

namespace Highlighter

variable {σ : Type}

theorem unrepaired_regions_ofText (h : Highlighter σ) (t : Text)
    (replacements : List (Nat × Nat × Text)) :
    let d := Document.ofText t
    let d' := (d.applyAll replacements).1
    let es := (d.applyAll replacements).2
    h.fences = some d.fenceSpans → h.repaired es d'.text = false →
      (∀ bias, d'.regions = d.regions.map (·.mapped es bias)) ∧
        d'.regions.map (·.stop d'.size) =
          d.regions.map fun r => Edit.mapAll es .right (r.stop d.size) := by
  intro d d' es hfences hrepaired
  obtain ⟨t', hd', hsp⟩ := Document.applyAll_ofText t replacements
  change d' = .ofText t' at hd'
  change Splices t es t' at hsp
  rw [hd'] at hrepaired ⊢
  have hremembers : h.Remembers t := fun fs hfs => Option.some.inj (hfs.symm.trans hfences)
  rw [← (h.refenced_blank es _).2] at hrepaired
  obtain ⟨havoid, heq, -⟩ := unrepaired hremembers.sound_blank hsp hrepaired
  simp only [Document.regions, d, Document.read_lines, Document.ofText_size,
    Region.regions_eq_map heq, List.map_map]
  constructor
  · intro bias
    exact List.map_congr_left fun r hr => (Region.mapped_eq_movedAll hsp havoid hr bias).symm
  · exact List.map_congr_left fun r hr => Region.stop_movedAll hsp havoid hr

/-- A batch of edits after which a highlighter that remembers all fence lines pairs none of them
anew has left all pairs as they were. A reader of the new document finds the regions of the old one,
their fence lines saying what they said and standing where the edits map them to, whichever way they
are mapped, and each region ends where its end is mapped to. -/
theorem unrepaired_regions (h : Highlighter σ) {d : Document} (hd : d.Made)
    (replacements : List (Nat × Nat × Text)) :
    let d' := (d.applyAll replacements).1
    let es := (d.applyAll replacements).2
    h.fences = some d.fenceSpans → h.repaired es d'.text = false →
      (∀ bias, d'.regions = d.regions.map (·.mapped es bias)) ∧
        d'.regions.map (·.stop d'.size) =
          d.regions.map fun r => Edit.mapAll es .right (r.stop d.size) := by
  rcases hd.eq_default_or_ofText with rfl | ⟨t, rfl⟩
  · -- without an index there is no text either, and the first replacement makes one
    cases replacements with
    | nil => exact fun _ _ => ⟨fun _ => rfl, rfl⟩
    | cons r rest => exact h.unrepaired_regions_ofText [] (r :: rest)
  · exact h.unrepaired_regions_ofText t replacements

end Highlighter

def Text.twoRegions : Text := "```js\na\n```\nb\n```c\nd".toList

def Highlighter.ofTwoRegions : Highlighter (List String) :=
  ((Session.start ⟨.scripted, [], {}⟩ default "A" .twoRegions).run
    [.attach [.between 0 20]]).highlighter

def Document.draft : Document × List Edit :=
  (ofText .twoRegions).applyAll
    [(12, 12, "```\n".toList), (12, 16, []), (7, 7, "x\n".toList), (22, 22, "!".toList)]

/-- Both regions are still there, further down and longer. -/
theorem Highlighter.unrepaired_regions_draft :
    (Document.ofText .twoRegions).Made ∧
      ofTwoRegions.fences = some (Document.ofText .twoRegions).fenceSpans ∧
        ofTwoRegions.repaired Document.draft.2 Document.draft.1.text = false ∧
          Document.draft.1.regions.map (·.stop Document.draft.1.size) = [13, 23] := by
  have hmade : (Document.ofText .twoRegions).Made := .ofText _
  have hfences : ofTwoRegions.fences = some (Document.ofText .twoRegions).fenceSpans := by
    simp only [ofTwoRegions, Session.run, List.foldl_cons, List.foldl_nil, Session.apply, attach,
      scroll, reconcile, DecorationSet.update, Host.locate, Document.blocksAt, Interval.normalize,
      mergeSort_eq_sortWithin]
    decide +kernel
  have hrepaired : ofTwoRegions.repaired Document.draft.2 Document.draft.1.text = false := by
    simp only [repaired, refenced, after, tracked, hfences, Document.wholeLines, Interval.normalize,
      mergeSort_eq_sortWithin]
    decide +kernel
  obtain ⟨-, hstops⟩ := ofTwoRegions.unrepaired_regions hmade _ hfences hrepaired
  refine ⟨hmade, hfences, hrepaired, hstops.trans ?_⟩
  decide +kernel

end FencedCode
