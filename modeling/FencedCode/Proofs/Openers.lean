import FencedCode.Proofs.FenceMemory
import FencedCode.Proofs.OpeningPattern
import FencedCode.Tokenizer.Scripted

namespace FencedCode

/-- What a scan gives is the start of the block being read or of a line with a tag. -/
theorem Fence.mem_scan {len last : Nat} {near : List Interval} {opened : Option Nat}
    {ls : List Line} {pos : Nat} (h : pos ∈ scan len last near opened ls) :
    opened = some pos ∨ ∃ l ∈ ls, l.start = pos ∧ (tag? l.text).isSome := by
  induction ls generalizing near opened with
  | nil =>
    cases opened with
    | none => cases h
    | some start =>
      simp only [scan] at h
      split_ifs at h
      · exact .inl (congrArg some (List.mem_singleton.1 h).symm)
      · cases h
  | cons l ls ih =>
    have hrest : ∀ {near opened}, pos ∈ scan len last near opened ls →
        opened = some pos ∨ ∃ m ∈ l :: ls, m.start = pos ∧ (tag? m.text).isSome := by
      intro near opened h
      refine (ih h).imp_right fun hline => ?_
      obtain ⟨m, hm, hpos⟩ := hline
      exact ⟨m, List.mem_cons_of_mem l hm, hpos⟩
    cases opened with
    | none =>
      simp only [scan] at h
      split_ifs at h with hlast htag
      · cases h
      · -- the block that is read from here on is the one that this line opens
        refine .inr ((hrest h).elim (fun hstart => ?_) id)
        exact ⟨l, List.mem_cons_self, Option.some.inj hstart, htag⟩
      · exact hrest h
    | some start =>
      simp only [scan] at h
      split_ifs at h
      · rcases List.mem_cons.1 h with rfl | h
        · exact .inl rfl
        · exact .inr ((hrest h).resolve_left (Option.some_ne_none pos).symm)
      · exact .inr ((hrest h).resolve_left (Option.some_ne_none pos).symm)
      · exact hrest h

theorem Document.exists_line_of_mem_openers {d : Document} {near : List Interval} {pos : Nat}
    (h : pos ∈ d.openers near) :
    ∃ l ∈ d.lines, l.start = pos ∧ (Fence.tag? l.text).isSome := by
  unfold openers at h
  split at h
  · cases h
  · exact (Fence.mem_scan h).resolve_left (Option.some_ne_none pos).symm

namespace Session

variable {σ : Type}

/-- The tag of a line is what the pattern of an opening line captures. There is one exactly if the
line starts with three ticks, it is the longest run of what is no white space behind all leading
ticks, and such a line looks like a closing fence, as do exactly the lines with three ticks behind
their leading white space. So whatever happens to a document after a highlighter was attached to it,
each line that a scan can find to open a block is in the memory of fence lines, unless that was
emptied by closing. -/
theorem openers_remembered (h : Highlighter σ) (t : Text) (visible : List Interval)
    (changes : List (Change σ)) :
    (∀ line : Text,
      Fence.tag? line = Fence.captured? line ∧
      ((Fence.tag? line).isSome ↔ [Fence.tick, Fence.tick, Fence.tick] <+: line) ∧
      (∀ tag, Fence.tag? line = some tag ↔ Fence.Tagged line tag) ∧
      (∀ tag, Fence.tag? line = some tag → tag.head? ≠ some Fence.tick ∧ Fence.closes line) ∧
      (Fence.closes line ↔ ∃ blank rest, Text.LongestRun Text.isBlank line blank rest ∧
        [Fence.tick, Fence.tick, Fence.tick] <+: rest)) ∧
    let s := run ⟨h.attach (.ofText t) visible, .ofText t⟩ changes
    (∀ near, ∀ pos ∈ s.document.openers near,
      ∃ line ∈ s.document.lines, line.start = pos ∧ (Fence.tag? line.text).isSome) ∧
    ((∃ fences, s.highlighter.fences = some fences ∧ ∀ line ∈ s.document.lines,
        (Fence.tag? line.text).isSome → .between line.start line.stop ∈ fences) ∨
      s.highlighter.fences = none ∧ Change.close ∈ changes) := by
  have hcloses : ∀ {line tag}, Fence.tag? line = some tag → Fence.closes line := fun htag =>
    Fence.closes_of_isSome_tag? (Option.isSome_of_eq_some htag)
  refine ⟨fun line => ⟨Fence.tag?_eq_captured? line, Fence.isSome_tag?_iff,
    fun tag => Fence.tag?_eq_some_iff, fun tag htag => ?_, Fence.closes_iff⟩, ?_⟩
  · exact ⟨(Fence.tag?_eq_some_iff.1 htag).head?_ne, hcloses htag⟩
  · intro s
    refine ⟨fun near pos => Document.exists_line_of_mem_openers, ?_⟩
    obtain ⟨t', hd, hfences⟩ := fences_attached h t visible changes
    change s.document = .ofText t' at hd
    rw [← hd] at hfences
    refine hfences.imp_left fun hfences => ⟨_, hfences, fun line hline htag => ?_⟩
    exact List.mem_map.2
      ⟨line, List.mem_filter.2 ⟨hline, Fence.closes_of_isSome_tag? htag⟩, rfl⟩

def fourTicks : Session Unit :=
  let h : Highlighter Unit := { backend := ⟨.fixed [], (), {}⟩, aliases := default, theme := "A" }
  let d := Document.ofText "a\n\x60\x60c\x60 b\nd\n".toList
  run ⟨h.attach d [.between 0 1], d⟩ [.edit [(2, 2, "\x60\x60".toList)], .scroll [.between 0 12]]

/-- The line opens a block now, and it is remembered. -/
theorem openers_remembered_fourTicks :
    fourTicks.document.openers [.between 11 12] = [2] ∧
      ∃ fences, fourTicks.highlighter.fences = some fences ∧ .between 2 10 ∈ fences := by
  obtain ⟨-, -, hfences⟩ := openers_remembered
    { backend := ⟨.fixed [], (), {}⟩, aliases := default, theme := "A" }
    "a\n\x60\x60c\x60 b\nd\n".toList [.between 0 1]
    [.edit [(2, 2, "\x60\x60".toList)], .scroll [.between 0 12]]
  have hline : fourTicks.document.lines[1]? =
      some ⟨1, 2, 10, "\x60\x60\x60\x60c\x60 b".toList⟩ := by decide +kernel
  refine ⟨by decide +kernel, ?_⟩
  rcases hfences with ⟨fences, hsome, hall⟩ | ⟨-, hclose⟩
  · exact ⟨fences, hsome, hall _ (List.mem_of_getElem? hline) (by decide)⟩
  · simp at hclose

end Session

end FencedCode
