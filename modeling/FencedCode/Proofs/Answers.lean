import FencedCode.Proofs.LineReading
import FencedCode.Proofs.Locating

namespace FencedCode

section EraseDups

variable {α : Type*} {r : α → α → Bool}

theorem eraseDupsBy_sublist (r : α → α → Bool) : ∀ l : List α, (l.eraseDupsBy r).Sublist l
  | [] => List.Sublist.slnil
  | a :: l => by
    rw [List.eraseDupsBy_cons]
    exact ((eraseDupsBy_sublist r _).trans List.filter_sublist).cons_cons a
termination_by l => l.length
decreasing_by exact Nat.lt_succ_of_le (List.length_filter_le _ l)

theorem eraseDupsBy_pairwise (r : α → α → Bool) : ∀ l : List α,
    (l.eraseDupsBy r).Pairwise fun a b => r b a = false
  | [] => .nil
  | a :: l => by
    rw [List.eraseDupsBy_cons]
    refine List.pairwise_cons.2 ⟨fun b hb => ?_, eraseDupsBy_pairwise r _⟩
    exact of_decide_eq_true (List.mem_filter.1 ((eraseDupsBy_sublist r _).subset hb)).2
termination_by l => l.length
decreasing_by exact Nat.lt_succ_of_le (List.length_filter_le _ l)

/-- If only equal entries are related, every entry is left once. -/
theorem mem_eraseDupsBy : ∀ {l : List α}, (∀ a ∈ l, ∀ b ∈ l, r b a → b = a) → ∀ {x : α},
    x ∈ l.eraseDupsBy r ↔ x ∈ l
  | [], _, x => by rw [List.eraseDupsBy_nil]
  | a :: l, h, x => by
    have hrest : ∀ b ∈ l.filter (r · a = false), ∀ c ∈ l.filter (r · a = false), r c b → c = b :=
      fun b hb c hc => h b (List.mem_cons_of_mem _ (List.mem_filter.1 hb).1) c
        (List.mem_cons_of_mem _ (List.mem_filter.1 hc).1)
    rw [List.eraseDupsBy_cons, List.mem_cons, List.mem_cons, mem_eraseDupsBy hrest,
      List.mem_filter, decide_eq_true_eq]
    constructor
    · exact Or.imp_right And.left
    · rintro (hx | hx)
      · exact .inl hx
      · cases hr : r x a with
        | true => exact .inl (h a List.mem_cons_self x (List.mem_cons_of_mem _ hx) hr)
        | false => exact .inr ⟨hx, rfl⟩
termination_by l => l.length
decreasing_by exact Nat.lt_succ_of_le (List.length_filter_le _ l)

end EraseDups

namespace Document

/-- Where what follows a line ends: where the next line begins that would close it, or with the
text. -/
def bodyEnd (d : Document) (l : Line) : Nat :=
  ((d.lines.find? fun k => l.start < k.start && Fence.closes k.text).map (·.start)).getD d.size

variable {t : Text} {l : Line} {aliases : Aliases} {b : Block}

theorem line_bounds (hl : l ∈ (ofText t).lines) : l.start ≤ l.stop ∧ l.stop ≤ Text.size t := by
  rw [stop_eq_mark_stop hl]
  exact ⟨l.mark.start_le_stop, Text.stop_le_of_mem_marks (mark_mem_marks hl)⟩

theorem line_unique {k : Line} (hk : k ∈ (ofText t).lines) (hl : l ∈ (ofText t).lines) {pos : Nat}
    (hkp : k.start ≤ pos ∧ pos ≤ k.stop) (hlp : l.start ≤ pos ∧ pos ≤ l.stop) : k = l := by
  have hlt := (lines_pairwise t).imp_of_mem fun {a c} ha _ (h : a.mark.stop < c.mark.start) =>
    show a.stop < c.start from stop_eq_mark_stop ha ▸ h
  rcases pairwise_trichotomy hlt hk hl with h | h | h
  · exact h
  · omega
  · omega

theorem blockAt?_eq_ite (hl : l ∈ (ofText t).lines) :
    (ofText t).blockAt? aliases l =
      if l.stop + 1 < (ofText t).size ∧ l.stop + 1 < (ofText t).bodyEnd l then
        some {
          start := l.start
          bodyStart := l.stop + 1
          bodyStop := (ofText t).bodyEnd l
          stop := (((ofText t).lines.find? fun k =>
            l.start < k.start && Fence.closes k.text).map (·.stop)).getD (ofText t).size
          language := aliases.resolve (String.ofList ((Fence.tag? l.text).getD []))
          declared := String.ofList ((Fence.tag? l.text).getD []) }
      else none := by
  unfold blockAt?
  rw [find?_behind hl]
  rfl

/-- Reading a line gives a block exactly if there is something behind it before the next line that
closes. -/
theorem blockAt?_iff (aliases : Aliases) (hl : l ∈ (ofText t).lines) :
    ((ofText t).blockAt? aliases l).isSome ↔ l.stop + 1 < (ofText t).bodyEnd l := by
  have hend : (ofText t).bodyEnd l ≤ Text.size t := by
    unfold bodyEnd
    cases hk : (ofText t).lines.find? fun k => l.start < k.start && Fence.closes k.text with
    | none => exact le_rfl
    | some k =>
      have := line_bounds (List.mem_of_find?_eq_some hk)
      exact this.1.trans this.2
  rw [blockAt?_eq_ite hl]
  split_ifs with hbody
  · exact ⟨fun _ => hbody.2, fun _ => rfl⟩
  · exact ⟨fun h => absurd h Bool.false_ne_true, fun h => absurd ⟨h.trans_le hend, h⟩ hbody⟩

theorem blockAt?_eq_some (hl : l ∈ (ofText t).lines)
    (hb : (ofText t).blockAt? aliases l = some b) :
    b.start = l.start ∧ b.bodyStart = l.stop + 1 ∧ b.bodyStop = (ofText t).bodyEnd l ∧
      b.start < b.bodyStart ∧ b.bodyStart < b.bodyStop ∧ b.bodyStop ≤ b.stop ∧
        b.stop ≤ Text.size t := by
  have hl' := line_bounds hl
  rw [blockAt?_eq_ite hl] at hb
  split_ifs at hb with hbody
  obtain rfl := Option.some.inj hb
  refine ⟨rfl, rfl, rfl, Nat.lt_succ_of_le hl'.1, hbody.2, ?_⟩
  unfold bodyEnd
  cases hk : (ofText t).lines.find? fun k => l.start < k.start && Fence.closes k.text with
  | none => exact ⟨le_rfl, le_rfl⟩
  | some k => exact line_bounds (List.mem_of_find?_eq_some hk)

/-- Whatever the offsets, the blocks are those of the lines that they lie on. -/
theorem mem_blocksAt {markers : List Nat} : b ∈ (ofText t).blocksAt aliases markers ↔
    ∃ o ∈ markers, (ofText t).blockAt? aliases ((ofText t).lineAt! o) = some b := by
  unfold blocksAt
  rw [List.mem_mergeSort, List.mem_filterMap]
  have hmem : ∀ k, k ∈ (markers.map (ofText t).lineAt!).eraseDupsBy
      (fun a b => a.start == b.start) ↔ k ∈ markers.map (ofText t).lineAt! := by
    intro k
    refine mem_eraseDupsBy fun a ha c hc hstart => ?_
    obtain ⟨o, -, rfl⟩ := List.mem_map.1 ha
    obtain ⟨p, -, rfl⟩ := List.mem_map.1 hc
    have hol := (lineAt_spec t o).1
    have hpl := (lineAt_spec t p).1
    have ho := (line_bounds hol).1
    have hp := (line_bounds hpl).1
    have hstart : ((ofText t).lineAt! p).start = ((ofText t).lineAt! o).start := eq_of_beq hstart
    exact line_unique hpl hol ⟨le_rfl, hp⟩ ⟨hstart.ge, hstart.le.trans ho⟩
  simp only [hmem, List.mem_map, exists_exists_and_eq_and]

theorem blocksAt_pairwise (t : Text) (aliases : Aliases) (markers : List Nat) :
    ((ofText t).blocksAt aliases markers).Pairwise fun b c => b.start < c.start := by
  unfold blocksAt
  set ls := (markers.map (ofText t).lineAt!).eraseDupsBy fun a b => a.start == b.start with hls
  have hlines : ∀ l ∈ ls, l ∈ (ofText t).lines := by
    intro l hl
    obtain ⟨o, -, rfl⟩ := List.mem_map.1 ((eraseDupsBy_sublist _ _).subset hl)
    exact (lineAt_spec t o).1
  have hdistinct : ls.Pairwise fun k l => k.start ≠ l.start := by
    refine (eraseDupsBy_pairwise _ _).imp fun h heq => ?_
    rw [heq, beq_self_eq_true] at h
    cases h
  have hblocks : (ls.filterMap ((ofText t).blockAt? aliases)).Pairwise
      fun b c => b.start ≠ c.start := by
    refine List.pairwise_filterMap.2 (hdistinct.imp_of_mem fun {k l} hk hl hne b hb c hc => ?_)
    rwa [(blockAt?_eq_some (hlines k hk) hb).1, (blockAt?_eq_some (hlines l hl) hc).1]
  have hsorted : ((ls.filterMap ((ofText t).blockAt? aliases)).mergeSort
      fun b c => decide (b.start ≤ c.start)).Pairwise fun b c => decide (b.start ≤ c.start) :=
    List.pairwise_mergeSort (by simp only [decide_eq_true_eq]; omega)
      (by simp only [Bool.or_eq_true, decide_eq_true_eq]; omega) _
  -- sorting keeps the starts distinct
  have hapart := (List.mergeSort_perm (ls.filterMap ((ofText t).blockAt? aliases))
    fun b c => decide (b.start ≤ c.start)).symm.pairwise hblocks fun h => h.symm
  exact (hsorted.and hapart).imp fun h => lt_of_le_of_ne (of_decide_eq_true h.1) h.2

/-- One of the offsets, clamped to the text, lies on the line. -/
def Hit (d : Document) (markers : List Nat) (l : Line) : Prop :=
  l ∈ d.lines ∧ ∃ o ∈ markers, l.start ≤ min o d.size ∧ min o d.size ≤ l.stop

theorem hit_iff {markers : List Nat} :
    (ofText t).Hit markers l ↔ ∃ o ∈ markers, (ofText t).lineAt! o = l := by
  constructor
  · rintro ⟨hl, o, ho, hpos⟩
    obtain ⟨hat, hpos'⟩ := lineAt_spec t o
    exact ⟨o, ho, line_unique hat hl hpos' hpos⟩
  · rintro ⟨o, ho, rfl⟩
    obtain ⟨hat, hpos⟩ := lineAt_spec t o
    exact ⟨hat, o, ho, hpos⟩

end Document

/-- Whatever offsets an editor answers with, each lies on a line of a document that has been
indexed, and the blocks located come in order, each once. Each begins with a line that an offset
lies on, and its parts come in order and lie in the text. Of the lines that an offset lies on
exactly those give a block behind which something follows before the next line that closes. -/
theorem Host.locate_answers {h : Host} (hd : h.document.Made) (aliases : Aliases)
    (near : List Interval) :
    let d := h.document
    let markers := h.openers (Interval.normalize near)
    let blocks := h.locate aliases near
    (d.lines ≠ [] → ∀ o, ∃ l ∈ d.lines, d.lineAt o = .ok l) ∧
      blocks.Pairwise (fun b c => b.start < c.start) ∧
      (∀ b ∈ blocks, (∃ l, d.Hit markers l ∧ b.start = l.start ∧ b.bodyStart = l.stop + 1 ∧
          b.bodyStop = d.bodyEnd l) ∧
        b.start < b.bodyStart ∧ b.bodyStart < b.bodyStop ∧ b.bodyStop ≤ b.stop ∧
          b.stop ≤ d.size) ∧
      ∀ l, d.Hit markers l → ((∃ b ∈ blocks, b.start = l.start) ↔ l.stop + 1 < d.bodyEnd l) := by
  obtain ⟨d, openers, byteAt⟩ := h
  rcases hd.eq_default_or_ofText with rfl | ⟨t, rfl⟩
  · -- without an index there is no line to begin with
    intro d markers blocks
    have hnone : blocks = [] := Document.blocksAt_default aliases markers
    rw [hnone]
    exact ⟨fun h => absurd rfl h, .nil, fun b hb => absurd hb List.not_mem_nil,
      fun l hl => absurd hl.1 List.not_mem_nil⟩
  intro d markers blocks
  refine ⟨fun _ o => ?_, Document.blocksAt_pairwise t aliases markers, fun b hb => ?_,
    fun l hl => ?_⟩
  · exact ⟨_, (Document.lineAt_spec t o).1, Document.lineAt_eq t o⟩
  · obtain ⟨o, ho, hblock⟩ := Document.mem_blocksAt.1 hb
    obtain ⟨h1, h2, h3, hbounds⟩ := Document.blockAt?_eq_some (Document.lineAt_spec t o).1 hblock
    exact ⟨⟨_, Document.hit_iff.2 ⟨o, ho, rfl⟩, h1, h2, h3⟩, hbounds⟩
  · rw [← Document.blockAt?_iff aliases hl.1]
    constructor
    · rintro ⟨b, hb, hstart⟩
      obtain ⟨p, -, hblock⟩ := Document.mem_blocksAt.1 hb
      have hp := (Document.lineAt_spec t p).1
      -- a line is told by where it starts
      have hsame : (Document.ofText t).lineAt! p = l := by
        have h1 := (Document.blockAt?_eq_some hp hblock).1
        exact Document.line_unique hp hl.1 ⟨le_rfl, (Document.line_bounds hp).1⟩
          ⟨by omega, by have := Document.line_bounds hl.1; omega⟩
      rw [← hsame, hblock]
      rfl
    · intro hsome
      obtain ⟨b, hb⟩ := Option.isSome_iff_exists.1 hsome
      obtain ⟨o, ho, rfl⟩ := Document.hit_iff.1 hl
      exact ⟨b, Document.mem_blocksAt.2 ⟨o, ho, hb⟩, (Document.blockAt?_eq_some hl.1 hb).1⟩

/-- An editor that answers out of order and twice: beyond the text, on a block that is empty, on a
fence and within a body. -/
def Host.straying : Host :=
  (Document.ofText "a\n```js\nx\n```\n```\n```\nyz".toList).hosted (some [99, 15, 4, 23, 2, 8])

theorem Host.locate_answers_straying : straying.document.Made ∧
    (∃ b ∈ straying.locate .empty [], b.start = 2) ∧
      ¬ ∃ b ∈ straying.locate .empty [], b.start = 14 := by
  have hd : straying.document.Made := .ofText _
  obtain ⟨-, -, -, hgives⟩ := Host.locate_answers hd .empty []
  exact ⟨hd,
    (hgives ⟨1, 2, 7, "```js".toList⟩ ⟨by decide, 4, by decide, by decide⟩).2 (by decide),
    fun h => absurd ((hgives ⟨4, 14, 17, "```".toList⟩
      ⟨by decide, 15, by decide, by decide⟩).1 h) (by decide)⟩

end FencedCode
