import FencedCode.Proofs.Blocks
import FencedCode.Proofs.Sorting

namespace FencedCode

/-- Documents as they come about: without text or index, made of a text, or changed by replacing a
span of one. -/
inductive Document.Made : Document → Prop
  | default : Made default
  | ofText (t : Text) : Made (ofText t)
  | apply {d : Document} (h : d.Made) (a b : Nat) (insert : Text) : Made (d.apply a b insert).1

namespace Document

theorem Made.eq_default_or_ofText {d : Document} (h : d.Made) :
    d = Inhabited.default ∨ ∃ t, d = .ofText t := by
  cases h with
  | default => exact .inl rfl
  | ofText t => exact .inr ⟨t, rfl⟩
  | apply h a b insert => exact .inr ⟨_, rfl⟩

theorem blocksAt_default (aliases : Aliases) (markers : List Nat) :
    (default : Document).blocksAt aliases markers = [] := by
  have hread : ∀ l, (default : Document).blockAt? aliases l = none := by
    intro l
    unfold blockAt?
    exact if_neg fun h => absurd h.1 (Nat.not_lt_zero _)
  unfold blocksAt
  rw [List.filterMap_eq_nil_iff.2 fun l _ => hread l, List.mergeSort_nil]

theorem locate_default (aliases : Aliases) (near : List Interval) :
    (default : Document).host.locate aliases near = [] :=
  blocksAt_default aliases _

theorem locate_all (t : Text) (aliases : Aliases) :
    (ofText t).host.locate aliases [.between 0 (ofText t).size] = (ofText t).blocks aliases := by
  rw [locate_eq, List.filter_eq_self]
  intro b hb
  have := block_bounds hb
  refine Interval.any_intersects.2 ⟨b.start, ⟨_, List.mem_cons_self, ?_⟩, ?_⟩
  · simp only [Interval.between_lo, Interval.between_hi, ofText_size]
    omega
  · simp only [Block.span, Interval.between_lo, Interval.between_hi]
    omega

end Document

/-- Near some intervals there are the blocks that share an offset with one of them, ends included,
each once and in the order of the document. -/
theorem Host.locate_near {d : Document} (hd : d.Made) (aliases : Aliases) (near : List Interval) :
    let located := d.host.locate aliases near
    let all := d.host.locate aliases [.between 0 d.size]
    located = all.filter (fun b => near.any (·.intersects b.span)) ∧
      located.Pairwise (fun b c => b.stop < c.start) ∧
        ∀ b, b ∈ located ↔ b ∈ all ∧ ∃ r ∈ near, ∃ pos,
          (r.lo ≤ pos ∧ pos ≤ r.hi) ∧ b.start ≤ pos ∧ pos ≤ b.stop := by
  rcases hd.eq_default_or_ofText with rfl | ⟨t, rfl⟩
  · simp [Document.locate_default]
  · dsimp only
    rw [Document.locate_all, Document.locate_eq]
    refine ⟨rfl, (Document.blocks_pairwise t aliases).filter _, fun b => ?_⟩
    rw [List.mem_filter]
    apply and_congr_right
    intro hb
    obtain ⟨h1, h2, h3, -⟩ := Document.block_bounds hb
    have hle : b.start ≤ b.stop := by omega
    simp only [List.any_eq_true, Interval.intersects_iff, Block.span, Interval.between_lo,
      Interval.between_hi, min_eq_left hle, max_eq_right hle]

def Document.threeBlocks : Document :=
  ((default : Document).apply 0 0 "```js\na\n```\nx\n```\nb\n ```\n\n```c\nd".toList).1

/-- Intervals out of order that overlap, meet a block in its last byte, lie between two or run
beyond the text. -/
theorem Host.locate_near_threeBlocks : Document.threeBlocks.Made ∧
    (Document.threeBlocks.host.locate .empty
      [.between 90 27, .between 12 13, .between 11 11, .between 26 27]).map (·.start) =
        [0, 26] := by
  have hd : Document.threeBlocks.Made := .apply .default 0 0 _
  refine ⟨hd, ?_⟩
  rw [(Host.locate_near hd .empty _).1]
  simp only [Host.locate, Document.blocksAt, Interval.normalize, mergeSort_eq_sortWithin]
  decide +kernel

namespace Fence

def opens (line : Text) : Bool := [tick, tick, tick].isPrefixOf line

theorem isSome_tag? (w : Text) : (tag? w).isSome = opens w := by
  rw [Bool.eq_iff_iff, isSome_tag?_iff, opens, List.isPrefixOf_iff_prefix]

end Fence

namespace Region

/-- Goes over lines once. With no fence open a line may open one, and while one is open the first
line that closes it ends the region. -/
def read (opened : Option Mark) : List Mark → List Region
  | [] => opened.toList.map (⟨·, none⟩)
  | l :: ls =>
    match opened with
    | none => if Fence.opens l.text then read (some l) ls else read none ls
    | some o => if Fence.closes l.text then ⟨o, some l⟩ :: read none ls else read (some o) ls

/-- Only lines that look like a fence matter, since a line that opens also looks like one. -/
theorem read_eq_pair (opened : Option Mark) (ls : List Mark) :
    read opened ls = pair opened (ls.filter fun l => Fence.closes l.text) := by
  induction ls generalizing opened with
  | nil => rfl
  | cons l ls ih =>
    rw [List.filter_cons]
    cases opened with
    | some o =>
      simp only [read]
      split_ifs
      · rw [ih]
        rfl
      · exact ih (some o)
    | none =>
      simp only [read]
      by_cases ho : Fence.opens l.text
      · have ht : (Fence.tag? l.text).isSome := by rwa [Fence.isSome_tag?]
        rw [if_pos ho, if_pos (Fence.closes_of_isSome_tag? ht), ih]
        simp only [pair, if_pos ht]
      · have ht : ¬ (Fence.tag? l.text).isSome := by rwa [Fence.isSome_tag?]
        rw [if_neg ho, ih]
        split_ifs
        · simp only [pair, if_neg ht]
        · rfl

theorem isSome_tag_opener {opened : Option Mark} (ho : ∀ o ∈ opened, (Fence.tag? o.text).isSome)
    {fs : List Mark} {r : Region} (h : r ∈ pair opened fs) :
    (Fence.tag? r.opener.text).isSome := by
  have hnone : ∀ o ∈ (none : Option Mark), (Fence.tag? o.text).isSome := by simp
  induction fs generalizing opened with
  | nil =>
    obtain ⟨o, hmem, rfl⟩ := List.mem_map.1 h
    exact ho o (Option.mem_toList.1 hmem)
  | cons f fs ih =>
    cases opened with
    | some o =>
      rcases List.mem_cons.1 h with rfl | h
      · exact ho o rfl
      · exact ih hnone h
    | none =>
      unfold pair at h
      dsimp only at h
      split_ifs at h with ht
      · refine ih ?_ h
        rintro o ⟨⟩
        exact ht
      · exact ih hnone h

/-- There is something between the opening fence's line and the closing one, or the end. -/
def hasBody (r : Region) (len : Nat) : Bool := r.opener.stop + 1 < r.bodyStop len

/-- The block of a region in a document of the given length. Its tag is what follows the ticks, up
to white space. -/
def block (r : Region) (aliases : Aliases) (len : Nat) : Block :=
  let declared := String.ofList
    ((r.opener.text.dropWhile (· == Fence.tick)).takeWhile fun c => !Text.isBlank c)
  { start := r.opener.start
    bodyStart := r.opener.stop + 1
    bodyStop := r.bodyStop len
    stop := r.stop len
    language := aliases.resolve declared
    declared }

variable {t : Text} {r : Region}

theorem block?_eq (h : r ∈ Text.regions t) (aliases : Aliases) :
    r.block? aliases (Text.size t) =
      if r.hasBody (Text.size t) then some (r.block aliases (Text.size t)) else none := by
  obtain ⟨tag, htag⟩ := Option.isSome_iff_exists.1 (isSome_tag_opener (by simp) h)
  have hdeclared : tag = (r.opener.text.dropWhile (· == Fence.tick)).takeWhile
      fun c => !Text.isBlank c := by
    unfold Fence.tag? at htag
    split_ifs at htag
    exact (Option.some.inj htag).symm
  -- a body that ends in the text also begins in it
  have hbody : (r.opener.stop + 1 < Text.size t ∧ r.opener.stop + 1 < r.bodyStop (Text.size t)) ↔
      r.hasBody (Text.size t) = true := by
    have := Text.region_bounds h
    unfold hasBody
    rw [decide_eq_true_eq]
    omega
  unfold block?
  simp only [hbody, block, htag, Option.getD_some, hdeclared]

end Region

namespace Document

variable {t : Text}

theorem read_lines (t : Text) :
    Region.read none ((ofText t).lines.map Line.mark) = Text.regions t := by
  rw [Region.read_eq_pair, map_mark_lines]
  rfl

/-- The blocks are those of the regions with a body. -/
theorem blocks_eq_map (t : Text) (aliases : Aliases) : (ofText t).blocks aliases =
    ((Text.regions t).filter (·.hasBody (Text.size t))).map (·.block aliases (Text.size t)) := by
  rw [blocks, ← List.filterMap_eq_map, List.filterMap_filter]
  exact List.filterMap_congr fun r hr => Region.block?_eq hr aliases

theorem byteAt_opener_stop {r : Region} (h : r ∈ Text.regions t)
    (hb : r.hasBody (Text.size t)) : (ofText t).byteAt r.opener.stop = some 10 := by
  have hbounds := Text.region_bounds h
  have hlt : r.opener.stop + 1 < r.bodyStop (Text.size t) := of_decide_eq_true hb
  obtain ⟨x, y, hx, hs⟩ := Text.exists_newline_behind
    (Text.mem_fences.1 (Text.opener_mem_fences h)).1 (by omega)
  rw [← hs, byteAt]
  change Text.byteAt t (Text.size x) = _
  rw [hx, Text.byteAt_newline]

theorem not_closes_of_body {r : Region} (h : r ∈ Text.regions t) {l : Line}
    (hl : l ∈ (ofText t).lines) (hlo : r.opener.stop + 1 ≤ l.start)
    (hhi : l.start < r.bodyStop (Text.size t)) : ¬ Fence.closes l.text := by
  intro hcloses
  have hm : l.mark ∈ Text.fences t := Text.mem_fences.2 ⟨mark_mem_marks hl, hcloses⟩
  have hss := r.opener.start_le_stop
  have hlt : r.opener.start < l.mark.start := by
    change r.opener.start < l.start
    omega
  obtain ⟨c, hc, hle⟩ := Text.exists_closer_le h hm hlt
  rw [Region.bodyStop, hc, Option.elim_some] at hhi
  exact absurd hhi (not_lt.2 hle)

/-- A closing line takes up some of the text, so the body of a region that has one ends before the
text does. -/
theorem bodyStop_eq_size_iff {r : Region} (h : r ∈ Text.regions t) :
    r.bodyStop (Text.size t) = Text.size t ↔ r.closer = none := by
  unfold Region.bodyStop
  cases hc : r.closer with
  | none => simp
  | some c =>
    obtain ⟨hm, hcloses⟩ := Text.mem_fences.1 (Text.closer_mem_fences h hc)
    have hle := Text.stop_le_of_mem_marks hm
    have hpos : Text.size c.text ≠ 0 := by
      intro h0
      rw [Text.eq_nil_of_size_eq_zero h0] at hcloses
      exact absurd hcloses (by decide)
    rw [Mark.stop] at hle
    simp only [Option.elim_some, reduceCtorEq, iff_false]
    omega

end Document

/-- The blocks of a whole document are what a reader finds who goes over its lines once, as far as
there is something between the fences. They come one after the other; each body begins behind the
line break of its opening fence, holds no line that would close it, and runs to the end of the
document exactly when no line does. -/
theorem Host.locate_whole {d : Document} (hd : d.Made) (aliases : Aliases) :
    let blocks := d.host.locate aliases [.between 0 d.size]
    let regions := (Region.read none (d.lines.map Line.mark)).filter (·.hasBody d.size)
    blocks = regions.map (·.block aliases d.size) ∧
      blocks.Pairwise (fun b c => b.stop < c.start) ∧
        ∀ r ∈ regions,
          let b := r.block aliases d.size
          d.byteAt r.opener.stop = some 10 ∧ b.bodyStart = r.opener.stop + 1 ∧
            (b.start < b.bodyStart ∧ b.bodyStart < b.bodyStop ∧ b.bodyStop ≤ b.stop ∧
              b.stop ≤ d.size) ∧
            (∀ l ∈ d.lines, b.bodyStart ≤ l.start → l.start < b.bodyStop →
              ¬ Fence.closes l.text) ∧
            (b.isOpen d.size ↔ r.closer = none) := by
  rcases hd.eq_default_or_ofText with rfl | ⟨t, rfl⟩
  · rw [Document.locate_default]
    exact ⟨rfl, .nil, fun r hr => absurd hr List.not_mem_nil⟩
  · dsimp only
    rw [Document.locate_all, Document.read_lines, Document.ofText_size]
    refine ⟨Document.blocks_eq_map t aliases, Document.blocks_pairwise t aliases, ?_⟩
    intro r hr
    obtain ⟨hr, hbody⟩ := List.mem_filter.1 hr
    have hb : r.block aliases (Text.size t) ∈ (Document.ofText t).blocks aliases :=
      Document.mem_blocks.2 ⟨r, hr, by rw [Region.block?_eq hr, if_pos hbody]⟩
    refine ⟨Document.byteAt_opener_stop hr hbody, rfl, Document.block_bounds hb,
      fun l hl hlo hhi => Document.not_closes_of_body hr hl hlo hhi, ?_⟩
    rw [← Document.bodyStop_eq_size_iff hr]
    exact beq_iff_eq

/-- Fences with tags and white space, a block without a body, and a last block that stays open. -/
def Document.looseFences : Document :=
  .ofText "x\n```` rust more\n\n``\n \t```js\n```\n```\n````c\r\n```\n  ```a\n```py \n\n".toList

theorem Host.locate_whole_looseFences : Document.looseFences.Made ∧
    (Document.looseFences.host.locate .empty [.between 0 Document.looseFences.size]).map
      (fun b => (b.start, b.declared)) = [(2, ""), (55, "py")] := by
  have hd : Document.looseFences.Made := .ofText _
  refine ⟨hd, ?_⟩
  rw [(Host.locate_whole hd .empty).1]
  decide +kernel

end FencedCode
