import FencedCode.Block
import FencedCode.Proofs.Regions
import Mathlib.Data.List.Find

namespace FencedCode

namespace Region

/-- The block of a region in a text of the given length, if it has a body. -/
def block? (r : Region) (aliases : Aliases) (len : Nat) : Option Block :=
  let declared := String.ofList ((Fence.tag? r.opener.text).getD [])
  if r.opener.stop + 1 < len ∧ r.opener.stop + 1 < r.bodyStop len then
    some {
      start := r.opener.start
      bodyStart := r.opener.stop + 1
      bodyStop := r.bodyStop len
      stop := r.stop len
      language := aliases.resolve declared
      declared }
  else none

theorem block?_eq_some {r : Region} {aliases : Aliases} {len : Nat} {b : Block}
    (h : r.block? aliases len = some b) :
    b.start = r.opener.start ∧ b.bodyStart = r.opener.stop + 1 ∧ b.bodyStop = r.bodyStop len ∧
      b.stop = r.stop len ∧ b.bodyStart < b.bodyStop := by
  unfold block? at h
  split_ifs at h with hbody
  obtain rfl := Option.some.inj h
  exact ⟨rfl, rfl, rfl, rfl, hbody.2⟩

theorem block?_language {r : Region} {aliases : Aliases} {len : Nat} {b : Block}
    (h : r.block? aliases len = some b) :
    b.language = aliases.resolve (String.ofList ((Fence.tag? r.opener.text).getD [])) := by
  unfold block? at h
  split_ifs at h
  rw [← Option.some.inj h]

/-- One of the intervals intersects the region in a text of the given length. -/
def meets (near : List Interval) (len : Nat) (r : Region) : Bool :=
  near.any (·.intersects (.between r.opener.start (r.stop len)))

theorem opener_le_stop {fs : List Mark} {len : Nat}
    (hs : fs.Pairwise fun m n => m.stop < n.start) (hlen : ∀ m ∈ fs, m.stop ≤ len) {r : Region}
    (h : r ∈ pair none fs) : r.opener.start ≤ r.stop len := by
  have ho := (opener_mem h).resolve_left (by simp)
  unfold stop
  cases hc : r.closer with
  | none => exact r.opener.start_le_stop.trans (hlen _ ho)
  | some c =>
    rw [closer_eq none (by simpa using hs) h] at hc
    have hlt : r.opener.start < c.start := by simpa using List.find?_some hc
    exact hlt.le.trans c.start_le_stop

end Region

theorem Text.region_bounds {t : Text} {r : Region} (h : r ∈ regions t) :
    r.opener.stop ≤ r.bodyStop (size t) ∧ r.bodyStop (size t) ≤ r.stop (size t) ∧
      r.stop (size t) ≤ size t := by
  unfold Region.bodyStop Region.stop
  cases hc : r.closer with
  | none =>
    exact ⟨stop_le_of_mem_marks (mem_fences.1 (opener_mem_fences h)).1, le_rfl, le_rfl⟩
  | some c =>
    have hm := (mem_fences.1 (closer_mem_fences h hc)).1
    exact ⟨(opener_stop_lt_closer h hc).le, c.start_le_stop, stop_le_of_mem_marks hm⟩

def Document.blocks (d : Document) (aliases : Aliases) : List Block :=
  (Text.regions d.text).filterMap (·.block? aliases d.size)

theorem Text.regions_ordered (t : Text) (len : Nat) : (regions t).Pairwise fun r q =>
    r.opener.start < q.opener.start ∧ r.stop len < q.opener.start := by
  apply (regions_pairwise t).imp_of_mem
  intro r q hr _ h
  obtain ⟨c, hc, hlt⟩ := h
  have := opener_stop_lt_closer hr hc
  have := r.opener.start_le_stop
  have := c.start_le_stop
  simp only [Region.stop, hc, Option.elim_some]
  omega

namespace Fence

/-- Intervals that end before an offset intersect nothing behind it. -/
theorem any_intersects_dropWhile {near : List Interval} {pos : Nat} {s : Interval}
    (h : pos ≤ s.lo) :
    (near.dropWhile (·.hi < pos)).any (·.intersects s) = near.any (·.intersects s) := by
  induction near with
  | nil => rfl
  | cons r rs ih =>
    by_cases hr : r.hi < pos
    · rw [List.dropWhile_cons_of_pos (by simpa using hr), ih, List.any_cons]
      have : r.intersects s = false := by
        simp only [Interval.intersects, Bool.and_eq_false_iff, decide_eq_false_iff_not]
        omega
      simp [this]
    · rw [List.dropWhile_cons_of_neg (by simpa using hr)]

/-- With the intervals in order it is enough to look at the first that does not end too early. -/
theorem reaches_dropWhile {near : List Interval} (hn : near.Pairwise fun r s => r.hi < s.lo)
    {start stop : Nat} (h : start ≤ stop) :
    reaches (near.dropWhile (·.hi < start)) stop =
      near.any (·.intersects (.between start stop)) := by
  have hlo : (Interval.between start stop).lo = start := min_eq_left h
  have hhi : (Interval.between start stop).hi = stop := max_eq_right h
  rw [← any_intersects_dropWhile hlo.ge]
  have hsub := hn.sublist (List.dropWhile_sublist (·.hi < start))
  have hhead := List.head?_dropWhile_not (fun r : Interval => decide (r.hi < start)) near
  cases hd : near.dropWhile (·.hi < start) with
  | nil => rfl
  | cons r rs =>
    rw [hd] at hsub hhead
    have hr : start ≤ r.hi := by simpa using hhead
    rw [Bool.eq_iff_iff]
    simp only [reaches, List.any_cons, Bool.or_eq_true, List.any_eq_true, Interval.intersects,
      Bool.and_eq_true, decide_eq_true_eq, hlo, hhi]
    constructor
    · intro hle
      left
      omega
    · rintro (hle | ⟨q, hq, hle⟩)
      · omega
      · have := (List.pairwise_cons.1 hsub).1 q hq
        have := r.lo_le_hi
        omega

theorem filter_meets_dropWhile {near : List Interval} {len pos : Nat} {fs : List Mark}
    (hs : fs.Pairwise fun m n => m.stop < n.start) (hlen : ∀ m ∈ fs, m.stop ≤ len)
    (hpos : ∀ m ∈ fs, pos ≤ m.start) :
    (Region.pair none fs).filter (Region.meets (near.dropWhile (·.hi < pos)) len) =
      (Region.pair none fs).filter (Region.meets near len) := by
  refine List.filter_congr fun r hr => any_intersects_dropWhile ?_
  rw [Interval.between_lo, min_eq_left (Region.opener_le_stop hs hlen hr)]
  exact hpos _ ((Region.opener_mem hr).resolve_left (by simp))

theorem filter_meets_eq_nil {near : List Interval} {len last : Nat} {fs : List Mark}
    (hs : fs.Pairwise fun m n => m.stop < n.start) (hlen : ∀ m ∈ fs, m.stop ≤ len)
    (hlast : ∀ r ∈ near, r.hi ≤ last) (hpos : ∀ m ∈ fs, last < m.start) :
    (Region.pair none fs).filter (Region.meets near len) = [] := by
  rw [List.filter_eq_nil_iff]
  intro r hr hmeets
  obtain ⟨i, hi, hint⟩ := List.any_eq_true.1 hmeets
  have hstart := hpos _ ((Region.opener_mem hr).resolve_left (by simp))
  have hle := hlast i hi
  simp only [Interval.intersects, Bool.and_eq_true, decide_eq_true_eq, Interval.between_lo,
    min_eq_left (Region.opener_le_stop hs hlen hr)] at hint
  omega

/-- When a region ends, its opener is given if an interval intersects the region. -/
theorem reached_eq {near : List Interval} (hn : near.Pairwise fun r s => r.hi < s.lo) {len : Nat}
    {r : Region} (hr : r.opener.start ≤ r.stop len) {xs : List Nat} {rs : List Region}
    (hxs : xs = (rs.filter (Region.meets near len)).map (·.opener.start)) :
    (if reaches (near.dropWhile (·.hi < r.opener.start)) (r.stop len) then r.opener.start :: xs
      else xs) = ((r :: rs).filter (Region.meets near len)).map (·.opener.start) := by
  rw [reaches_dropWhile hn hr, hxs]
  change (if Region.meets near len r then _ else _) = _
  rw [List.filter_cons]
  split_ifs
  · rfl
  · rfl

/-- The scan gives the openers of the regions that an interval intersects. -/
theorem scan_eq (len : Nat) {last : Nat} (ls : List Line) (opened : Option Mark)
    {near : List Interval}
    (hn : near.Pairwise fun r s => r.hi < s.lo) (hlast : ∀ r ∈ near, r.hi ≤ last)
    (hs : (opened.toList ++ ls.map Line.mark).Pairwise fun m n => m.stop < n.start)
    (hlen : ∀ m ∈ opened.toList ++ ls.map Line.mark, m.stop ≤ len)
    (hstop : ∀ l ∈ ls, l.stop = l.mark.stop) :
    scan len last near (opened.map Mark.start) ls =
      ((Region.pair opened ((ls.map Line.mark).filter fun m => closes m.text)).filter
        (Region.meets near len)).map (·.opener.start) := by
  induction ls generalizing near opened with
  | nil =>
    cases opened with
    | none => rfl
    | some o =>
      -- the region that is open ends with the text
      have ho : o.start ≤ len := o.start_le_stop.trans (hlen o (by simp))
      have hend : ([] : List Nat) = (([] : List Region).filter (Region.meets near len)).map
          (·.opener.start) := rfl
      exact reached_eq hn (r := ⟨o, none⟩) ho hend
  | cons l ls ih =>
    have hl : l.stop = l.mark.stop := hstop l List.mem_cons_self
    have hstop' : ∀ l ∈ ls, l.stop = l.mark.stop := fun l h => hstop l (List.mem_cons_of_mem _ h)
    obtain ⟨hlls, hls⟩ := List.pairwise_cons.1 (List.pairwise_append.1 hs).2.1
    have hlen' : ∀ m ∈ ls.map Line.mark, m.stop ≤ len := fun m h =>
      hlen m (List.mem_append_right _ (List.mem_cons_of_mem _ h))
    cases opened with
    | some o =>
      have hsub : (o :: ls.map Line.mark).Sublist (o :: (l :: ls).map Line.mark) := by simp
      have hol := (List.pairwise_cons.1 hs).1 l.mark (by simp)
      have hbefore : ∀ m ∈ ls.map Line.mark, o.start ≤ m.start := fun m h =>
        o.start_le_stop.trans ((List.pairwise_cons.1 (hs.sublist hsub)).1 m h).le
      rw [List.map_cons, List.filter_cons]
      simp only [Option.map_some, scan]
      by_cases hc : closes l.text
      · have hc' : closes l.mark.text := hc
        have hle : o.start ≤ l.mark.stop :=
          (o.start_le_stop.trans hol.le).trans l.mark.start_le_stop
        have hdrop := List.dropWhile_sublist (·.hi < o.start) (l := near)
        -- intervals dropped at `o` are met by no region behind it
        have hrest := ih none (hn.sublist hdrop) (fun r hr => hlast r (hdrop.subset hr))
          hls hlen' hstop'
        rw [filter_meets_dropWhile (hls.filter _) (fun m h => hlen' m (List.mem_filter.1 h).1)
          (fun m h => hbefore m (List.mem_filter.1 h).1)] at hrest
        rw [if_pos hc, if_pos hc', hl]
        exact reached_eq hn (r := ⟨o, some l.mark⟩) hle hrest
      · have hc' : ¬ closes l.mark.text := hc
        rw [if_neg hc, if_neg hc']
        exact ih (some o) hn hlast (hs.sublist hsub) (fun m h => hlen m (hsub.subset h))
          hstop'
    | none =>
      change ((l :: ls).map Line.mark).Pairwise _ at hs
      change ∀ m ∈ (l :: ls).map Line.mark, m.stop ≤ len at hlen
      simp only [Option.map_none, scan]
      have hrest := ih none hn hlast hls hlen' hstop'
      by_cases hbeyond : last < l.start
      · -- the scan stops here, and what opens from here on is met by no interval
        rw [if_pos hbeyond, filter_meets_eq_nil (hs.filter _)
          (fun m h => hlen m (List.mem_filter.1 h).1) hlast fun m h => ?_]
        · rfl
        · rcases List.mem_cons.1 (List.mem_filter.1 h).1 with rfl | h
          · exact hbeyond
          · have := hlls m h
            have := l.mark.start_le_stop
            have : l.start = l.mark.start := rfl
            omega
      · rw [if_neg hbeyond, List.map_cons, List.filter_cons]
        -- a line that opens also closes, so it is among the fence lines that are paired
        by_cases ht : (tag? l.text).isSome
        · have ht' : (tag? l.mark.text).isSome := ht
          rw [if_pos ht, if_pos (closes_of_isSome_tag? ht')]
          simp only [Region.pair, if_pos ht']
          exact ih (some l.mark) hn hlast hs hlen hstop'
        · have ht' : ¬ (tag? l.mark.text).isSome := ht
          rw [if_neg ht]
          split_ifs
          · simp only [Region.pair, if_neg ht']
            exact hrest
          · exact hrest

end Fence

namespace Document

variable {t : Text}

theorem lines_pairwise (t : Text) :
    (ofText t).lines.Pairwise fun k l => k.mark.stop < l.mark.start :=
  List.pairwise_map.1 (map_mark_lines t ▸ Text.marks_pairwise t)

theorem openers_eq (t : Text) {near : List Interval} (hn : near.Pairwise fun r s => r.hi < s.lo) :
    (ofText t).openers near =
      ((Text.regions t).filter (Region.meets near (Text.size t))).map (·.opener.start) := by
  unfold openers
  rcases List.eq_nil_or_concat near with rfl | ⟨front, last, rfl⟩
  · symm
    simp [List.filter_eq_nil_iff, Region.meets]
  · rw [List.concat_eq_append] at hn ⊢
    rw [List.getLast?_concat]
    have hlast : ∀ r ∈ front ++ [last], r.hi ≤ last.hi := by
      intro r hr
      rcases List.mem_append.1 hr with hr | hr
      · have := (List.pairwise_append.1 hn).2.2 r hr last List.mem_cons_self
        have := last.lo_le_hi
        omega
      · obtain rfl := List.mem_singleton.1 hr
        exact le_rfl
    have hm : (none : Option Mark).toList ++ (ofText t).lines.map Line.mark = Text.marks t :=
      map_mark_lines t
    have hscan := Fence.scan_eq (Text.size t) (ofText t).lines none hn hlast
      (by rw [hm]; exact Text.marks_pairwise t)
      (by rw [hm]; exact fun m h => Text.stop_le_of_mem_marks h)
      (fun l h => stop_eq_mark_stop h)
    rw [map_mark_lines] at hscan
    exact hscan

/-- Looking from the line behind another one on is looking among the lines that start later. -/
theorem find?_behind {l : Line} (hl : l ∈ (ofText t).lines) (p : Line → Bool) :
    ((ofText t).lines.drop (l.index + 1)).find? p =
      (ofText t).lines.find? fun k => l.start < k.start && p k := by
  obtain ⟨i, hi⟩ := List.mem_iff_getElem?.1 hl
  obtain ⟨hlt, hget⟩ := List.getElem?_eq_some_iff.1 hi
  have hp := lines_pairwise t
  rw [← List.take_append_drop (i + 1) (ofText t).lines, List.take_succ_eq_append_getElem hlt, hget,
    List.append_assoc] at hp
  have hfront := (List.pairwise_append.1 hp).2.2
  have hback := (List.pairwise_append.1 (List.pairwise_append.1 hp).2.1).2.2 l (by simp)
  rw [index_eq hi]
  conv_rhs => rw [← List.take_append_drop (i + 1) (ofText t).lines]
  -- no line up to this one comes after it, and every other line does
  have htake : ((ofText t).lines.take (i + 1)).find?
      (fun k => decide (l.start < k.start) && p k) = none := by
    refine List.find?_eq_none.2 fun k hk hafter => ?_
    rw [List.take_succ_eq_append_getElem hlt, hget] at hk
    have hlt : l.start < k.start := of_decide_eq_true (Bool.and_eq_true_iff.1 hafter).1
    rcases List.mem_append.1 hk with hk | hk
    · have hkl : k.mark.stop < l.start := hfront k hk l (by simp)
      have hks : k.start ≤ k.mark.stop := k.mark.start_le_stop
      omega
    · obtain rfl := List.mem_singleton.1 hk
      omega
  rw [List.find?_append, htake, Option.none_or]
  refine List.find?_congr fun k hk => ?_
  have hlt : l.start < k.start := l.mark.start_le_stop.trans_lt (hback k hk)
  rw [decide_eq_true hlt, Bool.true_and]

theorem find?_closes {l : Line} (hl : l ∈ (ofText t).lines) {r : Region} (hr : r ∈ Text.regions t)
    (ho : l.mark = r.opener) :
    (((ofText t).lines.drop (l.index + 1)).find? fun k => Fence.closes k.text).map Line.mark =
      r.closer := by
  rw [find?_behind hl, Text.closer_eq_find? hr, Text.fences, List.find?_filter, ← map_mark_lines,
    List.find?_map, ← ho]
  congr 2
  funext k
  rw [Function.comp_apply, Bool.decide_and, Bool.decide_eq_true, Bool.decide_eq_true]
  exact Bool.and_comm _ _

theorem blockAt?_eq {l : Line} (hl : l ∈ (ofText t).lines) {r : Region} (hr : r ∈ Text.regions t)
    (ho : l.mark = r.opener) (aliases : Aliases) :
    (ofText t).blockAt? aliases l = r.block? aliases (Text.size t) := by
  have hclose := find?_closes hl hr ho
  have hstop : l.stop = r.opener.stop := by rw [stop_eq_mark_stop hl, ho]
  have hstart : l.start = r.opener.start := congrArg Mark.start ho
  have htext : l.text = r.opener.text := congrArg Mark.text ho
  have hclose_stop : ∀ k, ((ofText t).lines.drop (l.index + 1)).find?
      (fun k => Fence.closes k.text) = some k → k.stop = k.mark.stop := fun k hk =>
    stop_eq_mark_stop (List.mem_of_mem_drop (List.mem_of_find?_eq_some hk))
  unfold blockAt? Region.block? Region.bodyStop Region.stop
  rw [← hclose, hstop, hstart, htext, ofText_size]
  cases hk : ((ofText t).lines.drop (l.index + 1)).find? (fun k => Fence.closes k.text) with
  | none => rfl
  | some k =>
    simp only [Option.map_some, Option.getD_some, Option.elim_some, hclose_stop k hk]
    rfl

theorem lineAt_opener {r : Region} (hr : r ∈ Text.regions t) :
    (ofText t).lineAt! r.opener.start ∈ (ofText t).lines ∧
      ((ofText t).lineAt! r.opener.start).mark = r.opener := by
  have hm := (Text.mem_fences.1 (Text.opener_mem_fences hr)).1
  have hle := Text.stop_le_of_mem_marks hm
  have hss := r.opener.start_le_stop
  obtain ⟨hl, h1, h2⟩ := lineAt_spec t r.opener.start
  rw [min_eq_left (hss.trans hle)] at h1 h2
  rw [stop_eq_mark_stop hl] at h2
  exact ⟨hl, Text.mark_unique (mark_mem_marks hl) hm ⟨h1, h2⟩ ⟨le_rfl, hss⟩⟩

/-- The openers' lines come in order, so none of them is dropped. -/
theorem eraseDupsBy_of_pairwise {α : Type*} {r : α → α → Bool} {l : List α}
    (h : l.Pairwise fun a b => r b a = false) : l.eraseDupsBy r = l := by
  induction h with
  | nil => rfl
  | @cons a l ha _ ih =>
    have hfilter : l.filter (fun b => r b a = false) = l :=
      List.filter_eq_self.2 fun b hb => decide_eq_true (ha b hb)
    rw [List.eraseDupsBy_cons, hfilter, ih]

theorem blocksAt_eq (aliases : Aliases) {rs : List Region} (hmem : ∀ r ∈ rs, r ∈ Text.regions t)
    (hordered : rs.Pairwise fun r q => r.opener.start < q.opener.start) :
    (ofText t).blocksAt aliases (rs.map (·.opener.start)) =
      rs.filterMap (·.block? aliases (Text.size t)) := by
  have hdistinct : ((rs.map (·.opener.start)).map (ofText t).lineAt!).eraseDupsBy
      (fun a b => a.start == b.start) = (rs.map (·.opener.start)).map (ofText t).lineAt! := by
    apply eraseDupsBy_of_pairwise
    rw [List.map_map, List.pairwise_map]
    apply hordered.imp_of_mem
    intro r q hr hq hlt
    have h1 := congrArg Mark.start (lineAt_opener (hmem r hr)).2
    have h2 := congrArg Mark.start (lineAt_opener (hmem q hq)).2
    simp only [Line.mark] at h1 h2
    simp only [Function.comp_apply, h1, h2, beq_eq_false_iff_ne]
    omega
  have hblocks : ((rs.map (·.opener.start)).map (ofText t).lineAt!).filterMap
      ((ofText t).blockAt? aliases) = rs.filterMap (·.block? aliases (Text.size t)) := by
    rw [List.map_map, List.filterMap_map]
    apply List.filterMap_congr
    intro r hr
    obtain ⟨hl, hm⟩ := lineAt_opener (hmem r hr)
    exact blockAt?_eq hl (hmem r hr) hm aliases
  have hsorted : (rs.filterMap (·.block? aliases (Text.size t))).Pairwise
      fun b c => decide (b.start ≤ c.start) = true := by
    rw [List.pairwise_filterMap]
    refine hordered.imp fun {r q} hlt b hb c hc => decide_eq_true ?_
    rw [(Region.block?_eq_some hb).1, (Region.block?_eq_some hc).1]
    exact hlt.le
  rw [blocksAt, hdistinct, hblocks, List.mergeSort_of_pairwise hsorted]

/-- The blocks that intersect one of the intervals. -/
theorem locate_eq (t : Text) (aliases : Aliases) (near : List Interval) :
    (ofText t).host.locate aliases near =
      ((ofText t).blocks aliases).filter fun b => near.any (·.intersects b.span) := by
  have hopeners : (ofText t).host.openers (Interval.normalize near) =
      ((Text.regions t).filter (Region.meets (Interval.normalize near) (Text.size t))).map
        (·.opener.start) := openers_eq t (Interval.normalize_pairwise near)
  rw [Host.locate, hopeners]
  change (ofText t).blocksAt aliases _ = _
  rw [blocksAt_eq aliases (fun r hr => (List.mem_filter.1 hr).1)
    (((Text.regions_ordered t (Text.size t)).imp fun h => h.1).filter _), List.filterMap_filter,
    blocks, List.filter_filterMap]
  apply List.filterMap_congr
  intro r _
  cases hb : r.block? aliases (Text.size t) with
  | none => simp [hb]
  | some b =>
    -- a region is met by the intervals in canonical form exactly if its block is met by one of them
    have hspan : b.span = .between r.opener.start (r.stop (Text.size t)) := by
      obtain ⟨hstart, -, -, hstop, -⟩ := Region.block?_eq_some hb
      rw [Block.span, hstart, hstop]
    have hmeets : Region.meets (Interval.normalize near) (Text.size t) r =
        near.any (·.intersects b.span) := by
      rw [Region.meets, ← hspan, Bool.eq_iff_iff]
      simp only [Interval.any_intersects, Interval.touched_normalize]
    simp only [hmeets, ofText_size, hb, Option.filter_some]

theorem mem_blocks {aliases : Aliases} {b : Block} : b ∈ (ofText t).blocks aliases ↔
    ∃ r ∈ Text.regions t, r.block? aliases (Text.size t) = some b :=
  List.mem_filterMap

theorem block_bounds {aliases : Aliases} {b : Block} (h : b ∈ (ofText t).blocks aliases) :
    b.start < b.bodyStart ∧ b.bodyStart < b.bodyStop ∧ b.bodyStop ≤ b.stop ∧
      b.stop ≤ Text.size t := by
  obtain ⟨r, hr, hb⟩ := mem_blocks.1 h
  obtain ⟨hstart, hbodyStart, hbodyStop, hstop, hlt⟩ := Region.block?_eq_some hb
  have := r.opener.start_le_stop
  refine ⟨by omega, hlt, ?_⟩
  rw [hbodyStop, hstop]
  exact (Text.region_bounds hr).2

/-- A block that ends before an offset ends above the line of the offset. -/
theorem block_stop_lt_line {aliases : Aliases} {b : Block} (h : b ∈ (ofText t).blocks aliases)
    {pos : Nat} (hpos : pos ≤ Text.size t) (hb : b.stop < pos) :
    b.stop < ((ofText t).lineAt! pos).start := by
  obtain ⟨r, hr, hblock⟩ := mem_blocks.1 h
  obtain ⟨-, -, -, hstop, -⟩ := Region.block?_eq_some hblock
  obtain ⟨hl, h1, h2⟩ := lineAt_spec t pos
  rw [min_eq_left hpos] at h1 h2
  by_contra hge
  cases hc : r.closer with
  | none =>
    rw [Region.stop, hc, Option.elim_none] at hstop
    omega
  | some c =>
    rw [Region.stop, hc, Option.elim_some] at hstop
    have hcm := (Text.mem_fences.1 (Text.closer_mem_fences hr hc)).1
    have hcs := c.start_le_stop
    rw [stop_eq_mark_stop hl] at h2
    have hline : ((ofText t).lineAt! pos).mark.start ≤ c.stop := by
      change ((ofText t).lineAt! pos).start ≤ c.stop
      omega
    have heq := Text.mark_unique hcm (mark_mem_marks hl) ⟨hcs, le_rfl⟩ ⟨hline, by omega⟩
    rw [← heq] at h2
    omega

theorem blocks_pairwise (t : Text) (aliases : Aliases) :
    ((ofText t).blocks aliases).Pairwise fun b c => b.stop < c.start := by
  rw [blocks, List.pairwise_filterMap]
  apply (Text.regions_ordered t (Text.size t)).imp
  intro r q hlt b hb c hc
  rw [(Region.block?_eq_some hb).2.2.2.1, (Region.block?_eq_some hc).1]
  exact hlt.2

end Document

end FencedCode
