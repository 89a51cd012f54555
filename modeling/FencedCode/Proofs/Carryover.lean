import FencedCode.Proofs.Batch

namespace FencedCode

/-- The first block became the second by edits that avoid it. -/
structure Block.Moved (es : List Edit) (b b' : Block) : Prop where
  avoid : Edit.AvoidAll es b.start b.stop
  start : b'.start = Edit.moves es b.start
  bodyStart : b'.bodyStart = Edit.moves es b.bodyStart
  bodyStop : b'.bodyStop = Edit.moves es b.bodyStop
  stop : b'.stop = Edit.moves es b.stop
  language : b'.language = b.language

namespace Region

variable {t t' : Text} {es : List Edit} {r : Region}

def movedAll (r : Region) (es : List Edit) : Region :=
  ⟨r.opener.movedAll es, r.closer.map (·.movedAll es)⟩

/-- Where all fence lines have moved along, all regions have. -/
theorem regions_eq_map (h : Text.fences t' = (Text.fences t).map (·.movedAll es)) :
    Text.regions t' = (Text.regions t).map (·.movedAll es) := by
  have hpair := pair_map (·.movedAll es) (fun _ => rfl) none (Text.fences t)
  rw [Option.map_none, ← h] at hpair
  exact hpair

theorem movedAll_eq_self (ho : Edit.moves es r.opener.start = r.opener.start)
    (hc : ∀ c, r.closer = some c → Edit.moves es c.start = c.start) : r.movedAll es = r := by
  obtain ⟨o, closer⟩ := r
  cases closer with
  | none => simp only [movedAll, Mark.movedAll, Option.map_none, ho]
  | some c => simp only [movedAll, Mark.movedAll, Option.map_some, ho, hc c rfl]

theorem exists_block_of_movedAll (hr : r ∈ Text.regions t) (hsp : Splices t es t')
    (hav : Edit.AvoidAll es r.opener.start (r.stop (Text.size t)))
    (hstop : (r.movedAll es).stop (Text.size t') = Edit.moves es (r.stop (Text.size t)))
    {aliases : Aliases} {b' : Block}
    (hb' : (r.movedAll es).block? aliases (Text.size t') = some b') :
    ∃ b, r.block? aliases (Text.size t) = some b ∧ b.Moved es b' := by
  obtain ⟨h1, h2, h3, h4, hlt⟩ := block?_eq_some hb'
  have hlang := block?_language hb'
  obtain ⟨hs1, hs2, hs3⟩ := Text.region_bounds hr
  have hos := r.opener.start_le_stop
  have hbody : (r.movedAll es).bodyStop (Text.size t') =
      Edit.moves es (r.bodyStop (Text.size t)) := by
    cases hc : r.closer with
    | none =>
      simp only [movedAll, stop, bodyStop, hc, Option.map_none, Option.elim_none] at hstop ⊢
      exact hstop
    | some c => simp [movedAll, bodyStop, hc, Mark.movedAll]
  have hopen : (r.movedAll es).opener.stop = Edit.moves es r.opener.stop :=
    Mark.movedAll_stop hsp (hsp.avoidAll_mono hav le_rfl hos (hs1.trans hs2))
  -- inside the region offsets keep their distance
  have hdist : ∀ pos, r.opener.start ≤ pos → pos ≤ r.stop (Text.size t) →
      Edit.moves es pos = Edit.moves es r.opener.start + (pos - r.opener.start) :=
    fun pos hlo hhi => hsp.moves_eq hav hlo hhi
  have hd1 := hdist _ hos (hs1.trans hs2)
  have hd2 := hdist _ (hos.trans hs1) hs2
  have hwide : r.opener.stop + 1 < r.bodyStop (Text.size t) := by omega
  have hd3 := hdist (r.opener.stop + 1) (by omega) (by omega)
  refine ⟨⟨r.opener.start, r.opener.stop + 1, r.bodyStop (Text.size t), r.stop (Text.size t),
    aliases.resolve (String.ofList ((Fence.tag? r.opener.text).getD [])),
    String.ofList ((Fence.tag? r.opener.text).getD [])⟩, ?_, hav, h1, ?_, ?_, ?_, hlang⟩
  · unfold block?
    rw [if_pos ⟨by omega, hwide⟩]
  · dsimp only
    omega
  · exact h3.trans hbody
  · exact h4.trans hstop

end Region

namespace Highlighter

variable {σ : Type} {h : Highlighter σ} {t t' : Text} {es : List Edit} {aliases : Aliases}
  {b' : Block}

/-- Without repairs a block that no dirt touches comes from the region that has moved there. -/
theorem exists_moved_unrepaired (hs : h.Sound t) (hsp : Splices t es t')
    (hr : h.repaired es t' = false) (hb' : b' ∈ (Document.ofText t').blocks aliases)
    (hclean : ∀ pos, b'.start ≤ pos → pos ≤ b'.stop →
      ¬ Interval.Touched (h.after es).dirty pos) :
    ∃ b ∈ (Document.ofText t).blocks aliases, b.Moved es b' := by
  obtain ⟨havoid, heq, -⟩ := unrepaired hs hsp hr
  obtain ⟨b1, b2, b3, -⟩ := Document.block_bounds hb'
  obtain ⟨r', hr', hblock⟩ := Document.mem_blocks.1 hb'
  rw [Region.regions_eq_map heq] at hr'
  obtain ⟨r, hr, rfl⟩ := List.mem_map.1 hr'
  obtain ⟨h1, -, -, h4, -⟩ := Region.block?_eq_some hblock
  obtain ⟨a, c, hac, hav, hma, hmc, hend, -⟩ := Tracked.exists_avoided hsp h.tracked
    (show b'.start ≤ b'.stop by omega) hclean
  -- the edits have moved the stretch between `a` and `c`, and it begins and ends like the region
  have hopen := havoid _ (Text.opener_mem_fences hr)
  have ha : a = r.opener.start :=
    hsp.moves_inj (hsp.avoidAll_mono hav le_rfl le_rfl hac)
      (hsp.avoidAll_mono hopen le_rfl le_rfl r.opener.start_le_stop) (hma.trans h1)
  have hc : c = r.stop (Text.size t) := by
    cases hcl : r.closer with
    | none =>
      simp only [Region.movedAll, Region.stop, hcl, Option.map_none, Option.elim_none] at h4 ⊢
      exact hend h4
    | some k =>
      have hk := havoid k (Text.closer_mem_fences hr hcl)
      simp only [Region.movedAll, Region.stop, hcl, Option.map_some, Option.elim_some] at h4 ⊢
      rw [Mark.movedAll_stop hsp hk] at h4
      exact hsp.moves_inj (hsp.avoidAll_mono hav hac le_rfl le_rfl)
        (hsp.avoidAll_mono hk k.start_le_stop le_rfl le_rfl) (hmc.trans h4)
  subst ha hc
  obtain ⟨b, hb, hmoved⟩ := Region.exists_block_of_movedAll hr hsp hav (h4.symm.trans hmc.symm)
    hblock
  exact ⟨b, Document.mem_blocks.2 ⟨r, hr, hb⟩, hmoved⟩

/-- With repairs a block that no dirt touches ends above the first edit and stands where it
stood. -/
theorem exists_moved_repaired (hs : h.Sound t) (hsp : Splices t es t') {first : Nat}
    (hle : first ≤ Text.size t') (hfirst : ∀ r ∈ (h.after es).dirty, first ≤ r.lo)
    (hb' : b' ∈ (Document.ofText t').blocks aliases)
    (habove : b'.stop < ((Document.ofText t').lineAt! first).start)
    (hclean : ∀ pos, b'.start ≤ pos → pos ≤ b'.stop →
      ¬ Interval.Touched (h.after es).dirty pos) :
    ∃ b ∈ (Document.ofText t).blocks aliases, b.Moved es b' := by
  obtain ⟨b1, b2, b3, -⟩ := Document.block_bounds hb'
  obtain ⟨r, hr', hblock⟩ := Document.mem_blocks.1 hb'
  obtain ⟨h1, -, -, h4, -⟩ := Region.block?_eq_some hblock
  have hstart := (lineAt_le hle).1
  obtain ⟨a, c, hac, hav, hma, hmc, -, -⟩ := Tracked.exists_avoided hsp h.tracked
    (show b'.start ≤ b'.stop by omega) hclean
  -- nothing above the first edit has moved
  have hstill : ∀ q, Edit.AvoidAll es q q → Edit.moves es q ≤ b'.stop → Edit.moves es q = q :=
    fun q hq hqle => (Tracked.eq_or_behind hsp (T := h.tracked) hq (.inl rfl)).resolve_right
      fun ⟨i, hi, hlo⟩ => by
        have := hfirst i hi
        omega
  have ha := hstill a (hsp.avoidAll_mono hav le_rfl le_rfl hac) (by omega)
  have hc := hstill c (hsp.avoidAll_mono hav hac le_rfl le_rfl) (by omega)
  rw [ha] at hma
  rw [hc] at hmc
  subst hma hmc
  have hfix : ∀ pos, b'.start ≤ pos → pos ≤ b'.stop → Edit.moves es pos = pos :=
    fun pos hlo hhi => by
      rw [hsp.moves_eq hav hlo hhi, ha]
      omega
  -- the block ends with a fence line above that edit, where both texts have the same lines
  obtain ⟨u, v, v', rfl, rfl, hu⟩ := exists_above hsp hle hfirst (by omega)
  obtain ⟨k, hk⟩ : ∃ k, r.closer = some k := by
    cases hcl : r.closer with
    | none =>
      rw [Region.stop, hcl, Option.elim_none] at h4
      omega
    | some k => exact ⟨k, rfl⟩
  have hkstop : b'.stop = k.stop := by rw [h4, Region.stop, hk, Option.elim_some]
  have hkm := k.start_le_stop
  have hr : r ∈ Text.regions (u ++ '\n' :: v) := by
    obtain ⟨r', hr, -, hcase⟩ := Text.exists_region_same_lines v hr' (by omega)
    rcases hcase with rfl | ⟨hcase, -⟩
    · exact hr
    · have := hcase k hk
      omega
  have hopenstop : r.opener.start ≤ k.start := by
    have := Text.opener_stop_lt_closer hr hk
    have := r.opener.start_le_stop
    omega
  have hsame : r.movedAll es = r := by
    apply Region.movedAll_eq_self (hfix _ h1.le (by omega))
    intro c hcl
    obtain rfl : k = c := Option.some.inj (hk.symm.trans hcl)
    exact hfix _ (by omega) (by omega)
  have hstop : r.stop (Text.size (u ++ '\n' :: v)) = b'.stop := by
    rw [Region.stop, hk, Option.elim_some, hkstop]
  obtain ⟨b, hb, hmoved⟩ := Region.exists_block_of_movedAll hr hsp (by rwa [hstop, ← h1])
    (by rw [hsame, ← h4, hstop, hc]) (hsame.symm ▸ hblock)
  exact ⟨b, Document.mem_blocks.2 ⟨r, hr, hb⟩, hmoved⟩

/-- A block that no dirt touches was there before. -/
theorem exists_moved_block (hs : h.Sound t) (hsp : Splices t es t') (hes : es ≠ [])
    (hb' : b' ∈ (Document.ofText t').blocks aliases)
    (hclean : ∀ pos, b'.start ≤ pos → pos ≤ b'.stop →
      ¬ Interval.Touched (h.dirt es t') pos) :
    ∃ b ∈ (Document.ofText t).blocks aliases, b.Moved es b' := by
  have hedited : ∀ pos, b'.start ≤ pos → pos ≤ b'.stop →
      ¬ Interval.Touched (h.after es).dirty pos := fun pos h1 h2 hd =>
    hclean pos h1 h2 (Interval.touched_append.2 (.inl hd))
  cases hr : h.repaired es t' with
  | false => exact exists_moved_unrepaired hs hsp hr hb' hedited
  | true =>
    obtain ⟨first, ⟨r, hmem, rfl⟩, hfirst, hbelow⟩ := exists_first hes hr
    have hle := r.lo_le_hi.trans ((hs.after hsp).dirty r hmem)
    refine exists_moved_repaired hs hsp hle hfirst hb' ?_ hedited
    obtain ⟨b1, b2, b3, b4⟩ := Document.block_bounds hb'
    by_contra hge
    exact hclean b'.stop (by omega) le_rfl (touched_below hbelow (not_lt.1 hge) b4)

end Highlighter

namespace Block.Moved

variable {t t' : Text} {es : List Edit} {aliases : Aliases} {b b' : Block}

theorem moves_eq (hm : b.Moved es b') (hsp : Splices t es t') {pos : Nat} (hlo : b.start ≤ pos)
    (hhi : pos ≤ b.stop) : Edit.moves es pos = b'.start + (pos - b.start) := by
  rw [hsp.moves_eq hm.avoid hlo hhi, hm.start]

/-- The decorations of a block move along with it. -/
theorem paint_eq (hm : b.Moved es b') (hsp : Splices t es t')
    (hb : b ∈ (Document.ofText t).blocks aliases)
    (answer : String → Text → Option (List TokenLine)) :
    (Document.ofText t').paint answer b' =
      ((Document.ofText t).paint answer b).map (·.movedAll es) := by
  obtain ⟨h1, h2, h3, -⟩ := Document.block_bounds hb
  obtain ⟨w, hw, hsize⟩ := Document.exists_body hb
  have hav : Edit.AvoidAll es b.bodyStart (b.bodyStart + Text.size w) :=
    hsp.avoidAll_mono hm.avoid h1.le (by omega) (by omega)
  have hw' : Text.At t' b'.bodyStart w := hm.bodyStart ▸ hsp.at_moves hw hav
  have hsize' : b'.bodyStart + Text.size w = b'.bodyStop := by
    rw [hm.bodyStart, hm.bodyStop, ← hsize, hsp.moves_add hav le_rfl]
  -- the body is the same text, so it is painted alike, only further on
  have hshift : ∀ (tokens : List TokenLine), (w.painted tokens).map (·.shift b'.bodyStart) =
      ((w.painted tokens).map (·.shift b.bodyStart)).map (·.movedAll es) := by
    intro tokens
    rw [List.map_map]
    apply List.map_congr_left
    intro d hd
    obtain ⟨-, hlt, hle⟩ := (Placement.lines_spec (Text.byteAt w) tokens (Nat.zero_le _)).1 d hd
    have hd1 := hsp.moves_add hav (show b.bodyStart + d.start ≤ b.bodyStart + Text.size w by omega)
    have hd2 := hsp.moves_add hav (show b.bodyStart + d.stop ≤ b.bodyStart + Text.size w by omega)
    simp only [Function.comp_apply, Decoration.movedAll, Decoration.shift, Nat.add_comm d.start,
      Nat.add_comm d.stop, hd1, hd2, hm.bodyStart]
  unfold Document.paint
  rw [Document.slice_body hw hsize, Document.slice_body hw' hsize', hm.language]
  cases answer b.language w with
  | none => rfl
  | some tokens =>
    simp only [Option.map_some, Option.getD_some, Document.place_eq hw hsize,
      Document.place_eq hw' hsize', hshift]

end Block.Moved

end FencedCode
