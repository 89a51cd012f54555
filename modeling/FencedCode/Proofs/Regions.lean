import FencedCode.Proofs.FenceLines
import FencedCode.Proofs.Lines

namespace FencedCode

namespace Text

def fences (t : Text) : List Mark := (marks t).filter fun m => Fence.closes m.text

theorem fences_pairwise (t : Text) : (fences t).Pairwise fun m n => m.stop < n.start :=
  (marks_pairwise t).filter _

theorem mem_fences {t : Text} {m : Mark} : m ∈ fences t ↔ m ∈ marks t ∧ Fence.closes m.text := by
  simp [fences]

end Text

/-- An opening fence and the next fence line, which closes it. -/
structure Region where
  opener : Mark
  closer : Option Mark

namespace Region

/-- Pairs fence lines up from the top. `opened` is the opening fence that waits to be closed. -/
def pair (opened : Option Mark) : List Mark → List Region
  | [] => opened.toList.map (⟨·, none⟩)
  | f :: fs =>
    match opened with
    | some o => ⟨o, some f⟩ :: pair none fs
    | none => if (Fence.tag? f.text).isSome then pair (some f) fs else pair none fs

def bodyStop (r : Region) (len : Nat) : Nat := r.closer.elim len Mark.start

def stop (r : Region) (len : Nat) : Nat := r.closer.elim len Mark.stop

theorem opener_mem {opened : Option Mark} {fs : List Mark} {r : Region} (h : r ∈ pair opened fs) :
    opened = some r.opener ∨ r.opener ∈ fs := by
  induction fs generalizing opened with
  | nil =>
    obtain ⟨o, ho, rfl⟩ := List.mem_map.1 h
    exact .inl (by simpa using ho)
  | cons f fs ih =>
    cases opened with
    | some o =>
      rcases List.mem_cons.1 h with rfl | h
      · exact .inl rfl
      · rcases ih h with h | h
        · simp at h
        · exact .inr (List.mem_cons_of_mem _ h)
    | none =>
      unfold pair at h
      dsimp only at h
      split_ifs at h with ht
      · rcases ih h with h | h
        · exact .inr (Option.some.inj h ▸ List.mem_cons_self)
        · exact .inr (List.mem_cons_of_mem _ h)
      · rcases ih h with h | h
        · simp at h
        · exact .inr (List.mem_cons_of_mem _ h)

theorem closer_eq (opened : Option Mark) {fs : List Mark}
    (hs : (opened.toList ++ fs).Pairwise fun m n => m.stop < n.start) {r : Region}
    (h : r ∈ pair opened fs) : r.closer = fs.find? fun f => r.opener.start < f.start := by
  induction fs generalizing opened with
  | nil =>
    obtain ⟨o, -, rfl⟩ := List.mem_map.1 h
    rfl
  | cons f fs ih =>
    have hfs : (f :: fs).Pairwise fun m n => m.stop < n.start := (List.pairwise_append.1 hs).2.1
    -- once the region opens at `f` or later, `f` cannot close it
    have skip : r.opener = f ∨ r.opener ∈ fs →
        (f :: fs).find? (fun g => r.opener.start < g.start) =
          fs.find? fun g => r.opener.start < g.start := by
      intro hr
      refine List.find?_cons_of_neg ?_
      have := f.start_le_stop
      rcases hr with hr | hr
      · simp [hr]
      · have := (List.pairwise_cons.1 hfs).1 _ hr
        simp only [decide_eq_true_eq]
        omega
    cases opened with
    | some o =>
      rcases List.mem_cons.1 h with rfl | h
      · have := (List.pairwise_append.1 hs).2.2 o List.mem_cons_self f List.mem_cons_self
        have := o.start_le_stop
        rw [List.find?_cons_of_pos (by simp only [decide_eq_true_eq]; omega)]
      · rw [skip (.inr ((opener_mem h).resolve_left (by simp)))]
        exact ih none (List.pairwise_cons.1 hfs).2 h
    | none =>
      unfold pair at h
      dsimp only at h
      split_ifs at h with ht
      · rw [skip ((opener_mem h).imp (fun he => (Option.some.inj he).symm) id)]
        exact ih (some f) hfs h
      · rw [skip (.inr ((opener_mem h).resolve_left (by simp)))]
        exact ih none (List.pairwise_cons.1 hfs).2 h

theorem closer_mem {opened : Option Mark} {fs : List Mark} {r : Region} (h : r ∈ pair opened fs)
    {c : Mark} (hc : r.closer = some c) : c ∈ fs := by
  induction fs generalizing opened with
  | nil =>
    obtain ⟨o, -, rfl⟩ := List.mem_map.1 h
    simp at hc
  | cons f fs ih =>
    cases opened with
    | some o =>
      rcases List.mem_cons.1 h with rfl | h
      · exact Option.some.inj hc ▸ List.mem_cons_self
      · exact List.mem_cons_of_mem _ (ih h)
    | none =>
      unfold pair at h
      dsimp only at h
      split_ifs at h with ht
      · exact List.mem_cons_of_mem _ (ih h)
      · exact List.mem_cons_of_mem _ (ih h)

theorem pair_pairwise (opened : Option Mark) {fs : List Mark}
    (hs : fs.Pairwise fun m n => m.stop < n.start) :
    (pair opened fs).Pairwise fun r q => ∃ c, r.closer = some c ∧ c.stop < q.opener.start := by
  induction fs generalizing opened with
  | nil => cases opened <;> simp [pair]
  | cons f fs ih =>
    obtain ⟨hf, hfs⟩ := List.pairwise_cons.1 hs
    cases opened with
    | some o =>
      refine List.pairwise_cons.2 ⟨fun q hq => ?_, ih none hfs⟩
      exact ⟨f, rfl, hf _ ((opener_mem hq).resolve_left (by simp))⟩
    | none =>
      unfold pair
      dsimp only
      split_ifs
      · exact ih (some f) hfs
      · exact ih none hfs

theorem pair_map (g : Mark → Mark) (hg : ∀ m, (g m).text = m.text) (opened : Option Mark)
    (fs : List Mark) :
    pair (opened.map g) (fs.map g) =
      (pair opened fs).map fun r => ⟨g r.opener, r.closer.map g⟩ := by
  induction fs generalizing opened with
  | nil => cases opened <;> simp [pair]
  | cons f fs ih =>
    cases opened with
    | some o => simpa [pair] using ih none
    | none =>
      simp only [Option.map_none, List.map_cons, pair, hg]
      split_ifs
      · exact ih (some f)
      · exact ih none

/-- Fence lines from `pos` on have no say in what opens before `pos`, and only as far as they close
it. -/
theorem exists_pair_append {opened : Option Mark} {ps qs : List Mark} {pos : Nat}
    (hq : ∀ q ∈ qs, pos ≤ q.start) (qs' : List Mark) {r : Region}
    (h : r ∈ pair opened (ps ++ qs)) (hr : r.opener.start < pos) :
    ∃ r' ∈ pair opened (ps ++ qs'), r'.opener = r.opener ∧
      (r' = r ∨ (∀ c, r.closer = some c → c ∈ qs) ∧ ∀ c, r'.closer = some c → c ∈ qs') := by
  induction ps generalizing opened with
  | nil =>
    -- the region is the one that is open, and what closes it comes from the other fence lines
    have ho : opened = some r.opener := by
      apply (opener_mem h).resolve_right
      intro hm
      have := hq _ hm
      omega
    subst ho
    refine ⟨⟨r.opener, qs'.head?⟩, ?_, rfl, .inr ⟨fun c hc => closer_mem h hc, fun c hc => ?_⟩⟩
    · cases qs' <;> simp [pair]
    · exact List.mem_of_head? hc
  | cons p ps ih =>
    cases opened with
    | some o =>
      rcases List.mem_cons.1 h with rfl | h
      · exact ⟨_, List.mem_cons_self, rfl, .inl rfl⟩
      · obtain ⟨r', hr', hrest⟩ := ih h
        exact ⟨r', List.mem_cons_of_mem _ hr', hrest⟩
    | none =>
      simp only [List.cons_append, pair] at h ⊢
      split_ifs at h ⊢
      · exact ih h
      · exact ih h

end Region

namespace Text

def regions (t : Text) : List Region := Region.pair none (fences t)

variable {t : Text} {r : Region}

theorem regions_pairwise (t : Text) :
    (regions t).Pairwise fun r q => ∃ c, r.closer = some c ∧ c.stop < q.opener.start :=
  Region.pair_pairwise none (fences_pairwise t)

theorem opener_mem_fences (h : r ∈ regions t) : r.opener ∈ fences t :=
  (Region.opener_mem h).resolve_left (by simp)

theorem closer_mem_fences (h : r ∈ regions t) {c : Mark} (hc : r.closer = some c) :
    c ∈ fences t :=
  Region.closer_mem h hc

theorem closer_eq_find? (h : r ∈ regions t) :
    r.closer = (fences t).find? fun f => r.opener.start < f.start :=
  Region.closer_eq none (by simpa using fences_pairwise t) h

theorem opener_stop_lt_closer (h : r ∈ regions t) {c : Mark} (hc : r.closer = some c) :
    r.opener.stop < c.start := by
  have hlt : r.opener.start < c.start := by
    have := closer_eq_find? h
    rw [hc] at this
    simpa using List.find?_some this.symm
  rcases pairwise_trichotomy (fences_pairwise t) (opener_mem_fences h) (closer_mem_fences h hc)
    with he | he | he
  · rw [he] at hlt
    omega
  · exact he
  · have := c.start_le_stop
    omega

/-- No fence line stands between the opener of a region and its closer. -/
theorem exists_closer_le (h : r ∈ regions t) {f : Mark} (hf : f ∈ fences t)
    (hlt : r.opener.start < f.start) : ∃ c, r.closer = some c ∧ c.start ≤ f.start := by
  have hc := closer_eq_find? h
  cases hfind : (fences t).find? fun g => r.opener.start < g.start with
  | none => exact absurd hlt (by simpa using List.find?_eq_none.1 hfind f hf)
  | some c =>
    refine ⟨c, by rw [hc, hfind], ?_⟩
    rw [List.find?_eq_some_iff_append] at hfind
    obtain ⟨-, as, bs, heq, has⟩ := hfind
    have hp := fences_pairwise t
    rw [heq] at hp hf
    rcases List.mem_append.1 hf with hf | hf
    · have := has f hf
      simp [hlt] at this
    · rcases List.mem_cons.1 hf with rfl | hf
      · exact le_rfl
      · have := (List.pairwise_cons.1 (List.pairwise_append.1 hp).2.1).1 f hf
        have := c.start_le_stop
        omega

theorem fences_append_newline (x y : Text) :
    fences (x ++ '\n' :: y) = fences x ++ (fences y).map (·.shift (size x + 1)) := by
  simp only [fences, marks_append_newline, List.filter_append, List.filter_map]
  rfl

/-- Two texts that begin with the same lines have the same regions there, except that one which is
still open behind these lines may end elsewhere. -/
theorem exists_region_same_lines {x y : Text} (y' : Text) (h : r ∈ regions (x ++ '\n' :: y))
    (hr : r.opener.start < size x + 1) :
    ∃ r' ∈ regions (x ++ '\n' :: y'), r'.opener = r.opener ∧
      (r' = r ∨ (∀ c, r.closer = some c → size x + 1 ≤ c.start) ∧
        ∀ c, r'.closer = some c → size x + 1 ≤ c.start) := by
  have hq : ∀ y : Text, ∀ q ∈ (fences y).map (·.shift (size x + 1)), size x + 1 ≤ q.start := by
    intro y q hq
    obtain ⟨m, -, rfl⟩ := List.mem_map.1 hq
    exact Nat.le_add_left _ _
  rw [regions, fences_append_newline] at h
  obtain ⟨r', hr', ho, hc⟩ :=
    Region.exists_pair_append (hq y) ((fences y').map (·.shift (size x + 1))) h hr
  refine ⟨r', by rwa [regions, fences_append_newline], ho, hc.imp_right fun ⟨h1, h2⟩ => ?_⟩
  exact ⟨fun c hc => hq y c (h1 c hc), fun c hc => hq y' c (h2 c hc)⟩

end Text

end FencedCode
