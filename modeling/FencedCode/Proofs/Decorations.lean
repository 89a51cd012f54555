import FencedCode.Decoration
import FencedCode.Proofs.Splice

namespace FencedCode

namespace Decoration

def Apart (d e : Decoration) : Prop := d.stop ≤ e.start ∨ e.stop ≤ d.start

def shift (d : Decoration) (k : Nat) : Decoration :=
  { d with start := d.start + k, stop := d.stop + k }

@[simp] theorem shift_start (d : Decoration) (k : Nat) : (d.shift k).start = d.start + k := rfl

@[simp] theorem shift_stop (d : Decoration) (k : Nat) : (d.shift k).stop = d.stop + k := rfl

theorem Apart.symm {d e : Decoration} (h : d.Apart e) : e.Apart d := Or.symm h

theorem contains_iff {d : Decoration} {pos : Nat} :
    d.contains pos = true ↔ d.start ≤ pos ∧ pos < d.stop := by
  simp [contains]

theorem map?_eq_some {d d' : Decoration} {e : Edit} (hd : d.start < d.stop)
    (h : d.map? e = some d') :
    (d.stop ≤ e.start ∧ d' = d) ∨ (e.oldEnd ≤ d.start ∧
      d'.start + e.oldEnd = d.start + e.newEnd ∧ d'.stop + e.oldEnd = d.stop + e.newEnd ∧
        d'.style = d.style) := by
  unfold map? at h
  split_ifs at h with h1 h2
  · exact .inl ⟨h1, (Option.some.inj h).symm⟩
  · obtain rfl := Option.some.inj h
    refine .inr ⟨h2, ?_, ?_, rfl⟩
    · dsimp only
      omega
    · dsimp only
      omega

theorem before_trans (d e f : Decoration) (hde : d.before e = true) (hef : e.before f = true) :
    d.before f = true := by
  simp only [before, Bool.or_eq_true, Bool.and_eq_true, decide_eq_true_eq, beq_iff_eq] at *
  omega

theorem before_total (d e : Decoration) : (d.before e || e.before d) = true := by
  simp only [before, Bool.or_eq_true, Bool.and_eq_true, decide_eq_true_eq, beq_iff_eq]
  omega

end Decoration

namespace DecorationSet

/-- What a set of decorations has to be in a text of the given length. -/
structure WellFormed (len : Nat) (ds : DecorationSet) : Prop where
  bounds : ∀ d ∈ ds, d.start < d.stop ∧ d.stop ≤ len
  ordered : ds.Pairwise fun d e => d.stop ≤ e.start

/-- The decorations that contain a byte. -/
def covering (ds : DecorationSet) (pos : Nat) : List Decoration := ds.filter (·.contains pos)

variable {ds es : DecorationSet} {len : Nat}

theorem wellFormed_nil (len : Nat) : WellFormed len [] := ⟨by simp, .nil⟩

theorem WellFormed.append (hd : WellFormed len ds) (he : WellFormed len es)
    (h : ∀ d ∈ ds, ∀ e ∈ es, d.stop ≤ e.start) : WellFormed len (ds ++ es) := by
  refine ⟨fun d hd' => ?_, List.pairwise_append.2 ⟨hd.ordered, he.ordered, h⟩⟩
  rcases List.mem_append.1 hd' with hd' | hd'
  · exact hd.bounds d hd'
  · exact he.bounds d hd'

theorem WellFormed.sorted (h : WellFormed len ds) :
    ds.Pairwise fun d e => d.before e = true := by
  apply h.ordered.imp_of_mem
  intro d e hd _ hde
  have := (h.bounds d hd).1
  simp only [Decoration.before, Bool.or_eq_true, decide_eq_true_eq]
  omega

theorem WellFormed.starts (h : WellFormed len ds) : ds.Pairwise fun d e => d.start < e.start :=
  h.ordered.imp_of_mem fun hd _ hde => (h.bounds _ hd).1.trans_le hde

theorem mem_covering {d : Decoration} {pos : Nat} :
    d ∈ ds.covering pos ↔ d ∈ ds ∧ d.contains pos := by
  simp [covering]

/-- Decorations in order are determined by which they are. -/
theorem eq_of_mem_iff (hd : ds.Pairwise fun d e => d.start < e.start)
    (he : es.Pairwise fun d e => d.start < e.start) (h : ∀ d, d ∈ ds ↔ d ∈ es) : ds = es := by
  have hirrefl : Std.Irrefl fun d e : Decoration => d.start < e.start :=
    ⟨fun d => lt_irrefl d.start⟩
  have hanti : Std.Antisymm fun d e : Decoration => d.start < e.start :=
    ⟨fun d e h1 h2 => absurd h1 h2.le.not_gt⟩
  exact List.Pairwise.eq_of_mem_iff hd he h

/-- Well-formed sets with the same decorations over a byte show the same there. -/
theorem WellFormed.covering_eq (hd : WellFormed len ds) (he : WellFormed len es) {pos : Nat}
    (h : ∀ d : Decoration, d.contains pos → (d ∈ ds ↔ d ∈ es)) :
    ds.covering pos = es.covering pos := by
  refine eq_of_mem_iff (hd.starts.filter _) (he.starts.filter _) fun d => ?_
  rw [mem_covering, mem_covering]
  exact and_congr_left (h d)

theorem length_covering (hp : ds.Pairwise fun d e => d.stop ≤ e.start) (pos : Nat) :
    (ds.covering pos).length = if ∃ d ∈ ds, d.contains pos then 1 else 0 := by
  induction hp with
  | nil => rfl
  | @cons d ds hd _ ih =>
    unfold covering at ih ⊢
    rw [List.filter_cons]
    by_cases hc : d.contains pos
    · have hrest : ds.filter (·.contains pos) = [] := by
        refine List.filter_eq_nil_iff.2 fun e he hpos => ?_
        have := hd e he
        rw [Decoration.contains_iff] at hc hpos
        omega
      rw [if_pos hc, if_pos ⟨d, List.mem_cons_self, hc⟩, hrest]
      rfl
    · have hiff : (∃ e ∈ d :: ds, e.contains pos) ↔ ∃ e ∈ ds, e.contains pos := by simp [hc]
      rw [if_neg hc, ih]
      simp only [hiff]

theorem nonempty_map (h : ∀ d ∈ ds, d.start < d.stop) (e : Edit) :
    ∀ d ∈ ds.map e, d.start < d.stop := by
  intro d' hd'
  obtain ⟨d, hd, hmap⟩ := List.mem_filterMap.1 hd'
  rcases Decoration.map?_eq_some (h d hd) hmap with ⟨-, rfl⟩ | ⟨-, h1, h2, -⟩
  · exact h d' hd
  · have := h d hd
    omega

/-- Decorations each of which ends before the next starts still do so after an edit. -/
theorem ordered_map {e : Edit} (he : e.Ordered) (h : ∀ d ∈ ds, d.start < d.stop)
    (ho : ds.Pairwise fun d e => d.stop ≤ e.start) :
    (ds.map e).Pairwise fun d e => d.stop ≤ e.start := by
  rw [Edit.Ordered] at he
  refine List.pairwise_filterMap.2 (ho.imp_of_mem fun {a b} ha hb hab a' ha' b' hb' => ?_)
  have ha1 := h a ha
  have hb1 := h b hb
  -- the edit lies behind both, before both, or between them
  rcases Decoration.map?_eq_some ha1 ha' with ⟨h1, rfl⟩ | ⟨h1, h2, h3, -⟩ <;>
    rcases Decoration.map?_eq_some hb1 hb' with ⟨h4, rfl⟩ | ⟨h4, h5, h6, -⟩ <;> omega

theorem WellFormed.map {t t' : Text} {e : Edit} (hs : Splice t e t')
    (h : WellFormed (Text.size t) ds) : WellFormed (Text.size t') (ds.map e) := by
  have hold := hs.oldEnd_le
  have hsize := hs.size_eq
  have hne : ∀ d ∈ ds, d.start < d.stop := fun d hd => (h.bounds d hd).1
  refine ⟨fun d' hd' => ⟨nonempty_map hne e d' hd', ?_⟩,
    ordered_map hs.ordered hne h.ordered⟩
  obtain ⟨d, hd, hmap⟩ := List.mem_filterMap.1 hd'
  obtain ⟨hlt, hle⟩ := h.bounds d hd
  have hord : e.start ≤ e.oldEnd ∧ e.start ≤ e.newEnd := hs.ordered
  rcases Decoration.map?_eq_some hlt hmap with ⟨h1, rfl⟩ | ⟨h1, h2, h3, -⟩
  · omega
  · omega

theorem mem_update {keep : Nat → Bool} {add : List Decoration} {d : Decoration} :
    d ∈ (ds.update keep add).1 ↔ (d ∈ ds ∧ keep d.start) ∨ d ∈ add := by
  simp [update]

theorem update_pairwise (ds : DecorationSet) (keep : Nat → Bool) (add : List Decoration) :
    (ds.update keep add).1.Pairwise fun d e => d.before e = true :=
  List.pairwise_mergeSort Decoration.before_trans Decoration.before_total _

/-- An update keeps a set well formed when its additions stay clear of what is kept. -/
theorem WellFormed.update (hd : WellFormed len ds) {add : List Decoration}
    (ha : WellFormed len add) {keep : Nat → Bool}
    (h : ∀ d ∈ ds, keep d.start → ∀ e ∈ add, d.Apart e) :
    WellFormed len (ds.update keep add).1 := by
  have hkept : WellFormed len (ds.filter fun d => keep d.start) :=
    ⟨fun d hd' => hd.bounds d (List.mem_filter.1 hd').1, hd.ordered.filter _⟩
  have hbounds : ∀ d ∈ (ds.update keep add).1, d.start < d.stop ∧ d.stop ≤ len := by
    intro d hd'
    rcases mem_update.1 hd' with ⟨hd', -⟩ | hd'
    · exact hd.bounds d hd'
    · exact ha.bounds d hd'
  have hapart : ((ds.filter fun d => keep d.start) ++ add).Pairwise Decoration.Apart := by
    refine List.pairwise_append.2 ⟨hkept.ordered.imp .inl, ha.ordered.imp .inl, ?_⟩
    intro d hd' e he
    obtain ⟨hd', hk⟩ := List.mem_filter.1 hd'
    exact h d hd' hk e he
  -- being apart does not depend on the order, so sorting keeps it
  have hperm : (ds.update keep add).1.Pairwise Decoration.Apart :=
    (List.mergeSort_perm _ _).symm.pairwise hapart fun h => h.symm
  refine ⟨hbounds, ((update_pairwise ds keep add).and hperm).imp_of_mem fun {d e} hd' he' hde => ?_⟩
  obtain ⟨hbefore, hdisj⟩ := hde
  have := (hbounds d hd').1
  have := (hbounds e he').1
  simp only [Decoration.before, Bool.or_eq_true, Bool.and_eq_true, decide_eq_true_eq,
    beq_iff_eq] at hbefore
  unfold Decoration.Apart at hdisj
  omega

end DecorationSet

end FencedCode
