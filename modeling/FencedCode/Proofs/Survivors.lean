import FencedCode.Proofs.Frame
import FencedCode.Proofs.Provenance

namespace FencedCode

namespace Edit

variable {os : List (Option Nat)}

theorem InOrder.eq_of_getElem? (h : InOrder os) {i j q : Nat} (hi : os[i]? = some (some q))
    (hj : os[j]? = some (some q)) : i = j := by
  obtain ⟨hi', hqi⟩ := List.getElem?_eq_some_iff.1 hi
  obtain ⟨hj', hqj⟩ := List.getElem?_eq_some_iff.1 hj
  have hlt := List.pairwise_iff_getElem.1 h
  rcases Nat.lt_trichotomy i j with hij | hij | hij
  · exact absurd (hlt i j hi' hj' hij q hqi q hqj) (Nat.lt_irrefl q)
  · exact hij
  · exact absurd (hlt j i hj' hi' hij q hqj q hqi) (Nat.lt_irrefl q)

end Edit

namespace Decoration

/-- The edit reaches into the decoration. -/
def reached (e : Edit) (x : Decoration) : Bool := e.start < x.stop && x.start < e.oldEnd

theorem reached_iff {e : Edit} {x : Decoration} :
    x.reached e = true ↔ e.start < x.stop ∧ x.start < e.oldEnd := by
  simp [reached]

theorem map?_eq_none_iff {e : Edit} {x : Decoration} : x.map? e = none ↔ x.reached e = true := by
  rw [reached_iff]
  unfold map?
  split_ifs with h1 h2
  · simp [Nat.not_lt.2 h1]
  · simp [Nat.not_lt.2 h2]
  · simpa using ⟨Nat.not_le.1 h1, Nat.not_le.1 h2⟩

theorem mapAll?_append (es es' : List Edit) (x : Decoration) :
    x.mapAll? (es ++ es') = (x.mapAll? es).bind (·.mapAll? es') :=
  List.foldlM_append

theorem mapAll?_singleton (e : Edit) (x : Decoration) : x.mapAll? [e] = x.map? e := by
  simp [mapAll?]

/-- The bytes under a decoration are, one by one, those that another one lay over originally. -/
def Over (os : List (Option Nat)) (x x' : Decoration) : Prop :=
  x'.length = x.length ∧ ∀ k < x.length, os[x'.start + k]? = some (some (x.start + k))

variable {t t' : Text} {e : Edit} {es : List Edit} {os : List (Option Nat)} {x y y' : Decoration}

theorem over_self {len : Nat} (hx : x.stop ≤ len) :
    Over ((List.range len).map some) x x := by
  refine ⟨rfl, fun k hk => ?_⟩
  have hlt : x.start + k < len := by
    unfold length at hk
    omega
  simp [hlt]

theorem Over.map? (h : Over os x y) (hs : Splice t e t') (hlen : os.length = Text.size t)
    (hy : y.start < y.stop) (hmap : y.map? e = some y') : Over (e.carry os) x y' := by
  obtain ⟨hlength, hover⟩ := h
  have hord := hs.ordered
  refine ⟨(map?_ends hord hy hmap).2.2.1.trans hlength, fun k hk => ?_⟩
  rw [← hover k hk]
  rw [← hlength] at hk
  unfold length at hk
  -- the byte lies before the edit, or as far behind it as the start of the decoration was
  have hout : y'.start + k < e.start ∨ e.newEnd ≤ y'.start + k := by
    rcases map?_eq_some hy hmap with ⟨h1, rfl⟩ | ⟨h1, h2, -, -⟩ <;> omega
  have hback : e.symm.move (y'.start + k) = y.start + k := by
    rcases map?_eq_some hy hmap with ⟨h1, rfl⟩ | ⟨h1, h2, -, -⟩ <;>
      rcases Edit.symm_move_cases hord hout with ⟨h3, h4⟩ | ⟨h3, h4⟩ <;>
      obtain ⟨h5, h6⟩ := hord <;> omega
  rw [Edit.getElem?_carry hs hlen hout, hback]

theorem Over.mapAll? (hs : Splices t es t') (h : Over os x y) (hlen : os.length = Text.size t)
    (hy : y.start < y.stop) (hmap : y.mapAll? es = some y') :
    Over (es.foldl (fun os e => e.carry os) os) x y' := by
  induction hs generalizing os y with
  | nil =>
    obtain rfl := Option.some.inj hmap
    exact h
  | @cons _ _ _ e es hs _ ih =>
    rw [Decoration.mapAll?, List.foldlM_cons] at hmap
    obtain ⟨z, hz, hrest⟩ := Option.bind_eq_some_iff.1 hmap
    have hlength := (map?_ends hs.ordered hy hz).2.2.1
    refine ih (h.map? hs hlen hy hz) (Edit.length_carry hs hlen) ?_ hrest
    unfold length at hlength
    omega

/-- Such a decoration contains the bytes that it contained originally and no others. -/
theorem Over.contains_iff (h : Over os x y) (ho : Edit.InOrder os) (pos : Nat) :
    y.contains pos = true ↔ ∃ q, os[pos]? = some (some q) ∧ x.contains q = true := by
  obtain ⟨hlength, hover⟩ := h
  simp only [Decoration.contains_iff]
  constructor
  · rintro ⟨hlo, hhi⟩
    obtain ⟨k, rfl⟩ := Nat.exists_eq_add_of_le hlo
    have hk : k < x.length := by
      unfold length at hlength ⊢
      omega
    refine ⟨_, hover k hk, Nat.le_add_right _ _, ?_⟩
    unfold length at hk
    omega
  · rintro ⟨q, hq, hlo, hhi⟩
    obtain ⟨k, rfl⟩ := Nat.exists_eq_add_of_le hlo
    have hk : k < x.length := by
      unfold length
      omega
    obtain rfl := ho.eq_of_getElem? hq (hover k hk)
    unfold length at hk hlength
    omega

end Decoration

namespace DecorationSet

def followAll (ds : DecorationSet) : List Edit → DecorationSet × List Nat
  | [] => (ds, [])
  | e :: es =>
    let (ds, n) := ds.follow e
    let (ds, ns) := followAll ds es
    (ds, n :: ns)

variable {ds : DecorationSet} {t t' : Text} {es : List Edit}

theorem followAll_cons (ds : DecorationSet) (e : Edit) (es : List Edit) :
    ds.followAll (e :: es) =
      (((ds.map e).followAll es).1, (ds.follow e).2 :: ((ds.map e).followAll es).2) := rfl

theorem followAll_fst (ds : DecorationSet) (es : List Edit) :
    (ds.followAll es).1 = ds.filterMap (·.mapAll? es) := by
  induction es generalizing ds with
  | nil => exact List.filterMap_some.symm
  | cons e es ih =>
    rw [followAll_cons, ih]
    exact List.filterMap_filterMap

theorem follow_snd (ds : DecorationSet) (e : Edit) :
    (ds.follow e).2 = ds.countP (·.reached e) := by
  have hkept : (ds.map e).length = ds.countP fun x => (x.map? e).isSome :=
    List.length_filterMap_eq_countP
  have hdropped : (ds.countP fun x => decide ¬(x.map? e).isSome = true) =
      ds.countP (·.reached e) := by
    refine List.countP_congr fun x _ => ?_
    rw [decide_eq_true_iff, Option.not_isSome_iff_eq_none, Decoration.map?_eq_none_iff]
  have htotal := List.length_eq_countP_add_countP
    (fun x : Decoration => (x.map? e).isSome) (l := ds)
  simp only [follow]
  omega

/-- Each edit tells how many decorations it dropped of those that the edits before it had left. -/
theorem followAll_snd (ds : DecorationSet) (es : List Edit) (k : Nat) :
    (ds.followAll es).2[k]? =
      es[k]?.map fun e => (ds.followAll (es.take k)).1.countP (·.reached e) := by
  induction es generalizing ds k with
  | nil => rfl
  | cons e es ih =>
    rw [followAll_cons]
    cases k with
    | zero => exact congrArg some (follow_snd ds e)
    | succ k => exact ih (ds.map e) k

theorem length_followAll_snd (ds : DecorationSet) (es : List Edit) :
    (ds.followAll es).2.length = es.length := by
  induction es generalizing ds with
  | nil => rfl
  | cons e es ih =>
    rw [followAll_cons, List.length_cons, List.length_cons, ih]

theorem WellFormed.followAll (hs : Splices t es t') (h : WellFormed (Text.size t) ds) :
    WellFormed (Text.size t') (ds.followAll es).1 := by
  induction hs generalizing ds with
  | nil => exact h
  | cons hs _ ih => exact ih (h.map hs)

/-- Decorations never drift. Whatever edits are made in a text, one after the other, a decoration
that is left contains exactly the bytes that it contained in the beginning; those left are in order,
do not overlap and come in the order they had. An edit drops a decoration exactly if it starts
before the end of it and replaces something behind the start of it, and it tells how many it
dropped. -/
theorem followAll_survivors (t : Text) {ds : DecorationSet} (hds : ds.WellFormed (Text.size t))
    (replacements : List (Nat × Nat × Text)) :
    let d := Document.ofText t
    let d' := (d.applyAll replacements).1
    let es := (d.applyAll replacements).2
    let origins := Edit.origins d.size es
    ((ds.followAll es).1.WellFormed d'.size ∧
      (ds.followAll es).1 = ds.filterMap (·.mapAll? es)) ∧
    (∀ x ∈ ds, ∀ x', x.mapAll? es = some x' → x'.style = x.style ∧ x'.length = x.length ∧
      (∀ pos, x'.contains pos = true ↔
        ∃ q, origins[pos]? = some (some q) ∧ x.contains q = true) ∧
      ∀ k < x.length, d'.byteAt (x'.start + k) = d.byteAt (x.start + k)) ∧
    (∀ x ∈ ds, ∀ k e y, es[k]? = some e → x.mapAll? (es.take k) = some y →
      (x.mapAll? (es.take (k + 1)) = none ↔ e.start < y.stop ∧ y.start < e.oldEnd)) ∧
    (ds.followAll es).2.length = es.length ∧ ∀ k e, es[k]? = some e →
      (ds.followAll es).2[k]? = some ((ds.followAll (es.take k)).1.countP fun y =>
        e.start < y.stop && y.start < e.oldEnd) := by
  intro d d' es origins
  obtain ⟨t', ht', hsp⟩ := Document.applyAll_ofText t replacements
  have hd' : d' = Document.ofText t' := ht'
  rw [hd']
  have htraced := (Traced.init t).edits
    (T := { decorations := ds, visible := none, fences := none, structural := false }) hsp
  refine ⟨⟨hds.followAll hsp, followAll_fst ds es⟩, fun x hx x' hmap => ?_,
    fun x hx k e y hk hy => ?_, ?_, fun k e hk => ?_⟩
  · obtain ⟨hpos, hle⟩ := hds.bounds x hx
    have hlen : ((List.range d.size).map some).length = Text.size t := by
      rw [List.length_map, List.length_range]
      rfl
    have hover : x.Over origins x' := (Decoration.over_self hle).mapAll? hsp hlen hpos hmap
    refine ⟨(Decoration.mapAll?_ends hsp hpos hmap).2.2.2, hover.1,
      hover.contains_iff htraced.ordered, fun k hk => ?_⟩
    exact (htraced.origin _ _ (hover.2 k hk)).2
  · rw [List.take_add_one, hk, Decoration.mapAll?_append, hy, Option.bind_some,
      Option.toList_some, Decoration.mapAll?_singleton, Decoration.map?_eq_none_iff,
      Decoration.reached_iff]
  · exact length_followAll_snd ds es
  · rw [followAll_snd, hk]
    rfl

def threeWords : DecorationSet := [⟨0, 3, "a"⟩, ⟨4, 6, "b"⟩, ⟨7, 8, "c"⟩]

/-- Something is put in before the second word, then inside it, and then behind the first word: the
last word is still over its letter. -/
theorem followAll_survivors_threeWords :
    let d := Document.ofText "aé bc d".toList
    let r := d.applyAll [(4, 4, "xy".toList), (7, 7, "z".toList), (3, 3, "-".toList)]
    threeWords.WellFormed d.size ∧
      threeWords.followAll r.2 = ([⟨0, 3, "a"⟩, ⟨11, 12, "c"⟩], [0, 1, 0]) ∧
      r.1.byteAt 11 = d.byteAt 7 := by
  have hwell : threeWords.WellFormed (Text.size "aé bc d".toList) := ⟨by decide, by decide⟩
  obtain ⟨-, hover, -⟩ := followAll_survivors _ hwell
    [(4, 4, "xy".toList), (7, 7, "z".toList), (3, 3, "-".toList)]
  exact ⟨hwell, by decide,
    (hover ⟨7, 8, "c"⟩ (by decide) ⟨11, 12, "c"⟩ (by decide)).2.2.2 0 (by decide)⟩

end DecorationSet

end FencedCode
