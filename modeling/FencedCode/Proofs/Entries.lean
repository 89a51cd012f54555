import FencedCode.Proofs.Quoting

namespace FencedCode

namespace Toml

variable {c : Char} {s r t : Text}

theorem skipSpace_cons (hc : ¬ isSpace c) (s : Text) : skipSpace (c :: s) = c :: s :=
  List.dropWhile_cons_of_neg hc

theorem statements?_of_lineEnd? (hc : ¬ isSpace c) (h : lineEnd? (c :: s) = some r)
    (hlt : r.length ≤ s.length) : statements? (c :: s) = statements? r := by
  rw [statements?, skipSpace_cons hc]
  dsimp only
  rw [h]
  exact if_pos (Nat.lt_succ_of_le hlt)

theorem statements?_of_statement? {st : Statement} (hc : ¬ isSpace c)
    (hend : lineEnd? (c :: s) = none) (h : statement? (c :: s) = some (st, r))
    (hlt : r.length ≤ s.length) :
    statements? (c :: s) = (statements? r).map (st :: ·) := by
  rw [statements?, skipSpace_cons hc]
  dsimp only
  rw [hend, h]
  exact if_pos (Nat.lt_succ_of_le hlt)

theorem lineEnd?_newline (r : Text) : lineEnd? ('\n' :: r) = some r := rfl

theorem statements?_newline (r : Text) : statements? ('\n' :: r) = statements? r :=
  statements?_of_lineEnd? (by decide) (lineEnd?_newline r) (Nat.le_refl _)

theorem lineEnd?_comment (h : s.dropWhile isPrintable = '\n' :: r) :
    lineEnd? ('#' :: s) = some r := by
  have hspace : skipSpace ('#' :: s) = '#' :: s := skipSpace_cons (by decide) s
  simp only [lineEnd?, hspace, h]
  rfl

theorem statements?_comment (hs : ∀ c ∈ s, isPrintable c) (r : Text) :
    statements? ('#' :: (s ++ '\n' :: r)) = statements? r := by
  have hdrop : (s ++ '\n' :: r).dropWhile isPrintable = '\n' :: r := by
    rw [List.dropWhile_append_of_pos hs, List.dropWhile_cons_of_neg (by decide)]
  exact statements?_of_lineEnd? (by decide) (lineEnd?_comment hdrop) (by simp; omega)

theorem lineEnd?_eq_none (hspace : ¬ isSpace c) (hcomment : c ≠ '#') (hc : isPrintable c)
    (s : Text) : lineEnd? (c :: s) = none := by
  unfold lineEnd?
  rw [skipSpace_cons hspace]
  split
  · rename_i h
    exact absurd (List.cons.inj h).1 hcomment
  · exact newline?_cons hc s

theorem path?_of_simpleKey? {name : Text} (hs : simpleKey? (skipSpace s) = some (name, t))
    (ht : skipSpace t = c :: r) (hc : c ≠ '.') :
    path? s = some ([], String.ofList name, c :: r) := by
  have hkeys : keys? s = some ([String.ofList name], c :: r) := by
    rw [keys?, hs]
    dsimp only
    rw [ht]
    split
    · rename_i h
      exact absurd (List.cons.inj h).1 hc
    · rfl
  rw [path?, hkeys]
  rfl

/-- How a written key may begin. -/
def BeginsKey (c : Char) : Prop := isBare c ∨ c = '\x22' ∨ c = '\x27'

theorem writeKey_eq_cons (k : Text) : ∃ c t, writeKey k = c :: t ∧ BeginsKey c := by
  unfold writeKey
  split_ifs with hbare
  · rw [Bool.and_eq_true, Bool.not_eq_true', List.all_eq_true] at hbare
    cases k with
    | nil => exact absurd hbare.1 (by decide)
    | cons c k => exact ⟨c, k, rfl, .inl (hbare.2 c List.mem_cons_self)⟩
  · exact ⟨_, _, rfl, .inr (.inl rfl)⟩
  · exact ⟨_, _, rfl, .inr (.inl rfl)⟩
  · exact ⟨_, _, rfl, .inr (.inr rfl)⟩
  · exact ⟨_, _, rfl, .inr (.inl rfl)⟩

theorem not_isBare_ascii :
    ∀ n < 128, isControl (Char.ofNat n) → ¬ isBare (Char.ofNat n) := by decide

theorem isPrintable_of_isBare (h : isBare c) : isPrintable c := by
  refine isPrintable_of_not_isControl fun hcontrol => ?_
  have hc := not_isBare_ascii c.toNat (isControl_lt hcontrol)
  rw [Char.ofNat_toNat] at hc
  exact hc hcontrol h

theorem BeginsKey.spec (h : BeginsKey c) :
    ¬ isSpace c ∧ c ≠ '#' ∧ c ≠ '[' ∧ isPrintable c := by
  rcases h with h | rfl | rfl
  · refine ⟨fun hspace => ?_, ?_, ?_, isPrintable_of_isBare h⟩
    · rw [isSpace, Bool.or_eq_true, beq_iff_eq, beq_iff_eq] at hspace
      rcases hspace with rfl | rfl <;> cases h
    · rintro rfl
      cases h
    · rintro rfl
      cases h
  · decide
  · decide

theorem writeValue_eq_cons (s : Text) :
    ∃ c t, writeValue s = c :: t ∧ (c = '\x22' ∨ c = '\x27') := by
  unfold writeValue
  cases quotingOf s with
  | basic => exact ⟨_, _, rfl, .inl rfl⟩
  | literal => exact ⟨_, _, rfl, .inr rfl⟩
  | basicLines => exact ⟨_, _, rfl, .inl rfl⟩
  | literalLines => exact ⟨_, _, rfl, .inr rfl⟩

/-- A value is read back, whatever the depth to which values may be nested. -/
theorem value?_writeValue (depth : Nat) (hdouble : c ≠ '\x22') (hsingle : c ≠ '\x27') (s r : Text) :
    value? (depth + 1) (skipSpace (writeValue s ++ c :: r)) = some (.text s, c :: r) := by
  have hread := quoted?_writeValue hdouble hsingle s r
  obtain ⟨d, t, hd, rfl | rfl⟩ := writeValue_eq_cons s
  all_goals
    rw [hd, List.cons_append] at hread ⊢
    rw [skipSpace_cons (by decide)]
    change (quoted? _).map _ = _
    rw [hread]
    rfl

theorem entry?_writeEntry (k v r : Text) :
    entry? (value? maxDepth) (writeEntry k v ++ r) =
      some (⟨[], String.ofList k, .text v⟩, '\n' :: r) := by
  have hentry : writeEntry k v ++ r =
      writeKey k ++ ' ' :: '=' :: ' ' :: (writeValue v ++ '\n' :: r) := by simp [writeEntry]
  have hkey : simpleKey? (skipSpace (writeEntry k v ++ r)) =
      some (k, ' ' :: '=' :: ' ' :: (writeValue v ++ '\n' :: r)) := by
    obtain ⟨c, t, hc, hbegin⟩ := writeKey_eq_cons k
    have hread := simpleKey?_writeKey (c := ' ') (by decide) k
      ('=' :: ' ' :: (writeValue v ++ '\n' :: r))
    rw [hentry]
    rw [hc, List.cons_append] at hread ⊢
    rw [skipSpace_cons hbegin.spec.1, hread]
  have hvalue := value?_writeValue 78 (c := '\n') (by decide) (by decide) v r
  rw [ entry?, path?_of_simpleKey? hkey rfl (by decide)]
  change (value? 79 (skipSpace (writeValue v ++ '\n' :: r))).map _ = _
  rw [hvalue]
  rfl

theorem statements?_writeEntry (k v r : Text) :
    statements? (writeEntry k v ++ r) =
      (statements? r).map (.entry ⟨[], String.ofList k, .text v⟩ :: ·) := by
  have hentry := entry?_writeEntry k v r
  have hlength : r.length < (writeEntry k v ++ r).length := by simp [writeEntry]; omega
  obtain ⟨c, t, hc, hbegin⟩ := writeKey_eq_cons k
  obtain ⟨hspace, hcomment, hheader, hprintable⟩ := hbegin.spec
  obtain ⟨u, hu⟩ : ∃ u, writeEntry k v ++ r = c :: u := by
    rw [writeEntry, hc]
    exact ⟨_, rfl⟩
  rw [hu] at hentry hlength ⊢
  refine statements?_of_statement? hspace (lineEnd?_eq_none hspace hcomment hprintable u) ?_
    (Nat.le_of_lt_succ hlength)
  rw [statement?]
  · rw [hentry]
    rfl
  · rintro t ht
    exact hheader (List.cons.inj ht).1
  · rintro t ht
    exact hheader (List.cons.inj ht).1

theorem statements?_header {name : Text} (hname : name ≠ []) (hbare : ∀ c ∈ name, isBare c)
    (r : Text) : statements? ('[' :: (name ++ ']' :: '\n' :: r)) =
      (statements? r).map (.header false [] (String.ofList name) :: ·) := by
  obtain ⟨d, u, rfl⟩ := List.exists_cons_of_ne_nil hname
  have hd : BeginsKey d := .inl (hbare d List.mem_cons_self)
  have hkey : simpleKey? (skipSpace (d :: u ++ ']' :: '\n' :: r)) =
      some (d :: u, ']' :: '\n' :: r) := by
    rw [List.cons_append, skipSpace_cons hd.spec.1, ← List.cons_append]
    exact simpleKey?_bare hname hbare (by decide) _
  refine statements?_of_statement? (by decide) ?_ ?_ (by simp; omega)
  · exact lineEnd?_eq_none (by decide) (by decide) (by decide) _
  · rw [statement?]
    · rw [path?_of_simpleKey? hkey (skipSpace_cons (by decide) _) (by decide)]
      rfl
    · intro t ht
      exact hd.spec.2.2.1 (List.cons.inj ht).1

theorem statements?_flatMap (es : List (Text × Text)) :
    statements? (es.flatMap fun e => writeEntry e.1 e.2) =
      some (es.map fun e => .entry ⟨[], String.ofList e.1, .text e.2⟩) := by
  induction es with
  | nil =>
    rw [List.flatMap_nil, statements?]
    rfl
  | cons e es ih =>
    rw [List.flatMap_cons, statements?_writeEntry, ih]
    rfl

theorem sections_append (es : List Entry) (ss : List Statement) :
    sections (es.map .entry ++ ss) = (es ++ (sections ss).1, (sections ss).2) := by
  induction es with
  | nil => rfl
  | cons e es ih => rw [List.map_cons, List.cons_append, sections, ih, List.cons_append]

theorem sections_entries (es : List Entry) : sections (es.map .entry) = (es, []) := by
  have h := sections_append es []
  rwa [List.append_nil, sections, List.append_nil] at h

namespace Table

variable {key : String} {item : Item} {es fs : List (String × Item)}

theorem put_of_notMem (h : key ∉ es.map (·.1)) : put key item es = es ++ [(key, item)] := by
  induction es with
  | nil => rfl
  | cons e es ih =>
    rw [List.map_cons, List.mem_cons, not_or] at h
    rw [put, if_neg (Ne.symm h.1), ih h.2]
    rfl

theorem get?_of_notMem {implied dotted : Bool} (h : key ∉ es.map (·.1)) :
    (mk implied dotted es).get? key = none := by
  refine List.lookup_eq_none_iff.2 fun e he => ?_
  rw [bne_iff_ne]
  rintro rfl
  exact h (List.mem_map_of_mem he)

theorem assign_of_notMem {implied : Bool} (h : key ∉ es.map (·.1)) :
    (mk implied false es).assign [] key item = some (mk implied false (es ++ [(key, item)])) := by
  have hown : ¬ ((mk implied false es).dotted == ([] : List String).isEmpty) = true :=
    Bool.false_ne_true
  rw [assign, update, if_neg hown, get?_of_notMem h, ← put_of_notMem h]
  rfl

/-- New entries no two of which have the same key come last, in their order. -/
theorem assignAll_of_nodup {implied : Bool} (h : ((es ++ fs).map (·.1)).Nodup) :
    (mk implied false es).assignAll (fs.map fun e => ⟨[], e.1, e.2⟩) =
      some (mk implied false (es ++ fs)) := by
  induction fs generalizing es with
  | nil => exact congrArg (fun fs => some (mk implied false fs)) (List.append_nil es).symm
  | cons e fs ih =>
    have hnew : e.1 ∉ es.map (·.1) := by
      rw [List.map_append, List.map_cons] at h
      intro he
      exact (List.nodup_append.1 h).2.2 e.1 he e.1 List.mem_cons_self rfl
    rw [List.append_cons] at h ⊢
    rw [assignAll, List.map_cons, List.foldlM_cons, assign_of_notMem hnew]
    exact ih h

/-- A header that is new makes a table of the entries under it. -/
theorem addTable_of_notMem {implied dotted : Bool} (h : key ∉ es.map (·.1))
    (hfs : (fs.map (·.1)).Nodup) :
    (mk implied dotted es).addTable [] key (fs.map fun e => ⟨[], e.1, e.2⟩) =
      some (mk implied dotted (es ++ [(key, .table (mk false false fs))])) := by
  rw [addTable, update, get?_of_notMem h]
  dsimp only
  have hnew : empty.assignAll (fs.map fun e => ⟨[], e.1, e.2⟩) = some (mk false false fs) :=
    assignAll_of_nodup hfs
  rw [hnew, ← put_of_notMem h]
  rfl

end Table

/-- Entries and then a header with entries under it make a table of the former and of the table of
the latter. -/
theorem tableOf?_of_header {key : String} {es fs : List (String × Item)}
    (hes : ((es.map (·.1)) ++ [key]).Nodup) (hfs : (fs.map (·.1)).Nodup) :
    tableOf? ((es.map fun e => ⟨[], e.1, e.2⟩).map .entry ++
        .header false [] key :: (fs.map fun e => ⟨[], e.1, e.2⟩).map .entry) =
      some (.mk false false (es ++ [(key, .table (.mk false false fs))])) := by
  obtain ⟨hnodup, -, hkey⟩ := List.nodup_append.1 hes
  have hnew : key ∉ es.map (·.1) := fun h => hkey key h key List.mem_cons_self rfl
  have hroot : Table.empty.assignAll (es.map fun e => ⟨[], e.1, e.2⟩) =
      some (.mk false false es) := Table.assignAll_of_nodup hnodup
  rw [tableOf?, sections_append, sections, sections_entries, List.append_nil, hroot]
  change List.foldlM Table.addSection _ _ = _
  rw [List.foldlM_cons, Table.addSection]
  dsimp only
  rw [if_neg Bool.false_ne_true, Table.addTable_of_notMem hnew hfs]
  rfl

end Toml

end FencedCode
