import FencedCode.Proofs.ColorNotation
import FencedCode.Toml.Writer

namespace FencedCode

namespace Toml

variable {c : Char} {s r : Text} {severalLines : Bool}

theorem scalar?_hexDigits {n : Nat} (hn : n < 65536) (hvalid : n.isValidChar) :
    scalar? (hexDigits n) = some (Char.ofNat n) := by
  have hdigit : ∀ d, Text.hexValue? (Nat.digitChar (d % 16)).toUpper = some (d % 16) := fun d =>
    (Text.hexValue?_digitChar _ (Nat.mod_lt d (by decide))).2
  have hsum : 16 * (16 * (16 * (n / 4096 % 16) + n / 256 % 16) + n / 16 % 16) + n % 16 = n := by
    omega
  simp [scalar?, hexDigits, hdigit, hsum, hvalid]

theorem isControl_lt (h : isControl c) : c.toNat < 128 := by
  simp only [isControl, Bool.or_eq_true, decide_eq_true_eq, beq_iff_eq] at h
  omega

theorem escape?_hexDigits (h : isControl c) (t : Text) :
    escape? ('u' :: hexDigits c.toNat ++ t) = some (c, t) := by
  have hread : escape? ('u' :: hexDigits c.toNat ++ t) =
      (scalar? (hexDigits c.toNat)).map (·, t) := rfl
  have hlt : c.toNat < 65536 := Nat.lt_trans (isControl_lt h) (by decide)
  have hvalid : c.toNat.isValidChar := c.valid
  rw [hread, scalar?_hexDigits hlt hvalid, Char.ofNat_toNat]
  rfl

theorem escape?_of_escapeOf? {e : Text} (h : escapeOf? severalLines c = some e) (t : Text) :
    ∃ f, e = '\\' :: f ∧ escape? (f ++ t) = some (c, t) := by
  unfold escapeOf? at h
  split at h
  case h_3 =>
    split_ifs at h
    obtain rfl := Option.some.inj h
    exact ⟨_, rfl, rfl⟩
  case h_7 =>
    split_ifs at h with hcontrol
    obtain rfl := Option.some.inj h
    exact ⟨_, rfl, escape?_hexDigits hcontrol t⟩
  all_goals
    obtain rfl := Option.some.inj h
    exact ⟨_, rfl, rfl⟩

theorem isPrintable_of_not_isControl (h : ¬ isControl c) : isPrintable c := by
  simp only [isControl, Bool.or_eq_true, decide_eq_true_eq, beq_iff_eq, not_or] at h
  simp only [isPrintable, Bool.or_eq_true, Bool.and_eq_true, decide_eq_true_eq, bne_iff_ne]
  exact .inr ⟨by omega, h.2⟩

theorem plain_of_escapeOf? (h : escapeOf? severalLines c = none) :
    c ≠ '\\' ∧ (isPrintable c ∨ severalLines ∧ c = '\n') := by
  unfold escapeOf? at h
  split at h
  case h_3 =>
    split_ifs at h with hlines
    exact ⟨by decide, .inr ⟨hlines, rfl⟩⟩
  case h_7 hbackslash =>
    split_ifs at h with hcontrol
    exact ⟨hbackslash, .inl (isPrintable_of_not_isControl hcontrol)⟩
  all_goals cases h

/-- A character is written as it is, if it is a quote only after few enough others, or else as an
escape. -/
theorem escaped_cons (severalLines : Bool) (quotes run : Nat) (c : Char) (s : Text) :
    c = '\x22' ∧ run < quotes ∧
        escaped severalLines quotes run (c :: s) =
          '\x22' :: escaped severalLines quotes (run + 1) s ∨
      (∃ f, (∀ t, escape? (f ++ t) = some (c, t)) ∧
        escaped severalLines quotes run (c :: s) =
          '\\' :: (f ++ escaped severalLines quotes 0 s)) ∨
      (c ≠ '\x22' ∧ c ≠ '\\' ∧ (isPrintable c ∨ severalLines ∧ c = '\n')) ∧
        escaped severalLines quotes run (c :: s) = c :: escaped severalLines quotes 0 s := by
  rw [escaped]
  split_ifs with hquote hrun
  · exact .inl ⟨hquote, hrun, by rw [hquote]⟩
  · subst hquote
    exact .inr (.inl ⟨['\x22'], fun _ => rfl, rfl⟩)
  · split
    · rename_i e he
      obtain ⟨f, rfl, -⟩ := escape?_of_escapeOf? he []
      refine .inr (.inl ⟨f, fun t => ?_, rfl⟩)
      obtain ⟨f', hf, hread⟩ := escape?_of_escapeOf? he t
      rwa [← (List.cons.inj hf).2] at hread
    · rename_i he
      obtain ⟨hbackslash, hplain⟩ := plain_of_escapeOf? he
      exact .inr (.inr ⟨⟨hquote, hbackslash, hplain⟩, rfl⟩)

theorem basic?_escape {e t : Text} (h : escape? e = some (c, t)) :
    basic? ('\\' :: e) = (basic? t).map fun x => (c :: x.1, x.2) := by
  rw [basic?]
  split
  · simp_all
  · simp_all

theorem basic?_cons (hquote : c ≠ '\x22') (hbackslash : c ≠ '\\') (hc : isPrintable c) (t : Text) :
    basic? (c :: t) = (basic? t).map fun x => (c :: x.1, x.2) := by
  rw [basic?]
  · rw [if_pos hc]
  · exact hquote
  · exact hbackslash

theorem basic?_escaped (s r : Text) :
    basic? (escaped false 0 0 s ++ '\x22' :: r) = some (s, r) := by
  induction s with
  | nil => rw [escaped, List.nil_append, basic?]
  | cons c s ih =>
    rcases escaped_cons false 0 0 c s with ⟨-, hrun, -⟩ | ⟨f, hf, he⟩ | ⟨⟨hquote, hb, hc⟩, he⟩
    · exact absurd hrun (by decide)
    · rw [he, List.cons_append, List.append_assoc, basic?_escape (hf _), ih]
      rfl
    · rw [he, List.cons_append,
        basic?_cons hquote hb (hc.resolve_right fun h => Bool.false_ne_true h.1), ih]
      rfl

theorem literal?_append (hs : ∀ c ∈ s, isPrintable c ∧ c ≠ '\x27') (r : Text) :
    literal? (s ++ '\x27' :: r) = some (s, r) := by
  induction s with
  | nil => rfl
  | cons c s ih =>
    obtain ⟨⟨hc, hquote⟩, hs⟩ := List.forall_mem_cons.1 hs
    rw [List.cons_append, literal?, if_pos hc, ih hs]
    · rfl
    · exact hquote

/-- A reader of texts that end with three quotes, where fewer do not end them. -/
structure EndsWithThree (q : Char) (read : Text → Option (Text × Text)) : Prop where
  three : ∀ r, read (q :: q :: q :: r) = some (lastQuotes q r)
  fewer : ∀ t, (∀ r, t ≠ q :: q :: r) → read (q :: t) = (read t).map fun x => (q :: x.1, x.2)

namespace EndsWithThree

variable {q : Char} {read : Text → Option (Text × Text)} {run : Nat}

/-- One or two quotes in front of another character belong to the text. -/
theorem read_replicate (h : EndsWithThree q read) (hrun : run ≤ 2) (hc : c ≠ q) (t : Text) :
    read (List.replicate run q ++ c :: t) =
      (read (c :: t)).map fun x => (List.replicate run q ++ x.1, x.2) := by
  have hone : read (q :: c :: t) = (read (c :: t)).map fun x => (q :: x.1, x.2) :=
    h.fewer _ fun r hr => hc (List.cons.inj hr).1
  have htwo : read (q :: q :: c :: t) = (read (q :: c :: t)).map fun x => (q :: x.1, x.2) :=
    h.fewer _ fun r hr => hc (List.cons.inj (List.cons.inj hr).2).1
  match run, hrun with
  | 0, _ => exact Option.map_id'.symm
  | 1, _ => exact hone
  | 2, _ =>
    change read (q :: q :: c :: t) = _
    rw [htwo, hone, Option.map_map]
    rfl

/-- One or two quotes right before the last three belong to the text. -/
theorem read_end (h : EndsWithThree q read) (hrun : run ≤ 2) (hc : c ≠ q) (t : Text) :
    read (List.replicate run q ++ q :: q :: q :: c :: t) =
      some (List.replicate run q, c :: t) := by
  match run, hrun with
  | 0, _ =>
    change read (q :: q :: q :: c :: t) = _
    rw [h.three]
    cases t <;> simp [lastQuotes, hc]
  | 1, _ =>
    change read (q :: q :: q :: q :: c :: t) = _
    rw [h.three]
    simp [lastQuotes, hc]
  | 2, _ =>
    change read (q :: q :: q :: q :: q :: c :: t) = _
    rw [h.three]
    simp [lastQuotes]

end EndsWithThree

theorem basicLines?_escape {e t : Text} (h : escape? e = some (c, t)) :
    basicLines? ('\\' :: e) = (basicLines? t).map fun x => (c :: x.1, x.2) := by
  rw [basicLines?]
  split
  · simp_all
  · simp_all

theorem basicLines?_cons {t : Text} (hend : ∀ r, c :: t ≠ '\x22' :: '\x22' :: '\x22' :: r)
    (hbackslash : c ≠ '\\') (hc : isPrintable c ∨ c = '\n') :
    basicLines? (c :: t) = (basicLines? t).map fun x => (c :: x.1, x.2) := by
  rcases hc with hc | rfl
  · rw [basicLines?, if_pos hc]
    · rintro r rfl rfl
      exact hend r rfl
    · exact hbackslash
    · rintro rfl
      cases hc
    · rintro r rfl
      cases hc
  · rw [basicLines?]

theorem endsWithThree_basicLines? : EndsWithThree '\x22' basicLines? where
  three r := by rw [basicLines?]
  fewer t ht := basicLines?_cons (fun r hr => ht r (List.cons.inj hr).2) (by decide) (.inl rfl)

theorem basicLines?_escaped (run : Nat) (hrun : run ≤ 2) (hc : c ≠ '\x22') (s r : Text) :
    basicLines? (List.replicate run '\x22' ++
      (escaped true 2 run s ++ '\x22' :: '\x22' :: '\x22' :: c :: r)) =
        some (List.replicate run '\x22' ++ s, c :: r) := by
  have hread := endsWithThree_basicLines?
  induction s generalizing run with
  | nil => rw [escaped, List.nil_append, hread.read_end hrun hc, List.append_nil]
  | cons d s ih =>
    have hrest := ih 0 (by decide)
    rw [List.replicate_zero, List.nil_append, List.nil_append] at hrest
    rcases escaped_cons true 2 run d s with ⟨rfl, hlt, he⟩ | ⟨f, hf, he⟩ | ⟨⟨hquote, hb, hd⟩, he⟩
    · have hmore := ih (run + 1) hlt
      rw [List.replicate_succ', List.append_assoc, List.append_assoc] at hmore
      rw [he]
      exact hmore
    · rw [he, List.cons_append, hread.read_replicate hrun (by decide), List.append_assoc,
        basicLines?_escape (hf _), hrest]
      rfl
    · rw [he, List.cons_append, hread.read_replicate hrun hquote,
        basicLines?_cons (fun r h => hquote (List.cons.inj h).1) hb (hd.imp_right And.right), hrest]
      rfl

theorem literalLines?_cons {t : Text} (hend : ∀ r, c :: t ≠ '\x27' :: '\x27' :: '\x27' :: r)
    (hc : isPrintable c ∨ c = '\n') :
    literalLines? (c :: t) = (literalLines? t).map fun x => (c :: x.1, x.2) := by
  rcases hc with hc | rfl
  · rw [literalLines?, if_pos hc]
    · rintro r rfl rfl
      exact hend r rfl
    · rintro rfl
      cases hc
    · rintro r rfl
      cases hc
  · rw [literalLines?]

theorem endsWithThree_literalLines? : EndsWithThree '\x27' literalLines? where
  three r := by rw [literalLines?]
  fewer t ht := literalLines?_cons (fun r hr => ht r (List.cons.inj hr).2) (.inl rfl)

theorem le_longestRun (q : Char) (run : Nat) (s : Text) : run ≤ longestRun q run s := by
  induction s generalizing run with
  | nil => exact Nat.le_refl run
  | cons c s ih =>
    rw [longestRun]
    split_ifs
    · exact Nat.le_trans (Nat.le_succ run) (ih (run + 1))
    · exact Nat.le_max_left _ _

theorem literalLines?_append (run : Nat) (hrun : longestRun '\x27' run s ≤ 2)
    (hs : ∀ c ∈ s, isPrintable c ∨ c = '\n') (hc : c ≠ '\x27') (r : Text) :
    literalLines? (List.replicate run '\x27' ++
      (s ++ '\x27' :: '\x27' :: '\x27' :: c :: r)) =
        some (List.replicate run '\x27' ++ s, c :: r) := by
  have hread := endsWithThree_literalLines?
  induction s generalizing run with
  | nil =>
    have hle : run ≤ 2 := hrun
    rw [List.nil_append, hread.read_end hle hc, List.append_nil]
  | cons d s ih =>
    obtain ⟨hd, hs'⟩ := List.forall_mem_cons.1 hs
    have hle := Nat.le_trans (le_longestRun _ _ _) hrun
    rw [longestRun] at hrun
    split_ifs at hrun with hquote
    · subst hquote
      have hmore := ih _ hrun hs'
      rwa [List.replicate_succ', List.append_assoc, List.append_assoc] at hmore
    · have hrest := ih 0 (Nat.le_trans (Nat.le_max_right _ _) hrun) hs'
      rw [List.replicate_zero, List.nil_append, List.nil_append] at hrest
      rw [List.cons_append, hread.read_replicate hle hquote,
        literalLines?_cons (fun r h => hquote (List.cons.inj h).1) hd, hrest]
      rfl

/-- The texts that can stand in quotes of a kind. -/
def Quoting.Holds : Quoting → Text → Prop
  | .basic, _ => True
  | .literal, s => ∀ c ∈ s, isPrintable c ∧ c ≠ '\x27'
  | .basicLines, _ => True
  | .literalLines, s =>
    longestRun '\x27' 0 s ≤ 2 ∧ ∀ c ∈ s, isPrintable c ∨ c = '\n'

theorem notMem_of_longestRun {q : Char} (run : Nat) (h : longestRun q run s = 0) : q ∉ s := by
  induction s generalizing run with
  | nil => exact List.not_mem_nil
  | cons c s ih =>
    rw [longestRun] at h
    split_ifs at h with hc
    · have := le_longestRun q (run + 1) s
      omega
    · rw [List.mem_cons, not_or]
      exact ⟨Ne.symm hc, ih 0 (by omega)⟩

theorem isPrintable_of_tab (h : isControl c → c = '\t') : isPrintable c := by
  by_cases hcontrol : isControl c
  · rw [h hcontrol]
    rfl
  · exact isPrintable_of_not_isControl hcontrol

theorem plain_of_not_needsEscape (h : ¬ needsEscape s) : ∀ c ∈ s, isPrintable c ∨ c = '\n' := by
  intro c hc
  by_cases hnewline : c = '\n'
  · exact .inr hnewline
  · refine .inl (isPrintable_of_tab fun hcontrol => ?_)
    by_contra htab
    refine h (List.any_eq_true.2 ⟨c, hc, ?_⟩)
    simp [hcontrol, htab, hnewline]

theorem holds_quotingOf (s : Text) : (quotingOf s).Holds s := by
  unfold quotingOf
  dsimp only
  split_ifs with hesc _ _ hliteral _ hlines
  · trivial
  · trivial
  · trivial
  · simp only [Bool.and_eq_true, beq_iff_eq, Bool.not_eq_true', List.contains_eq_mem,
      decide_eq_false_iff_not] at hliteral
    intro c hc
    refine ⟨(plain_of_not_needsEscape hesc c hc).resolve_right ?_, ?_⟩
    · rintro rfl
      exact hliteral.2 hc
    · rintro rfl
      exact notMem_of_longestRun 0 hliteral.1 hc
  · trivial
  · exact ⟨hlines, plain_of_not_needsEscape hesc⟩
  · trivial
  · trivial

theorem newline?_cons (h : isPrintable c) (t : Text) : newline? (c :: t) = none := by
  rw [newline?]
  · rintro r hr
    rw [(List.cons.inj hr).1] at h
    cases h
  · rintro r hr
    rw [(List.cons.inj hr).1] at h
    cases h

/-- A line break at the start of a text over several lines is not lost, because another one is put
in front of it. -/
theorem skipNewline_lineStart {t : Text} (h : '\n' ∉ s → ∃ c u, t = c :: u ∧ isPrintable c) :
    skipNewline (lineStart s ++ t) = t := by
  unfold lineStart
  split_ifs with hs
  · rfl
  · obtain ⟨c, u, rfl, hc⟩ := h (by simpa using hs)
    rw [List.nil_append, skipNewline, newline?_cons hc]
    rfl

theorem quoted?_basic {t : Text} (h : ∀ r, t ≠ '\x22' :: '\x22' :: r) :
    quoted? ('\x22' :: t) = basic? t := by
  rw [quoted?]
  exact h

theorem quoted?_literal {t : Text} (h : ∀ r, t ≠ '\x27' :: '\x27' :: r) :
    quoted? ('\x27' :: t) = literal? t := by
  rw [quoted?]
  exact h

/-- A text in quotes is read back, if another character follows. -/
theorem quoted?_quote {q : Quoting} (h : q.Holds s) (hdouble : c ≠ '\x22') (hsingle : c ≠ '\x27')
    (r : Text) : quoted? (quote q s ++ c :: r) = some (s, c :: r) := by
  cases q with
  | basic =>
    have hread : quote .basic s ++ c :: r =
        '\x22' :: (escaped false 0 0 s ++ '\x22' :: c :: r) := by simp [quote]
    rw [hread, quoted?_basic, basic?_escaped]
    -- what is escaped does not begin with a quote
    intro t ht
    cases s with
    | nil => exact hdouble (List.cons.inj (List.cons.inj ht).2).1
    | cons d s =>
      rcases escaped_cons false 0 0 d s with ⟨-, hrun, -⟩ | ⟨f, -, he⟩ | ⟨⟨hquote, -⟩, he⟩
      · exact absurd hrun (by decide)
      · rw [he] at ht
        cases ht
      · rw [he] at ht
        exact hquote (List.cons.inj ht).1
  | literal =>
    have hread : quote .literal s ++ c :: r = '\x27' :: (s ++ '\x27' :: c :: r) := by
      simp [quote]
    rw [hread, quoted?_literal, literal?_append h]
    intro t ht
    cases s with
    | nil => exact hsingle (List.cons.inj (List.cons.inj ht).2).1
    | cons d s => exact (h d List.mem_cons_self).2 (List.cons.inj ht).1
  | basicLines =>
    have hread : quote .basicLines s ++ c :: r = '\x22' :: '\x22' :: '\x22' :: (lineStart s ++
        (escaped true 2 0 s ++ '\x22' :: '\x22' :: '\x22' :: c :: r)) := by simp [quote]
    rw [hread, quoted?, skipNewline_lineStart]
    · exact basicLines?_escaped 0 (by decide) hdouble s r
    · intro hs
      cases s with
      | nil => exact ⟨_, _, rfl, rfl⟩
      | cons d s =>
        rcases escaped_cons true 2 0 d s with ⟨-, -, he⟩ | ⟨f, -, he⟩ | ⟨⟨-, -, hd⟩, he⟩
        · exact ⟨_, _, by rw [he]; rfl, rfl⟩
        · exact ⟨_, _, by rw [he]; rfl, rfl⟩
        · refine ⟨_, _, by rw [he]; rfl, hd.resolve_right ?_⟩
          rintro ⟨-, rfl⟩
          exact hs List.mem_cons_self
  | literalLines =>
    have hread : quote .literalLines s ++ c :: r = '\x27' :: '\x27' :: '\x27' :: (lineStart s ++
        (s ++ '\x27' :: '\x27' :: '\x27' :: c :: r)) := by simp [quote]
    rw [hread, quoted?, skipNewline_lineStart]
    · exact literalLines?_append 0 h.1 h.2 hsingle r
    · intro hs
      cases s with
      | nil => exact ⟨_, _, rfl, rfl⟩
      | cons d s =>
        refine ⟨_, _, rfl, (h.2 d List.mem_cons_self).resolve_right ?_⟩
        rintro rfl
        exact hs List.mem_cons_self

theorem quoted?_writeValue (hdouble : c ≠ '\x22') (hsingle : c ≠ '\x27') (s r : Text) :
    quoted? (writeValue s ++ c :: r) = some (s, c :: r) :=
  quoted?_quote (holds_quotingOf s) hdouble hsingle r

theorem simpleKey?_basic (s r : Text) : simpleKey? (quote .basic s ++ r) = some (s, r) := by
  have hread : quote .basic s ++ r = '\x22' :: (escaped false 0 0 s ++ '\x22' :: r) := by
    simp [quote]
  rw [hread]
  exact basic?_escaped s r

theorem simpleKey?_bare (hs : s ≠ []) (hbare : ∀ c ∈ s, isBare c) (hc : ¬ isBare c) (r : Text) :
    simpleKey? (s ++ c :: r) = some (s, c :: r) := by
  have htake : (s ++ c :: r).takeWhile isBare = s := by
    rw [List.takeWhile_append_of_pos hbare, List.takeWhile_cons_of_neg hc, List.append_nil]
  have hdrop : (s ++ c :: r).dropWhile isBare = c :: r := by
    rw [List.dropWhile_append_of_pos hbare, List.dropWhile_cons_of_neg hc]
  cases s with
  | nil => exact absurd rfl hs
  | cons d s =>
    have hd := hbare d List.mem_cons_self
    rw [simpleKey?]
    · rw [htake, hdrop]
      rfl
    · rintro t ht
      rw [(List.cons.inj ht).1] at hd
      cases hd
    · rintro t ht
      rw [(List.cons.inj ht).1] at hd
      cases hd

theorem simpleKey?_writeKey (hc : ¬ isBare c) (s r : Text) :
    simpleKey? (writeKey s ++ c :: r) = some (s, c :: r) := by
  unfold writeKey
  split_ifs with hbare hcontrol _ hliteral
  · rw [Bool.and_eq_true, Bool.not_eq_true', List.all_eq_true] at hbare
    exact simpleKey?_bare (List.isEmpty_eq_false_iff.1 hbare.1) hbare.2 hc r
  · exact simpleKey?_basic s _
  · exact simpleKey?_basic s _
  · have hread : quote .literal s ++ c :: r = '\x27' :: (s ++ '\x27' :: c :: r) := by
      simp [quote]
    rw [hread]
    refine literal?_append (fun d hd => ⟨isPrintable_of_tab fun h => ?_, ?_⟩) _
    · by_contra htab
      refine hcontrol (List.any_eq_true.2 ⟨d, hd, ?_⟩)
      simp [h, htab]
    · rintro rfl
      rw [Bool.not_eq_true', List.contains_eq_mem, decide_eq_false_iff_not] at hliteral
      exact hliteral hd
  · exact simpleKey?_basic s _

end Toml

end FencedCode
