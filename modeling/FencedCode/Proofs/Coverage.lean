import FencedCode.Proofs.Backends
import FencedCode.Proofs.BackgroundLoads
import FencedCode.Proofs.Bundled
import FencedCode.Proofs.Locating

namespace FencedCode

namespace Text

theorem At.trans {t w v : Text} {pos k : Nat} (h : At t pos w) (h' : At w k v) :
    At t (pos + k) v := by
  obtain ⟨x, y, rfl, rfl⟩ := h
  obtain ⟨x', y', rfl, rfl⟩ := h'
  exact ⟨x ++ x', y' ++ y, by simp, size_append x x'⟩

theorem byteAt_ne_newline {w : Text} (h : '\n' ∉ w) (k : Nat) : byteAt w k ≠ some 10 := by
  induction w generalizing k with
  | nil => simp [byteAt]
  | cons c cs ih =>
    rw [List.mem_cons, not_or] at h
    obtain ⟨hc, hcs⟩ := h
    unfold byteAt
    split_ifs
    · intro hbyte
      exact hc (eq_newline_of_mem_utf8EncodeChar (List.mem_of_getElem? hbyte)).symm
    · exact ih hcs _

theorem byteAt_line_ne_newline {t x l z : Text} (ht : t = x ++ l ++ z) (hl : '\n' ∉ l) {pos : Nat}
    (hlo : size x ≤ pos) (hhi : pos < size (x ++ l)) : byteAt t pos ≠ some 10 := by
  obtain ⟨k, rfl⟩ := Nat.exists_eq_add_of_le hlo
  rw [size_append] at hhi
  rw [ht, List.append_assoc, byteAt_append_right, byteAt_append_left _ _ (by omega)]
  exact byteAt_ne_newline hl k

theorem lines_cases (t : Text) : ('\n' ∉ t ∧ lines t = [t]) ∨
    ∃ x y, '\n' ∉ x ∧ t = x ++ '\n' :: y ∧ lines t = x :: lines y := by
  unfold lines
  induction t with
  | nil => exact .inl ⟨by simp, rfl⟩
  | cons c cs ih =>
    by_cases hc : c = '\n'
    · exact .inr ⟨[], cs, by simp, by simp [hc], by simp [split, hc]⟩
    · rcases ih with ⟨hcs, hlines⟩ | ⟨x, y, hx, rfl, hlines⟩
      · exact .inl ⟨by simp [hcs, Ne.symm hc], by simp [split, hc, hlines]⟩
      · exact .inr ⟨c :: x, y, by simp [hx, Ne.symm hc], rfl, by simp [split, hc, hlines]⟩

end Text

namespace Placement

/-- A decoration lies on the text of a token. -/
def Covers (t : Text) (d : Decoration) (tok : Token) : Prop :=
  Text.At t d.start tok.text ∧ d.stop = d.start + Text.size tok.text

theorem line_spell {t x l y : Text} (ht : t = x ++ l ++ y) {ts : TokenLine}
    (h : Token.Spell l ts) :
    (line (Text.size t) (Text.size x) ts).2 = Text.size (x ++ l) ∧
      List.Forall₂ (Covers t) (line (Text.size t) (Text.size x) ts).1 ts ∧
        ∀ pos, (∃ d ∈ (line (Text.size t) (Text.size x) ts).1, d.contains pos) ↔
          Text.size x ≤ pos ∧ pos < Text.size (x ++ l) := by
  induction ts generalizing x l with
  | nil =>
    obtain rfl : [] = l := h.2
    exact ⟨by simp [line], .nil, by simp [line]⟩
  | cons tok ts ih =>
    obtain ⟨hne, hflat⟩ := h
    obtain ⟨htok, hts⟩ := List.forall_mem_cons.1 hne
    obtain rfl : tok.text ++ ts.flatMap (·.text) = l := hflat
    have hsize : 0 < Text.size tok.text :=
      Nat.pos_of_ne_zero fun h0 => htok (Text.eq_nil_of_size_eq_zero h0)
    have hlen : Text.size t = Text.size x + Text.size tok.text +
        Text.size (ts.flatMap (·.text)) + Text.size y := by
      rw [ht]
      simp only [Text.size_append]
      omega
    -- the token ends where the rest of the line starts
    have hnext : min (Text.size x + Text.size tok.text) (Text.size t) =
        Text.size (x ++ tok.text) := by
      rw [Text.size_append]
      omega
    obtain ⟨hlast, hcovers, hbytes⟩ := ih (x := x ++ tok.text) (by simp [ht]) ⟨hts, rfl⟩
    unfold line
    rw [if_neg (by simpa using htok), if_neg (by omega), hnext]
    have hat : Text.At t (Text.size x) tok.text := ⟨x, ts.flatMap (·.text) ++ y, by simp [ht], rfl⟩
    refine ⟨by simpa using hlast, .cons ⟨hat, by simp⟩ hcovers, fun pos => ?_⟩
    · rw [List.exists_mem_cons_iff, hbytes, Decoration.contains_iff]
      simp only [Text.size_append]
      omega

theorem skipBreak_newline (x y : Text) : skipBreak (Text.byteAt (x ++ '\n' :: y))
    (Text.size (x ++ '\n' :: y)) (Text.size x) = Text.size (x ++ ['\n']) := by
  rw [skipBreak, if_pos ⟨Text.size_lt_size_append_cons x _ y, Text.byteAt_newline x y⟩,
    Text.size_append]
  rfl

/-- Between lines of tokens that spell the lines of a text a line break is stepped over. -/
theorem lines_spell {t x y : Text} (ht : t = x ++ y) {tokens : List TokenLine}
    (h : List.Forall₂ Token.Spell (Text.lines y) tokens) :
    List.Forall₂ (Covers t) (lines (Text.byteAt t) (Text.size t) (Text.size x) tokens)
      tokens.flatten ∧
        ∀ pos, (∃ d ∈ lines (Text.byteAt t) (Text.size t) (Text.size x) tokens, d.contains pos) ↔
          Text.size x ≤ pos ∧ pos < Text.size t ∧ Text.byteAt t pos ≠ some 10 := by
  induction tokens generalizing x y with
  | nil => exact absurd (List.forall₂_nil_right_iff.1 h) (Text.lines_ne_nil y)
  | cons ts tokens ih =>
    unfold lines
    rcases Text.lines_cases y with ⟨hnl, hlines⟩ | ⟨l, z, hl, rfl, hlines⟩
    · rw [hlines] at h
      obtain ⟨hline, hrest⟩ := List.forall₂_cons.1 h
      obtain rfl := List.forall₂_nil_left_iff.1 hrest
      have ht' : t = x ++ y ++ [] := by simp [ht]
      obtain ⟨-, hcovers, hbytes⟩ := line_spell ht' hline
      simp only [lines, List.append_nil, List.flatten_cons, List.flatten_nil]
      refine ⟨hcovers, fun pos => ?_⟩
      rw [hbytes, ← ht]
      constructor
      · rintro ⟨hlo, hhi⟩
        exact ⟨hlo, hhi, Text.byteAt_line_ne_newline ht' hnl hlo (ht ▸ hhi)⟩
      · rintro ⟨hlo, hhi, -⟩
        exact ⟨hlo, hhi⟩
    · rw [hlines] at h
      obtain ⟨hline, hrest⟩ := List.forall₂_cons.1 h
      have ht' : t = x ++ l ++ '\n' :: z := by simp [ht]
      obtain ⟨hlast, hcovers, hbytes⟩ := line_spell ht' hline
      obtain ⟨hcovers', hbytes'⟩ := ih (x := x ++ l ++ ['\n']) (by simp [ht']) hrest
      have hnl : Text.byteAt t (Text.size (x ++ l)) = some 10 := ht' ▸ Text.byteAt_newline _ z
      have hskip : skipBreak (Text.byteAt t) (Text.size t) (Text.size (x ++ l)) =
          Text.size (x ++ l ++ ['\n']) := ht' ▸ skipBreak_newline _ z
      have hone : Text.size ['\n'] = 1 := rfl
      have hlt : Text.size (x ++ l) < Text.size t := ht' ▸ Text.size_lt_size_append_cons _ _ z
      dsimp only
      rw [hlast, hskip]
      refine ⟨List.rel_append hcovers hcovers', fun pos => ?_⟩
      simp only [List.mem_append, or_and_right, exists_or]
      rw [hbytes, hbytes', Text.size_append _ ['\n'], hone]
      have hline : Text.size x ≤ pos → pos < Text.size (x ++ l) → Text.byteAt t pos ≠ some 10 :=
        Text.byteAt_line_ne_newline ht' hl
      rw [Text.size_append] at hlt hline hnl ⊢
      constructor
      · rintro (⟨hlo, hhi⟩ | ⟨hlo, hhi, hne⟩)
        · exact ⟨hlo, by omega, hline hlo hhi⟩
        · exact ⟨by omega, hhi, hne⟩
      · rintro ⟨hlo, hhi, hne⟩
        -- the byte after the line is its line break
        have : pos ≠ Text.size x + Text.size l := fun heq => hne (heq ▸ hnl)
        by_cases hpos : pos < Text.size x + Text.size l
        · exact .inl ⟨hlo, hpos⟩
        · exact .inr ⟨by omega, hhi, hne⟩

end Placement

namespace Document

variable {t : Text} {aliases : Aliases} {b : Block}

/-- Tokens that spell the lines of a body cover it exactly. -/
theorem place_covers (h : b ∈ (ofText t).blocks aliases) {tokens : List TokenLine}
    (hs : List.Forall₂ Token.Spell (Text.lines ((ofText t).slice b.body)) tokens) :
    List.Forall₂ (Placement.Covers t) ((ofText t).host.place b tokens) tokens.flatten ∧
      ∀ pos, (∃ d ∈ (ofText t).host.place b tokens, d.contains pos) ↔
        b.bodyStart ≤ pos ∧ pos < b.bodyStop ∧ (ofText t).byteAt pos ≠ some 10 := by
  obtain ⟨w, hw, hsize⟩ := exists_body h
  rw [slice_body hw hsize] at hs
  rw [place_eq hw hsize]
  obtain ⟨hcovers, hbytes⟩ := Placement.lines_spell (x := []) (List.nil_append w).symm hs
  constructor
  · rw [List.forall₂_map_left_iff]
    refine hcovers.imp fun d tok ⟨hat, hstop⟩ => ⟨?_, ?_⟩
    · rw [Decoration.shift_start, Nat.add_comm]
      exact hw.trans hat
    · rw [Decoration.shift_start, Decoration.shift_stop, hstop]
      omega
  · intro pos
    simp only [List.mem_map, exists_exists_and_eq_and]
    by_cases hpos : b.bodyStart ≤ pos
    · obtain ⟨k, rfl⟩ := Nat.exists_eq_add_of_le hpos
      have hshift : ∀ d : Decoration,
          (d.shift b.bodyStart).contains (b.bodyStart + k) ↔ d.contains k := by
        intro d
        simp only [Decoration.contains_iff, Decoration.shift_start, Decoration.shift_stop]
        omega
      have hbyte : k < Text.size w → (ofText t).byteAt (b.bodyStart + k) = Text.byteAt w k :=
        fun hk => hw.byteAt_eq hk
      have hlt : b.bodyStart + k < b.bodyStop ↔ k < Text.size w := by omega
      simp only [hshift]
      refine (hbytes k).trans ?_
      rw [hlt]
      constructor
      · rintro ⟨-, hk, hne⟩
        exact ⟨hpos, hk, by rwa [hbyte hk]⟩
      · rintro ⟨-, hk, hne⟩
        exact ⟨Nat.zero_le _, hk, by rwa [← hbyte hk]⟩
    · refine iff_of_false ?_ fun h => hpos h.1
      rintro ⟨d, -, hd⟩
      rw [Decoration.contains_iff, Decoration.shift_start] at hd
      omega

theorem map_slice_of_covers {ds : List Decoration} {toks : List Token}
    (h : List.Forall₂ (Placement.Covers t) ds toks) :
    (∀ d ∈ ds, t.isBoundary d.start ∧ t.isBoundary d.stop) ∧
      ds.map (fun d => (ofText t).slice (.between d.start d.stop)) = toks.map (·.text) := by
  induction h with
  | nil => exact ⟨by simp, rfl⟩
  | @cons d tok ds toks hd _ ih =>
    obtain ⟨hat, hstop⟩ := hd
    have hslice : (ofText t).slice (.between d.start d.stop) = tok.text := by
      rw [slice, hstop, Interval.between_lo, Interval.between_hi,
        min_eq_left (Nat.le_add_right _ _), max_eq_right (Nat.le_add_right _ _)]
      exact hat.slice_eq
    obtain ⟨x, y, rfl, hx⟩ := hat
    obtain ⟨hb, hmap⟩ := ih
    refine ⟨List.forall_mem_cons.2 ⟨⟨?_, ?_⟩, hb⟩, by
      rw [List.map_cons, hslice, hmap, List.map_cons]⟩
    · rw [← hx, List.append_assoc]
      exact Text.isBoundary_append _ _
    · rw [hstop, ← hx, ← Text.size_append]
      exact Text.isBoundary_append _ _

end Document

/-- Rendering a block in a loaded language and a bundled theme covers its body exactly: the
decorations follow one on another between character boundaries, none of them empty; they contain
each byte of the body once, except line breaks, and nothing else; and each lies on the text of its
token. -/
theorem Catalog.render_covers {d : Document} (hd : d.Made) {aliases : Aliases}
    {near : List Interval} {b : Block} (hb : b ∈ d.host.locate aliases near) {r : Registry}
    (hr : r.Made) (loader : Loader) {id : String}
    (hid : tokenizer.ready r b.language = some id) {theme : Theme}
    (htheme : theme ∈ Theme.bundled) :
    ∃ tokens, r.tokenize (d.slice b.body) id theme.id = .ok tokens ∧
      let ds := (Backend.render ⟨tokenizer, r, loader⟩ theme.id d.host b).1
      (∀ x ∈ ds, x.start < x.stop ∧ d.text.isBoundary x.start ∧ d.text.isBoundary x.stop) ∧
        ds.Pairwise (fun x y => x.stop ≤ y.start) ∧
        (∀ pos, (DecorationSet.covering ds pos).length =
          if b.bodyStart ≤ pos ∧ pos < b.bodyStop ∧ d.byteAt pos ≠ some 10 then 1 else 0) ∧
        ds.map (fun x => d.slice (.between x.start x.stop)) = tokens.flatten.map (·.text) := by
  obtain ⟨t, rfl⟩ : ∃ t, d = .ofText t := by
    rcases hd.eq_default_or_ofText with rfl | ht
    · simp [Document.locate_default] at hb
    · exact ht
  rw [Document.locate_eq] at hb
  have hb := (List.mem_filter.1 hb).1
  have hlt := (Document.block_bounds hb).2.1
  obtain ⟨tokens, htokens, hspell⟩ :=
    hr.tokenize_spells (Option.filter_eq_some_iff.1 hid).2 htheme ((Document.ofText t).slice b.body)
  refine ⟨tokens, htokens, ?_⟩
  intro ds
  have hds : ds = (Document.ofText t).host.place b tokens := by
    have hanswer : tokenizer.answer r theme.id b.language ((Document.ofText t).slice b.body) =
        some tokens := by
      unfold Tokenizer.answer
      rw [hid, Option.bind_some]
      exact congrArg Except.toOption htokens
    unfold ds
    rw [Backend.render_fst _ _ _ hlt, Document.paint, hanswer]
    rfl
  obtain ⟨hcovers, hbytes⟩ := Document.place_covers hb hspell
  obtain ⟨hboundary, hmap⟩ := Document.map_slice_of_covers hcovers
  obtain ⟨hwf, -⟩ := Document.place_wellFormed hb tokens
  rw [hds]
  refine ⟨fun x hx => ⟨(hwf.bounds x hx).1, hboundary x hx⟩, hwf.ordered, fun pos => ?_, hmap⟩
  rw [DecorationSet.length_covering hwf.ordered]
  simp only [hbytes]

/-- A block that is never closed, with a character of two bytes, an empty line and a line break at
the end. -/
def Document.openMarkdown : Document := .ofText "```md\n# \u00fc\n\n*a*\n".toList

theorem Catalog.render_covers_openMarkdown : ∃ r b, Registry.Made r ∧
    b ∈ Document.openMarkdown.host.locate .empty [.between 0 0] ∧
    tokenizer.ready r b.language = some "markdown" ∧
    [9, 10, 11, 14, 15].map (fun pos => (DecorationSet.covering
      (Backend.render ⟨tokenizer, r, {}⟩ Theme.dark.id Document.openMarkdown.host b).1
        pos).length) = [1, 0, 0, 1, 0] := by
  obtain ⟨g, hg⟩ := compile_markdown
  let r : Registry := (({} : Registry).load "markdown").1
  let b : Block := ⟨0, 6, 16, 16, "md", "md"⟩
  have hr : r.Made := .load .empty "markdown"
  have hb : b ∈ Document.openMarkdown.host.locate .empty [.between 0 0] := by
    have hlocate : Document.openMarkdown.host.locate .empty [.between 0 0] = [b] := by
      decide +kernel
    rw [hlocate]
    exact List.mem_singleton_self b
  have hid : tokenizer.ready r b.language = some "markdown" := by
    have hresolve : resolve "md" = some "markdown" := by decide
    have hload : r.isLoaded "markdown" := by
      simp only [r, Registry.load, hg]
      exact Registry.isLoaded_insert_self _ _ _
    have hready : tokenizer.ready r "md" = (resolve "md").filter r.isLoaded := rfl
    rw [show b.language = "md" from rfl, hready, hresolve, Option.filter_some, if_pos hload]
  have htheme : Theme.dark ∈ Theme.bundled := by simp [Theme.bundled]
  obtain ⟨tokens, -, -, -, hcount, -⟩ :=
    render_covers (d := Document.openMarkdown) (.ofText _) hb hr {} hid htheme
  refine ⟨r, b, hr, hb, hid, ?_⟩
  rw [List.map_congr_left fun pos _ => hcount pos]
  decide

end FencedCode
