import FencedCode.Catalog
import FencedCode.Proofs.Spans

namespace FencedCode

/-- Tokens spell a line: none of them is empty, and together they have its text. -/
def Token.Spell (line : Text) (ts : TokenLine) : Prop :=
  (∀ tok ∈ ts, tok.text ≠ []) ∧ ts.flatMap (·.text) = line

namespace Span

/-- The spans that cover a line from a place on cut what follows into pieces. -/
theorem Tile.flatMap_slice {t x z : Text} (ht : t = x ++ z) {ss : List Span}
    (h : Tile t (Text.size x) (Text.size t) ss) :
    (∀ s ∈ ss, Text.slice t s.start s.stop ≠ []) ∧
      ss.flatMap (fun s => Text.slice t s.start s.stop) = z := by
  induction ss generalizing x z with
  | nil =>
    have hsize : Text.size x = Text.size t := h
    rw [ht, Text.size_append] at hsize
    exact ⟨by simp, (Text.eq_nil_of_size_eq_zero (by omega)).symm⟩
  | cons s ss ih =>
    obtain ⟨hstart, hlt, -, hstop, hrest⟩ := h
    obtain ⟨x', z', ht', hx'⟩ := Text.isBoundary_iff.1 hstop
    obtain ⟨w, rfl, rfl⟩ := Text.append_eq_append_of_size_le (ht.symm.trans ht') (by omega)
    have hslice : Text.slice t s.start s.stop = w := by
      rw [hstart, ← hx', Text.size_append]
      exact Text.At.slice_eq ⟨x, z', by rw [ht'], rfl⟩
    obtain ⟨hne, hflat⟩ := ih ht' (hx' ▸ hrest)
    refine ⟨List.forall_mem_cons.2 ⟨?_, hne⟩, by rw [List.flatMap_cons, hslice, hflat]⟩
    rintro hnil
    rw [hslice] at hnil
    subst hnil
    simp only [Text.size_append, Text.size] at hx'
    omega

end Span

namespace Catalog

inductive Registry.Made : Registry → Prop
  | empty : Made {}
  | load {r : Registry} (h : Made r) (id : String) : Made (r.load id).1
  | preload {r r' : Registry} (h : Made r) {language : String}
      (hl : r.preload language = .ok r') : Made r'

theorem exists_source {id : String} {g : Grammar} (h : compile id = .ok g) :
    ∃ s ∈ sources, s.compile = .ok g := by
  unfold compile at h
  cases hl : grammars.lookup id with
  | none => simp [hl] at h
  | some e =>
    obtain ⟨as, bs, hg, -⟩ := List.lookup_eq_some_iff.1 hl
    have hmem : (id, e) ∈ grammars := by simp [hg]
    obtain ⟨s, hs, he⟩ := List.mem_map.1 hmem
    rw [hl, Option.getD_some] at h
    exact ⟨s, hs, (Prod.mk.inj he).2.trans h⟩

end Catalog

theorem exists_of_mem_mapM {α β ε : Type} {f : α → Except ε β} {xs : List α} {ys : List β}
    (h : xs.mapM f = .ok ys) {y : β} (hy : y ∈ ys) : ∃ x ∈ xs, f x = .ok y := by
  induction xs generalizing ys with
  | nil =>
    obtain rfl : [] = ys := Except.ok.inj h
    simp at hy
  | cons x xs ih =>
    rw [List.mapM_cons] at h
    cases hx : f x with
    | error e => simp [hx, bind, Except.bind] at h
    | ok z =>
      cases hxs : xs.mapM f with
      | error e => simp [hx, hxs, bind, Except.bind] at h
      | ok zs =>
        obtain rfl : z :: zs = ys := by
          simpa [hx, hxs, bind, Except.bind, pure, Except.pure] using h
        rcases List.mem_cons.1 hy with rfl | hy
        · exact ⟨x, List.mem_cons_self, hx⟩
        · obtain ⟨w, hw, hfw⟩ := ih hxs hy
          exact ⟨w, List.mem_cons_of_mem _ hw, hfw⟩

namespace Grammar

theorem multilines_foldl_addPattern (rs : List PatternRule) (g : Grammar) :
    (rs.foldl addPattern g).multilines = g.multilines := by
  induction rs generalizing g with
  | nil => rfl
  | cons r rs ih => exact ih (g.addPattern r)

theorem multilines_foldl_addMultiline (rs : List MultilineRule) (g : Grammar) :
    (rs.foldl addMultiline g).multilines = g.multilines ++ rs := by
  induction rs generalizing g with
  | nil => simp
  | cons r rs ih => simp [ih, addMultiline]

end Grammar

theorem GrammarSource.exists_multiline {s : GrammarSource} {g : Grammar} (h : s.compile = .ok g)
    {r : MultilineRule} (hr : r ∈ g.multilines) : ∃ m ∈ s.multilines, m.compile = .ok r := by
  unfold compile at h
  cases hm : s.multilines.mapM (·.compile) with
  | error e => simp [hm, bind, Except.bind] at h
  | ok ms =>
    cases hp : s.patterns.mapM (·.compile) with
    | error e => simp [hm, hp, bind, Except.bind] at h
    | ok ps =>
      obtain rfl : ps.foldl .addPattern (ms.foldl .addMultiline { id := s.id }) = g := by
        simpa [hm, hp, bind, Except.bind, pure, Except.pure] using h
      rw [Grammar.multilines_foldl_addPattern, Grammar.multilines_foldl_addMultiline] at hr
      exact exists_of_mem_mapM hm (by simpa using hr)

theorem MultilineSource.compile_eq_ok {m : MultilineSource} {r : MultilineRule}
    (h : m.compile = .ok r) :
    Pattern.compile m.opener = .ok r.opener ∧ Pattern.compile m.closer = .ok r.closer ∧
      r.escape = m.escape := by
  unfold compile at h
  cases ho : Pattern.compile m.opener with
  | error e => simp [ho, bind, Except.bind] at h
  | ok a =>
    cases hc : Pattern.compile m.closer with
    | error e => simp [ho, hc, bind, Except.bind] at h
    | ok b =>
      simp only [ho, hc, bind, Except.bind, pure, Except.pure, Except.ok.injEq] at h
      rw [← h]
      exact ⟨rfl, rfl, rfl⟩

theorem MultilineSource.exists_opener {m : MultilineSource} {r : MultilineRule}
    (h : m.compile = .ok r) :
    ∃ p, Pattern.wellFormed? m.opener.toList = some p ∧ r.opener = p.automaton := by
  have hopener := (compile_eq_ok h).1
  unfold Pattern.compile at hopener
  split at hopener
  · rename_i p hp
    exact ⟨p, (Option.filter_eq_some_iff.1 hp).1, (Except.ok.inj hopener).symm⟩
  · cases hopener

namespace Theme

theorem find?_id {theme : Theme} (h : theme ∈ bundled) : find? theme.id = some theme := by
  simp only [bundled, List.mem_cons, List.not_mem_nil, or_false] at h
  rcases h with rfl | rfl | rfl
  · rfl
  · rfl
  · rfl

theorem after_mem (id : String) : after id ∈ bundled := by
  unfold after
  split
  · rename_i a next rest heq
    have hmem : next ∈ bundled.dropWhile fun t => t.id != id := by simp [heq]
    exact (List.dropWhile_sublist _).subset hmem
  · exact List.mem_cons_self

end Theme

namespace Catalog

/-- The opening patterns of the bundled grammars need a character each. -/
theorem openers_consume : ∀ s ∈ sources, ∀ m ∈ s.multilines,
    ∀ p ∈ Pattern.wellFormed? m.opener.toList,
      p.automaton.consumesFrom (Array.size p.automaton) 0 := by
  decide +kernel

theorem consumes_of_compile {id : String} {g : Grammar} (h : compile id = .ok g) :
    g.Consumes := by
  obtain ⟨s, hs, hcompile⟩ := exists_source h
  intro r hr
  obtain ⟨m, hm, hrule⟩ := GrammarSource.exists_multiline hcompile hr
  obtain ⟨p, hp, hopener⟩ := m.exists_opener hrule
  rw [hopener]
  exact ⟨_, openers_consume s hs m hm p hp⟩

namespace Registry

variable {r : Registry}

theorem lookup_insert {id : String} {g : Grammar}
    (hr : ∀ i g, r.grammars.lookup i = some g → compile i = .ok g) (hg : compile id = .ok g) :
    ∀ i g', (r.insert id g).grammars.lookup i = some g' → compile i = .ok g' := by
  intro i g' h
  unfold insert at h
  rw [List.lookup_cons] at h
  split at h
  · rename_i heq
    rw [beq_iff_eq.1 heq, ← Option.some.inj h, hg]
  · exact hr i g' h

theorem Made.compile_eq (hr : r.Made) {id : String} {g : Grammar}
    (h : r.grammars.lookup id = some g) : compile id = .ok g := by
  induction hr generalizing id g with
  | empty => simp at h
  | @load r hr i ih =>
    unfold Registry.load at h
    split at h
    · rename_i g' hg
      exact lookup_insert (fun _ _ => ih) hg _ _ h
    · exact ih h
  | @preload r r' hr language hl ih =>
    unfold Registry.preload at hl
    split at hl
    · cases hl
    · rename_i i hi
      split_ifs at hl
      · exact ih (Except.ok.inj hl ▸ h)
      · cases hg : compile i with
        | error e => simp [hg, Except.map] at hl
        | ok g' =>
          obtain rfl : r.insert i g' = r' := by simpa [hg, Except.map] using hl
          exact lookup_insert (fun _ _ => ih) hg _ _ h

theorem plainLines_spell (theme : Theme) (code : Text) :
    List.Forall₂ Token.Spell (Text.lines code) (plainLines theme code) := by
  unfold plainLines
  rw [List.forall₂_map_right_iff, List.forall₂_same]
  intro line _
  split_ifs with h
  · exact ⟨by simp, by simpa using h⟩
  · simpa [Token.Spell] using h

theorem token_spell (theme : Theme) {line : Text} {ss : List Span}
    (h : Span.Tile line 0 (Text.size line) ss) : Token.Spell line (ss.map (token theme line)) := by
  obtain ⟨hne, hflat⟩ := Span.Tile.flatMap_slice (x := []) (List.nil_append line).symm h
  constructor
  · intro tok htok
    obtain ⟨s, hs, rfl⟩ := List.mem_map.1 htok
    exact hne s hs
  · rw [List.flatMap_map]
    exact hflat

/-- Tokenizing a loaded language in a bundled theme spells the code. -/
theorem Made.tokenize_spells (hr : r.Made) {id : String} (hid : r.isLoaded id) {theme : Theme}
    (htheme : theme ∈ Theme.bundled) (code : Text) :
    ∃ lines, r.tokenize code id theme.id = .ok lines ∧
      List.Forall₂ Token.Spell (Text.lines code) lines := by
  unfold tokenize
  rw [Theme.find?_id htheme]
  dsimp only
  split_ifs with hplain
  · exact ⟨_, rfl, plainLines_spell theme code⟩
  · obtain ⟨g, hg⟩ : ∃ g, r.grammars.lookup id = some g := by
      simpa [isLoaded, hplain, Option.isSome_iff_exists] using hid
    obtain ⟨results, hlines, htile⟩ :=
      (consumes_of_compile (hr.compile_eq hg)).highlightLines_spec {} (Text.lines code)
    refine ⟨_, by rw [hg]; dsimp only; rw [hlines], ?_⟩
    clear hlines
    generalize Text.lines code = lines at htile
    induction htile with
    | nil => exact .nil
    | cons hline _ ih => exact .cons (token_spell theme hline) ih

end Registry

end Catalog

end FencedCode
