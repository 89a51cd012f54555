import FencedCode.Proofs.Rendering
import Mathlib.Data.List.Chain

namespace FencedCode

namespace Placement

def worded (ls : List TokenLine) : List Token := ls.flatten.filter fun t => !t.text.isEmpty

/-- The decorations that tokens come to from an offset on. At each offset a line break may be
stepped over or the next token laid down, as far as there is room for it; behind `stop` nothing
is. -/
inductive Laid (byteAt : Nat → Option UInt8) (stop : Nat) :
    Nat → List Token → List Decoration → Prop where
  | done (cursor : Nat) : Laid byteAt stop cursor [] []
  | full {cursor : Nat} (h : stop ≤ cursor) (ts : List Token) : Laid byteAt stop cursor ts []
  | newline {cursor : Nat} {ts : List Token} {ds : List Decoration}
      (hb : byteAt cursor = some 10) (h : Laid byteAt stop (cursor + 1) ts ds) :
      Laid byteAt stop cursor ts ds
  | token {cursor : Nat} {t : Token} {ts : List Token} {ds : List Decoration} (hlt : cursor < stop)
      (h : Laid byteAt stop (min (cursor + Text.size t.text) stop) ts ds) :
      Laid byteAt stop cursor (t :: ts)
        (⟨cursor, min (cursor + Text.size t.text) stop, styleKey t.color t.font⟩ :: ds)

/-- The decoration is that of the token, cut off where the body ends. -/
structure Bears (stop : Nat) (t : Token) (d : Decoration) : Prop where
  style : d.style = styleKey t.color t.font
  stop_eq : d.stop = min (d.start + Text.size t.text) stop

variable {byteAt : Nat → Option UInt8} {stop cursor : Nat} {ts : List Token} {ds : List Decoration}

theorem Laid.eq_nil (h : Laid byteAt stop cursor ts ds) (hle : stop ≤ cursor) : ds = [] := by
  induction h with
  | done cursor => rfl
  | full h ts => rfl
  | newline hb h ih => exact ih (by omega)
  | token hlt h ih => omega

theorem Laid.line (l : TokenLine) (h : Laid byteAt stop (line stop cursor l).2 ts ds) :
    Laid byteAt stop cursor ((l.filter fun t => !t.text.isEmpty) ++ ts)
      ((Placement.line stop cursor l).1 ++ ds) := by
  induction l generalizing cursor with
  | nil => exact h
  | cons t l ih =>
    unfold Placement.line at h ⊢
    split_ifs at h ⊢ with hempty hfull
    · rw [List.filter_cons_of_neg (by simpa using hempty)]
      exact ih h
    · -- there is no room left, so nothing is laid down any more
      obtain rfl := h.eq_nil hfull
      exact .full hfull _
    · rw [List.filter_cons_of_pos (by simpa using hempty)]
      exact .token (not_le.1 hfull) (ih h)

theorem Laid.skipBreak (h : Laid byteAt stop (skipBreak byteAt stop cursor) ts ds) :
    Laid byteAt stop cursor ts ds := by
  unfold Placement.skipBreak at h
  split_ifs at h with hbreak
  · exact .newline hbreak.2 h
  · exact h

theorem laid_lines (byteAt : Nat → Option UInt8) (stop cursor : Nat) (ls : List TokenLine) :
    Laid byteAt stop cursor (worded ls) (lines byteAt stop cursor ls) := by
  induction ls generalizing cursor with
  | nil => exact .done cursor
  | cons l ls ih =>
    rw [worded, List.flatten_cons, List.filter_append]
    exact .line l (.skipBreak (ih _))

/-- Before the first decoration, and between any two that follow each other, there are only line
breaks. -/
theorem Laid.chain (h : Laid byteAt stop cursor ts ds) :
    (∀ d ∈ ds.head?, ∀ pos, cursor ≤ pos → pos < d.start → byteAt pos = some 10) ∧
      ds.IsChain fun d e => ∀ pos, d.stop ≤ pos → pos < e.start → byteAt pos = some 10 := by
  induction h with
  | done cursor => exact ⟨by simp, .nil⟩
  | full h ts => exact ⟨by simp, .nil⟩
  | newline hb h ih =>
    refine ⟨fun d hd pos hlo hhi => ?_, ih.2⟩
    rcases Nat.eq_or_lt_of_le hlo with rfl | hlt
    · exact hb
    · exact ih.1 d hd pos hlt hhi
  | token hlt h ih =>
    refine ⟨fun d hd pos hlo hhi => ?_, List.isChain_cons.2 ih⟩
    obtain rfl := Option.some.inj hd
    exact absurd hhi (not_lt.2 hlo)

/-- The decorations are those of the first tokens. If that leaves any token out, nothing but line
breaks is left of the body. -/
theorem Laid.exists_used (h : Laid byteAt stop cursor ts ds) :
    ∃ used rest, ts = used ++ rest ∧ List.Forall₂ (Bears stop) used ds ∧
      (rest ≠ [] → ∀ pos, cursor ≤ pos → pos < stop →
        (∃ d ∈ ds, d.contains pos) ∨ byteAt pos = some 10) := by
  induction h with
  | done cursor => exact ⟨[], [], rfl, .nil, by simp⟩
  | full h ts => exact ⟨[], ts, rfl, .nil, fun _ pos hlo hhi => by omega⟩
  | newline hb h ih =>
    obtain ⟨used, rest, hts, hbears, hall⟩ := ih
    refine ⟨used, rest, hts, hbears, fun hrest pos hlo hhi => ?_⟩
    rcases Nat.eq_or_lt_of_le hlo with rfl | hlt
    · exact .inr hb
    · exact hall hrest pos hlt hhi
  | @token cursor t _ ds hlt h ih =>
    obtain ⟨used, rest, hts, hbears, hall⟩ := ih
    refine ⟨t :: used, rest, by rw [hts, List.cons_append], .cons ⟨rfl, rfl⟩ hbears,
      fun hrest pos hlo hhi => ?_⟩
    by_cases hpos : pos < min (cursor + Text.size t.text) stop
    · exact .inl ⟨_, List.mem_cons_self, Decoration.contains_iff.2 ⟨hlo, hpos⟩⟩
    · refine (hall hrest pos (not_lt.1 hpos) hhi).imp_left ?_
      rintro ⟨d, hd, hcontains⟩
      exact ⟨d, List.mem_cons_of_mem _ hd, hcontains⟩

/-- A decoration that another one follows ends before the body does, so it is not cut off. -/
theorem Bears.forall_whole {used : List Token} (h : List.Forall₂ (Bears stop) used ds)
    (hp : ds.Pairwise fun d e => d.stop ≤ e.start)
    (hb : ∀ d ∈ ds, d.start < d.stop ∧ d.stop ≤ stop) :
    List.Forall₂ (fun t d => d.length = Text.size t.text) used.dropLast ds.dropLast := by
  induction h with
  | nil => exact .nil
  | @cons t d used ds hd hrest ih =>
    obtain ⟨hhead, htail⟩ := List.pairwise_cons.1 hp
    cases hrest with
    | nil => exact .nil
    | @cons u e _ _ he _ =>
      have hwhole : d.length = Text.size t.text := by
        have := hhead e List.mem_cons_self
        have := hb e (List.mem_cons_of_mem _ List.mem_cons_self)
        have := hd.stop_eq
        unfold Decoration.length
        omega
      exact .cons hwhole (ih htail fun x hx => hb x (List.mem_cons_of_mem _ hx))

end Placement

open Placement in
/-- Whatever tokens a block gets, and whoever shows the document, the decorations are not empty, lie
in the body and do not overlap. There are only line breaks before the first of them and between two
that follow each other. They are those of the first tokens that have a text, in order, each as long
as its token unless it is the last one and the body ends before. If any token is left out, then all
of the body has been used up, line breaks apart. -/
theorem Host.place_tolerates (h : Host) (b : Block) (tokens : List TokenLine) :
    let ds := h.place b tokens
    (∀ d ∈ ds, d.start < d.stop ∧ b.bodyStart ≤ d.start ∧ d.stop ≤ b.bodyStop) ∧
      ds.Pairwise (fun d e => d.stop ≤ e.start) ∧
      (∀ d ∈ ds.head?, ∀ pos, b.bodyStart ≤ pos → pos < d.start → h.byteAt pos = some 10) ∧
      ds.IsChain (fun d e => ∀ pos, d.stop ≤ pos → pos < e.start → h.byteAt pos = some 10) ∧
      ∃ used rest, worded tokens = used ++ rest ∧ List.Forall₂ (Bears b.bodyStop) used ds ∧
        List.Forall₂ (fun t d => d.length = Text.size t.text) used.dropLast ds.dropLast ∧
        (rest ≠ [] → ∀ pos, b.bodyStart ≤ pos → pos < b.bodyStop →
          (∃ d ∈ ds, d.contains pos) ∨ h.byteAt pos = some 10) := by
  intro ds
  have hlaid := laid_lines h.byteAt b.bodyStop b.bodyStart tokens
  have hspec : (∀ d ∈ ds, b.bodyStart ≤ d.start ∧ d.start < d.stop ∧ d.stop ≤ b.bodyStop) ∧
      ds.Pairwise fun d e => d.stop ≤ e.start := by
    rcases le_total b.bodyStart b.bodyStop with hle | hle
    · exact lines_spec h.byteAt tokens hle
    · have hnil : ds = [] := hlaid.eq_nil hle
      rw [hnil]
      exact ⟨by simp, .nil⟩
  obtain ⟨hbounds, hordered⟩ := hspec
  obtain ⟨hfirst, hchain⟩ := hlaid.chain
  obtain ⟨used, rest, hused, hbears, hall⟩ := hlaid.exists_used
  refine ⟨fun d hd => ?_, hordered, hfirst, hchain, used, rest, hused, hbears, ?_, hall⟩
  · obtain ⟨h1, h2, h3⟩ := hbounds d hd
    exact ⟨h2, h1, h3⟩
  · exact Bears.forall_whole hbears hordered fun d hd => (hbounds d hd).2

/-- A break of the document ends the first token line, and the last token that finds room is cut
off. -/
example : (Document.ofText "```\na\n\nbc".toList).host.place ⟨0, 4, 9, 9, "text", ""⟩
    [[⟨['a'], "#A", .plain⟩, ⟨[], "#A", .plain⟩], [],
      [⟨"bcd".toList, "#B", .plain⟩, ⟨['e'], "#A", .plain⟩]] =
    [⟨4, 5, "color: #A;"⟩, ⟨7, 9, "color: #B;"⟩] := by decide +kernel

end FencedCode
