import FencedCode.Proofs.Clipping
import FencedCode.Proofs.Screens
import FencedCode.Proofs.Turns

namespace FencedCode

namespace Row

open Columns

variable {width : Char → Nat} {cols col : Nat} {base : Base}

theorem breadth_ofRuns_le (hspace : width ' ' = 1) (hcol : col ≤ cols) (rs : List Run) :
    col + breadth width (ofRuns width cols base col rs).content ≤ cols := by
  induction rs generalizing col with
  | nil => exact hcol
  | cons r rs ih =>
    obtain ⟨hcount, hle⟩ := fit_snd hspace hcol r.text
    have hrest := ih hle
    rw [content_ofRuns_cons, breadth_append]
    split_ifs
    · rw [breadth_nil]
      omega
    · omega

theorem breadth_ofLine_le (hspace : width ' ' = 1) (cols : Nat) (base : Base) (start : Nat)
    (line : Text) (ds : List Decoration) :
    breadth width (ofLine width cols base start line ds).content ≤ cols := by
  have hruns : 0 + breadth width (ofRuns width cols base 0 (Run.ofLine start line ds)).content ≤
      cols := breadth_ofRuns_le hspace (Nat.zero_le cols) _
  rwa [Nat.zero_add, ← content_ofLine] at hruns

theorem breadth_status (hspace : width ' ' = 1) (cols : Nat) (message : Text) :
    breadth width (status width cols message).content = cols := by
  obtain ⟨hcount, hle⟩ := fit_snd hspace (Nat.zero_le cols) message
  simp only [status, content, List.flatMap_singleton, Piece.content]
  rw [breadth_append, breadth_spaces hspace]
  omega

end Row

namespace Pager

open Columns

theorem map_fst_view (p : Pager) : p.view.map Prod.fst = List.range (p.size.bodyRows + 1) := by
  have hlength : p.body.length = p.size.bodyRows := by simp [body]
  rw [view, List.map_map]
  have hsnd : ∀ rows : List Row, rows.zipIdx.map (Prod.fst ∘ fun r => (r.2, r.1)) =
      List.range rows.length := fun rows => by
    rw [List.range_eq_range']
    exact List.zipIdx_map_snd 0 rows
  rw [hsnd, List.length_append, hlength, List.length_singleton]

theorem map_snd_view (p : Pager) : p.view.map Prod.snd =
    p.body ++ [Row.status Text.width p.size.cols p.statusText.toList] := by
  rw [view, List.map_map]
  exact List.zipIdx_map_fst 0 _

theorem getLast?_view (p : Pager) : p.view.getLast? =
    some (p.size.bodyRows, Row.status Text.width p.size.cols p.statusText.toList) := by
  have hlength : p.body.length = p.size.bodyRows := by simp [body]
  rw [view, List.zipIdx_append, List.map_append]
  simp [hlength]

/-- What holds of all rows holds of the lines on them, of the filler if there is room below the
text, and of the status line. -/
theorem forall_view {p : Pager} {P : Row → Prop} : (∀ r ∈ p.view, P r.2) ↔
    (∀ row < p.size.bodyRows,
      (∀ l ∈ p.document.line? (p.top + row),
        P (p.lineRow (p.document.host.locate p.highlighter.aliases [p.viewport]) l)) ∧
      (p.document.line? (p.top + row) = none → P Row.filler)) ∧
    P (Row.status Text.width p.size.cols p.statusText.toList) := by
  have hrows : (∀ r ∈ p.view, P r.2) ↔ ∀ r ∈ p.view.map Prod.snd, P r :=
    List.forall_mem_map.symm
  rw [hrows, map_snd_view, List.forall_mem_append, List.forall_mem_singleton, body,
    List.forall_mem_map]
  refine and_congr_left fun _ => forall_congr' fun row => ?_
  rw [List.mem_range]
  refine imp_congr_right fun _ => ?_
  cases p.document.line? (p.top + row) with
  | none => simp
  | some l => simp

theorem rows_lt_iff (p : Pager) : (∀ r ∈ p.view, r.1 < p.size.rows) ↔ 1 < p.size.rows := by
  have hrows : (∀ r ∈ p.view, r.1 < p.size.rows) ↔
      ∀ row ∈ p.view.map Prod.fst, row < p.size.rows := by simp
  rw [hrows, map_fst_view, Size.bodyRows]
  simp only [List.mem_range]
  constructor
  · intro h
    have hstatus := h (max (p.size.rows - 1) 1) (Nat.lt_succ_self _)
    omega
  · intro h row hrow
    omega

variable {p : Pager} {t : Text} {name : String}

theorem Full.exists_filler_iff (h : p.Full t name) :
    (∃ row < p.size.bodyRows, p.document.line? (p.top + row) = none) ↔
      p.document.lineCount < p.size.bodyRows := by
  have hnone : ∀ i, p.document.line? i = none ↔ p.document.lineCount ≤ i := by
    rw [h.document]
    exact Document.line?_eq_none_iff t
  have htop : p.top ≤ p.document.lineCount - p.size.bodyRows := h.document ▸ h.top_le
  simp only [hnone]
  constructor
  · rintro ⟨row, hrow, hle⟩
    omega
  · intro hlt
    exact ⟨p.document.lineCount, hlt, Nat.le_add_left _ _⟩

theorem Full.breadth_le_iff (h : p.Full t name) :
    (∀ r ∈ p.view, breadth Text.width r.2.content ≤ p.size.cols) ↔
      0 < p.size.cols ∨ p.size.bodyRows ≤ p.document.lineCount := by
  have hspace : Text.width ' ' = 1 := by decide
  have hfiller : breadth Text.width Row.filler.content = 1 := by decide
  rw [forall_view (P := fun r => breadth Text.width r.content ≤ p.size.cols), hfiller,
    Row.breadth_status hspace, and_iff_left le_rfl, ← not_lt (a := p.document.lineCount),
    ← h.exists_filler_iff]
  constructor
  · intro hrows
    refine or_iff_not_imp_right.2 fun hno => ?_
    obtain ⟨row, hrow, hnone⟩ := not_not.1 hno
    exact (hrows row hrow).2 hnone
  · intro hcols row hrow
    refine ⟨fun l _ => Row.breadth_ofLine_le hspace _ _ _ _ _, fun hnone => ?_⟩
    exact hcols.resolve_right fun hno => hno ⟨row, hrow, hnone⟩

/-- What a pager paints stays on the screen, whatever has happened to it. The rows down to the
status line are painted, each of them once and the status line below the others; they are on the
screen if it has more than one row. None of them takes more columns than there are unless there are
none at all, and rows are left below the text. -/
theorem view_onScreen {f : FileState} {path : String} {config : Config} {size : Size}
    {p₀ p : Pager} (h₀ : ofFile f path config size = .ok p₀)
    (hp : Relation.ReflTransGen Turn p₀.start p) :
    p.view.map Prod.fst = List.range (p.size.bodyRows + 1) ∧
      p.view.getLast? =
        some (p.size.bodyRows, Row.status Text.width p.size.cols p.statusText.toList) ∧
      ((∀ r ∈ p.view, r.1 < p.size.rows) ↔ 1 < p.size.rows) ∧
      ((∀ r ∈ p.view, breadth Text.width r.2.content ≤ p.size.cols) ↔
        0 < p.size.cols ∨ p.size.bodyRows ≤ p.document.lineCount) := by
  obtain ⟨t, -, hstart⟩ := full_start h₀
  exact ⟨p.map_fst_view, p.getLast?_view, p.rows_lt_iff, (hstart.turns hp).breadth_le_iff⟩

/-- On a terminal that has shrunk to one row the status line is painted below the screen, and on one
without columns the filler is painted beside it. -/
theorem view_onScreen_shrunk :
    (∃ p, notes.start.handle (.resize ⟨20, 1⟩) = some p ∧
      p.size = ⟨20, 1⟩ ∧ ¬ ∀ r ∈ p.view, r.1 < 1) ∧
    ∃ p, notes.start.handle (.resize ⟨0, 8⟩) = some p ∧
      p.size = ⟨0, 8⟩ ∧ ¬ ∀ r ∈ p.view, breadth Text.width r.2.content ≤ 0 := by
  refine ⟨⟨_, rfl, rfl, fun h => ?_⟩, ⟨_, rfl, rfl, fun h => ?_⟩⟩
  · obtain ⟨-, -, hrows, -⟩ := view_onScreen ofFile_notes (.single (.input (.resize ⟨20, 1⟩) rfl))
    exact absurd (hrows.1 h) (by decide)
  · obtain ⟨-, -, -, hcols⟩ := view_onScreen ofFile_notes (.single (.input (.resize ⟨0, 8⟩) rfl))
    have hlines : notes.document.lineCount = 5 := by decide
    rcases hcols.1 h with hcols | hrows
    · exact absurd hcols (by decide)
    · have hle : 7 ≤ notes.document.lineCount := hrows
      rw [hlines] at hle
      exact absurd hle (by decide)

end Pager

end FencedCode
