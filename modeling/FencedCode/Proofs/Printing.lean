import FencedCode.Proofs.OnScreen

namespace FencedCode

namespace Text

/-- A text without control characters. -/
def Printable (t : Text) : Prop := ∀ c ∈ t, (width? c).isSome

/-- A text without control characters other than tabs. -/
def Tabbed (t : Text) : Prop := ∀ c ∈ t, c ≠ '\t' → (width? c).isSome

variable {s t : Text}

theorem isSome_width?_iff {c : Char} : (width? c).isSome ↔ isControl c = false := by
  unfold width?
  split_ifs with h <;> simp [h]

instance : DecidablePred Printable := fun t =>
  decidable_of_iff (t.all fun c => !isControl c) (by simp [Printable, isSome_width?_iff])

theorem printable_append : Printable (s ++ t) ↔ Printable s ∧ Printable t := List.forall_mem_append

theorem tabbed_cons {c : Char} :
    Tabbed (c :: t) ↔ (c ≠ '\t' → (width? c).isSome) ∧ Tabbed t := List.forall_mem_cons

theorem Printable.tabbed (h : Printable t) : Tabbed t := fun c hc _ => h c hc

theorem Tabbed.subset (h : Tabbed t) (hs : s ⊆ t) : Tabbed s := fun c hc => h c (hs hc)

/-- What is painted is printable if only its tabs are control characters, and these are expanded. -/
theorem printable_iff_tabbed (h : ∀ c ≠ ' ', c ∈ s ↔ c ∈ t ∧ c ≠ '\t') :
    Printable s ↔ Tabbed t := by
  have hspace : (width? ' ').isSome := by decide
  constructor
  · intro hs c hc htab
    by_cases hc' : c = ' '
    · exact hc' ▸ hspace
    · exact hs c ((h c hc').2 ⟨hc, htab⟩)
  · intro ht c hc
    by_cases hc' : c = ' '
    · exact hc' ▸ hspace
    · obtain ⟨hmem, htab⟩ := (h c hc').1 hc
      exact ht c hmem htab

theorem printable_toString (n : Nat) : Printable (toString n).toList := by
  intro c hc
  have hmem : c ∈ Nat.toDigits 10 n := by simpa [Nat.repr] using hc
  have hdigit := Nat.isDigit_of_mem_toDigits (by decide) (by decide) hmem
  have hrange : 48 ≤ c.toNat ∧ c.toNat ≤ 57 := by
    simpa [Char.isDigit, UInt32.le_iff_toNat_le] using hdigit
  rw [isSome_width?_iff]
  simp only [isControl, Bool.or_eq_false_iff, Bool.and_eq_false_iff, decide_eq_false_iff_not]
  omega

end Text

namespace Columns

variable {width : Char → Nat} {limit col : Nat}

theorem taken_subset (limit col : Nat) (t : Text) : taken width limit col t ⊆ t := by
  induction t generalizing col with
  | nil => exact List.Subset.refl _
  | cons c t ih =>
    unfold taken
    split_ifs
    · exact List.cons_subset_cons c (ih _)
    · exact List.nil_subset _

theorem printable_fit_iff (limit col : Nat) (t : Text) :
    Text.Printable (fit width limit col t).1 ↔ Text.Tabbed (taken width limit col t) :=
  Text.printable_iff_tabbed fun _ hc => mem_fit_iff hc limit col t

theorem tabbed_taken_append {s t : Text} (ht : Text.Printable t) :
    Text.Tabbed (taken width limit col (s ++ t)) ↔ Text.Tabbed (taken width limit col s) := by
  induction s generalizing col with
  | nil => exact iff_of_true (ht.tabbed.subset (taken_subset _ _ t)) (by simp [taken, Text.Tabbed])
  | cons c s ih =>
    rw [List.cons_append, taken, taken]
    split_ifs
    · rw [Text.tabbed_cons, Text.tabbed_cons, ih]
    · exact Iff.rfl

end Columns

namespace Row

open Columns

variable {width : Char → Nat} {cols col : Nat} {base : Base}

def taken (width : Char → Nat) (cols : Nat) : Nat → List Run → Text
  | _, [] => []
  | col, r :: rs =>
    Columns.taken width cols col r.text ++
      if cols ≤ (fit width cols col r.text).2 then []
      else taken width cols (fit width cols col r.text).2 rs

theorem taken_subset (width : Char → Nat) (cols col : Nat) (rs : List Run) :
    taken width cols col rs ⊆ rs.flatMap Run.text := by
  induction rs generalizing col with
  | nil => exact List.Subset.refl _
  | cons r rs ih =>
    rw [taken, List.flatMap_cons]
    refine List.append_subset.2 ⟨?_, ?_⟩
    · exact List.subset_append_of_subset_left _ (Columns.taken_subset _ _ _)
    · split_ifs
      · exact List.nil_subset _
      · exact List.subset_append_of_subset_right _ (ih _)

theorem taken_ofLine_subset (cols start : Nat) (line : Text) (ds : List Decoration) :
    taken width cols 0 (Run.ofLine start line ds) ⊆ line := by
  have hsubset := taken_subset width cols 0 (Run.ofLine start line ds)
  rwa [Run.flatMap_ofLine] at hsubset

theorem mem_content_iff {c : Char} (hc : c ≠ ' ') (col : Nat) (rs : List Run) :
    c ∈ (ofRuns width cols base col rs).content ↔ c ∈ taken width cols col rs ∧ c ≠ '\t' := by
  induction rs generalizing col with
  | nil => simp [ofRuns, taken, content]
  | cons r rs ih =>
    rw [content_ofRuns_cons, taken, List.mem_append, List.mem_append, mem_fit_iff hc, or_and_right]
    split_ifs
    · simp
    · rw [ih]

theorem printable_ofLine_iff (cols : Nat) (base : Base) (start : Nat) (line : Text)
    (ds : List Decoration) :
    Text.Printable (ofLine width cols base start line ds).content ↔
      Text.Tabbed (taken width cols 0 (Run.ofLine start line ds)) := by
  rw [content_ofLine]
  exact Text.printable_iff_tabbed fun _ hc => mem_content_iff hc 0 _

theorem printable_status_iff (cols : Nat) (message : Text) :
    Text.Printable (status width cols message).content ↔
      Text.Tabbed (Columns.taken width cols 0 message) := by
  have hspaces : ∀ n, Text.Printable (List.replicate n ' ') := fun n c hc => by
    rw [List.eq_of_mem_replicate hc]
    decide
  simp only [status, content, List.flatMap_singleton, Piece.content]
  rw [Text.printable_append, and_iff_left (hspaces _), printable_fit_iff]

end Row

namespace Pager

open Columns

variable {p : Pager} {t : Text} {name : String}

theorem Shows.statusText (h : p.Shows t name) :
    ∃ rest, p.statusText.toList = ' ' :: name.toList ++ rest ∧ Text.Printable rest := by
  have htheme : ∀ theme ∈ Theme.bundled.map Theme.id, Text.Printable theme.toList := by decide
  unfold Pager.statusText
  dsimp only
  rw [h.name]
  simp only [String.toList_append, List.append_assoc]
  refine ⟨_, rfl, ?_⟩
  simp only [Text.printable_append]
  refine ⟨by decide, htheme _ h.theme, by decide, Text.printable_toString _, by decide,
    Text.printable_toString _, by decide, Text.printable_toString _, ?_, ?_⟩
  · split_ifs
    · rw [String.toList_append, Text.printable_append]
      exact ⟨by decide, Text.printable_toString _⟩
    · decide
  · cases hm : p.message with
    | none => decide
    | some m =>
      obtain ⟨theme, hmem, rfl⟩ := h.message m hm
      simp only [String.toList_append, Text.printable_append]
      exact ⟨by decide, by decide, htheme theme hmem⟩

/-- What is on the screen is printable if only tabs enter the rows, be it from the name on the
status line or from the lines above. -/
theorem Shows.printable_view_iff (h : p.Shows t name) :
    (∀ r ∈ p.view, Text.Printable r.2.content) ↔
      Text.Tabbed (taken Text.width p.size.cols 0 (' ' :: name.toList)) ∧
      ∀ row < p.size.bodyRows, ∀ l ∈ p.document.line? (p.top + row),
        Text.Tabbed (Row.taken Text.width p.size.cols 0 (Run.ofLine l.start l.text
          (p.highlighter.decorations.inRange (.between l.start l.stop)))) := by
  obtain ⟨rest, hrest, hprintable⟩ := h.statusText
  have hfiller : Text.Printable Row.filler.content := by decide
  rw [forall_view (P := fun r => Text.Printable r.content), Row.printable_status_iff, hrest,
    tabbed_taken_append hprintable, and_comm]
  refine and_congr_right fun _ => forall_congr' fun row => imp_congr_right fun _ => ?_
  rw [and_iff_left fun _ => hfiller]
  exact forall_congr' fun l => imp_congr_right fun _ => Row.printable_ofLine_iff _ _ _ _ _

/-- A text with no control characters but tabs and line breaks is painted in printable text, under a
printable name. -/
theorem Shows.printable_view (h : p.Shows t name) (hname : Text.Printable name.toList)
    (ht : ∀ l ∈ (Document.ofText t).lines, Text.Tabbed l.text) :
    ∀ r ∈ p.view, Text.Printable r.2.content := by
  have hstatus : Text.Tabbed (' ' :: name.toList) :=
    Text.tabbed_cons.2 ⟨fun _ => by decide, hname.tabbed⟩
  refine h.printable_view_iff.2 ⟨hstatus.subset (taken_subset _ _ _), fun row _ l hl => ?_⟩
  rw [h.document] at hl
  exact (ht l (List.mem_of_getElem? hl)).subset (Row.taken_ofLine_subset _ _ _ _)

/-- Which control characters the pager paints, whatever has happened to it. What is fitted into the
columns of a row is printable if the part of the text that enters has no control characters but
tabs. So what is on the screen is printable if this holds of the name of the file on the status line
and of the lines on the other rows. -/
theorem view_printable_iff {f : FileState} {path : String} {config : Config} {size : Size}
    {p₀ p : Pager} (h₀ : ofFile f path config size = .ok p₀)
    (hp : Relation.ReflTransGen Turn p₀.start p) :
    (∀ (limit col : Nat) (t : Text), Text.Printable (fit Text.width limit col t).1 ↔
      Text.Tabbed (taken Text.width limit col t)) ∧
    ((∀ r ∈ p.view, Text.Printable r.2.content) ↔
      Text.Tabbed (taken Text.width p.size.cols 0 (' ' :: (baseName path).toList)) ∧
      ∀ row < p.size.bodyRows, ∀ l ∈ p.document.line? (p.top + row),
        Text.Tabbed (Row.taken Text.width p.size.cols 0 (Run.ofLine l.start l.text
          (p.highlighter.decorations.inRange (.between l.start l.stop))))) := by
  obtain ⟨t, -, hstart⟩ := full_start h₀
  exact ⟨printable_fit_iff, (hstart.turns hp).printable_view_iff⟩

def dos : Pager :=
  { notes with document := .ofText "a\r\n".toList, name := baseName "dos.txt" }

theorem ofFile_dos : ofFile (.file "dos.txt" "a\r\n".toUTF8) "dos.txt" {} ⟨20, 3⟩ = .ok dos := by
  rw [ofFile, FileState.readText_file]
  rfl

theorem view_printable_iff_dos : ¬ (∀ r ∈ dos.start.view, Text.Printable r.2.content) ∧
    ¬ Text.Printable (fit Text.width 10 0 "a\rb".toList).1 := by
  obtain ⟨hfit, hview⟩ := view_printable_iff ofFile_dos .refl
  have hreturn : ¬ (Text.width? '\r').isSome := by decide
  constructor
  · intro h
    have hdecorations : dos.start.highlighter.decorations = [] := by decide +kernel
    have hline := (hview.1 h).2 0 (by decide) ⟨0, 0, 2, "a\r".toList⟩ (by decide)
    rw [hdecorations] at hline
    exact hreturn (hline '\r' (by decide +kernel) (by decide))
  · intro h
    exact hreturn ((hfit 10 0 _).1 h '\r' (by decide) (by decide))

end Pager

end FencedCode
