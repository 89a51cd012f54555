import FencedCode.Fence
import Mathlib.Data.List.DropRight
import Mathlib.Data.List.TakeWhile

namespace FencedCode

namespace Text

/-- A text consists of the longest run at its start of characters with a property, and a rest. -/
structure LongestRun (p : Char → Bool) (t run rest : Text) : Prop where
  append : run ++ rest = t
  all : ∀ c ∈ run, p c
  longest : ∀ w, w <+: t → (∀ c ∈ w, p c) → w <+: run

variable {p : Char → Bool} {t x run rest : Text}

theorem longestRun_takeWhile (p : Char → Bool) (t : Text) :
    LongestRun p t (t.takeWhile p) (t.dropWhile p) where
  append := List.takeWhile_append_dropWhile
  all _ := List.mem_takeWhile_imp
  longest := by
    rintro w ⟨rest, rfl⟩ hw
    rw [List.takeWhile_append_of_pos hw]
    exact List.prefix_append _ _

theorem longestRun_iff : LongestRun p t run rest ↔ run = t.takeWhile p ∧ rest = t.dropWhile p := by
  have htake := longestRun_takeWhile p t
  refine ⟨fun h => ?_, fun ⟨hrun, hrest⟩ => hrun ▸ hrest ▸ htake⟩
  have hrun : run = t.takeWhile p := by
    apply List.IsPrefix.eq_of_length_le
    · exact htake.longest run ⟨rest, h.append⟩ h.all
    · exact (h.longest _ ⟨_, htake.append⟩ htake.all).length_le
  refine ⟨hrun, ?_⟩
  apply List.append_cancel_left
  rw [htake.append, ← hrun, h.append]

theorem LongestRun.head?_rest (h : LongestRun p t run rest) {c : Char} (hc : rest.head? = some c) :
    ¬ p c := by
  intro hp
  obtain ⟨rest, rfl⟩ := List.head?_eq_some_iff.1 hc
  have hlonger : run ++ [c] <+: run := by
    apply h.longest
    · exact ⟨rest, by rw [← h.append, List.append_assoc, List.singleton_append]⟩
    · intro d hd
      rcases List.mem_append.1 hd with hd | hd
      · exact h.all d hd
      · rwa [List.mem_singleton.1 hd]
  have := hlonger.length_le
  rw [List.length_append, List.length_singleton] at this
  omega

/-- Trimming the end of a text does not reach what stands at its start and is no white space. -/
theorem isPrefix_trimEnd (hx : ∀ c ∈ x, ¬ isBlank c) : x <+: trimEnd t ↔ x <+: t := by
  have htrim : trimEnd t ++ t.rtakeWhile isBlank = t := List.rdropWhile_append_rtakeWhile
  have hprefix : trimEnd t <+: t := ⟨_, htrim⟩
  refine ⟨fun h => h.trans hprefix, fun h => ?_⟩
  rcases List.prefix_or_prefix_of_prefix h hprefix with h' | ⟨y, rfl⟩
  · exact h'
  · -- what is not left of the start would be white space
    obtain ⟨z, hz⟩ := h
    have hyz : y ++ z = t.rtakeWhile isBlank := by
      apply List.append_cancel_left
      rw [htrim, ← List.append_assoc, hz]
    have hy : y = [] := by
      refine List.eq_nil_iff_forall_not_mem.2 fun c hc => ?_
      apply hx c (List.mem_append_right _ hc)
      exact List.mem_rtakeWhile_imp (hyz ▸ List.mem_append_left z hc)
    simp [hy]

end Text

namespace Fence

theorem isBlank_tick : Text.isBlank tick = false := by decide

/-- A line that starts with ticks, three or more, and has behind them the tag, which the next white
space or the end of the line ends. -/
def Tagged (line tag : Text) : Prop :=
  ∃ ticks rest behind, Text.LongestRun (· == tick) line ticks rest ∧ 3 ≤ ticks.length ∧
    Text.LongestRun (fun c => !Text.isBlank c) rest tag behind

variable {line tag : Text}

theorem tag?_eq_some_iff : tag? line = some tag ↔ Tagged line tag := by
  simp only [tag?, Tagged, Text.longestRun_iff]
  split_ifs with h
  · simp [h, eq_comm]
  · simp [h]

theorem Tagged.head?_ne (h : Tagged line tag) : tag.head? ≠ some tick := by
  obtain ⟨ticks, rest, behind, hticks, -, htag⟩ := h
  intro hhead
  apply hticks.head?_rest (c := tick)
  · rw [← htag.append, List.head?_append, hhead, Option.some_or]
  · exact beq_self_eq_true tick

theorem isSome_tag?_iff : (tag? line).isSome ↔ [tick, tick, tick] <+: line := by
  have hrun := Text.longestRun_takeWhile (· == tick) line
  simp only [tag?, Option.isSome_ite]
  constructor
  · intro h
    have hticks : line.takeWhile (· == tick) = List.replicate _ tick :=
      List.eq_replicate_of_mem fun c hc => beq_iff_eq.1 (hrun.all c hc)
    refine List.IsPrefix.trans ?_ (List.takeWhile_prefix (· == tick))
    obtain ⟨more, hmore⟩ := Nat.exists_eq_add_of_le h
    rw [hticks, hmore, List.replicate_add]
    exact List.prefix_append _ _
  · intro h
    exact (hrun.longest _ h (by simp)).length_le

theorem closes_iff : closes line ↔
    ∃ blank rest, Text.LongestRun Text.isBlank line blank rest ∧ [tick, tick, tick] <+: rest := by
  have htick : ∀ c ∈ [tick, tick, tick], ¬ Text.isBlank c := by simp [isBlank_tick]
  rw [closes, List.isPrefixOf_iff_prefix, Text.trim, Text.isPrefix_trimEnd htick, Text.trimStart]
  simp [Text.longestRun_iff]

/-- White space of any kind may stand before the ticks, and anything behind them. -/
example : closes "\t\u3000\x60\x60\x60 x".toList ∧ ¬ closes "> \x60\x60\x60".toList := by decide

/-- A line that opens a block also looks like a closing fence. -/
theorem closes_of_isSome_tag? (h : (tag? line).isSome) : closes line := by
  have hticks := isSome_tag?_iff.1 h
  refine closes_iff.2 ⟨[], line, ?_, hticks⟩
  obtain ⟨rest, rfl⟩ := hticks
  simp [Text.longestRun_iff, isBlank_tick]

end Fence

end FencedCode
