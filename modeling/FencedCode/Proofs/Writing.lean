import FencedCode.Files
import Mathlib.Tactic.SplitIfs

namespace FencedCode

namespace Files

variable {fs fs' : Files} {name part : String} {bytes : ByteArray} {fromRoot : Bool}
  {below parts : List String} {above : Nat}

theorem walk_skip (h : part = "" ∨ part = ".") :
    fs.walk fromRoot below above (part :: parts) = fs.walk fromRoot below above parts := by
  rw [walk.eq_def]
  exact if_pos h

theorem walk_up_nil :
    fs.walk fromRoot [] above (".." :: parts) =
      fs.walk fromRoot [] (if fromRoot then 0 else above + 1) parts := by
  rw [walk.eq_def]
  rfl

theorem walk_up_cons :
    fs.walk fromRoot (part :: below) above (".." :: parts) =
      fs.walk fromRoot below above parts := by
  rw [walk.eq_def]
  rfl

structure IsName (part : String) : Prop where
  plain : ¬ (part = "" ∨ part = ".")
  notUp : part ≠ ".."
  fits : ¬ nameLimit < part.utf8ByteSize

theorem walk_file (hpart : IsName part) {old : ByteArray}
    (hold : fs.lookup (nameOf fromRoot (part :: below)) = some old) :
    fs.walk fromRoot below 0 [part] = .file (nameOf fromRoot (part :: below)) old := by
  rw [walk.eq_def]
  simp only [if_neg hpart.plain, if_neg hpart.notUp, if_neg hpart.fits, hold]
  rfl

theorem walk_directory (hpart : IsName part)
    (hnone : fs.lookup (nameOf fromRoot (part :: below)) = none)
    (hdir : fs.isDirectory (nameOf fromRoot (part :: below))) :
    fs.walk fromRoot below 0 (part :: parts) = fs.walk fromRoot (part :: below) 0 parts := by
  rw [walk.eq_def]
  simp only [if_neg hpart.plain, if_neg hpart.notUp, if_neg hpart.fits, hnone, if_pos hdir]
  rfl

def Confirms (fs : Files) : FileState → Prop
  | .file name bytes => fs.lookup name = some bytes
  | .absent (some name) => fs.lookup name = none ∧ ¬ fs.isDirectory name
  | _ => True

theorem confirms_walk (fs : Files) (fromRoot : Bool) (below : List String) (above : Nat)
    (parts : List String) : fs.Confirms (fs.walk fromRoot below above parts) := by
  fun_induction walk fs fromRoot below above parts with
  | case1 | case5 | case6 | case8 => trivial
  | case2 _ _ _ _ _ ih | case3 _ _ _ ih | case4 _ _ _ _ _ ih => exact ih
  | case9 _ _ _ _ _ _ _ _ _ _ _ ih => exact ih
  | case7 _ _ _ _ _ _ _ _ _ _ hold => exact hold
  | case10 _ _ _ _ _ _ _ _ _ hnone hdir =>
    split_ifs
    · exact ⟨hnone, hdir⟩
    · trivial

theorem confirms_look (fs : Files) (path : String) : fs.Confirms (fs.look path) := by
  unfold look lookParts
  split_ifs
  · trivial
  · split
    · trivial
    all_goals exact confirms_walk ..

/-- Where a path leads when a file with this name can be written along it. -/
inductive LeadsTo (name : String) : FileState → Prop where
  | there (old : ByteArray) : LeadsTo name (.file name old)
  | missing : LeadsTo name (.absent (some name))

/-- What a path can go over. -/
structure Passable (fs : Files) (name : String) : Prop where
  noFile : fs.lookup name = none
  directory : fs.isDirectory name

theorem Confirms.not_passable {state : FileState} (h : fs.Confirms state)
    (hto : LeadsTo name state) : ¬ fs.Passable name := by
  intro hpass
  cases hto with
  | there old => exact Option.some_ne_none old (Eq.trans (Eq.symm h) hpass.noFile)
  | missing => exact h.2 hpass.directory

/-- Files after one has been written: it holds what was written, and what a path could go over it
still can. -/
structure Wrote (fs fs' : Files) (name : String) (bytes : ByteArray) : Prop where
  written : fs'.lookup name = some bytes
  passable : ∀ n, fs.Passable n → fs'.Passable n

theorem walk_of_wrote (h : Wrote fs fs' name bytes)
    (hto : LeadsTo name (fs.walk fromRoot below above parts)) :
    fs'.walk fromRoot below above parts = .file name bytes := by
  fun_induction walk fs fromRoot below above parts with
  | case1 | case5 | case6 | case8 => cases hto
  | case2 below above part parts hskip ih => rw [walk_skip hskip, ih hto]
  | case3 above parts _ ih => rw [walk_up_nil, ih hto]
  | case4 above part below parts _ ih => rw [walk_up_cons, ih hto]
  | case7 below above part parts hplain hup hfits habove n old hold hlast =>
    obtain rfl : above = 0 := Decidable.not_not.1 habove
    obtain rfl : parts = [] := List.isEmpty_iff.1 hlast
    subst n
    cases hto
    exact walk_file ⟨hplain, hup, hfits⟩ h.written
  | case9 below above part parts hplain hup hfits habove n hnone hdir ih =>
    obtain rfl : above = 0 := Decidable.not_not.1 habove
    obtain ⟨hnone', hdir'⟩ := h.passable n ⟨hnone, hdir⟩
    rw [walk_directory ⟨hplain, hup, hfits⟩ hnone' hdir', ih hto]
  | case10 below above part parts hplain hup hfits habove n hnone hdir =>
    obtain rfl : above = 0 := Decidable.not_not.1 habove
    split_ifs at hto with hlast
    · obtain rfl : parts = [] := List.isEmpty_iff.1 hlast
      subst n
      cases hto
      exact walk_file ⟨hplain, hup, hfits⟩ h.written
    · cases hto

theorem lookParts_of_wrote (h : Wrote fs fs' name bytes)
    (hto : LeadsTo name (fs.lookParts parts)) : fs'.lookParts parts = .file name bytes := by
  unfold lookParts at hto ⊢
  split at hto
  · cases hto
  all_goals exact walk_of_wrote h hto

theorem look_of_wrote (h : Wrote fs fs' name bytes) {path : String}
    (hto : LeadsTo name (fs.look path)) : fs'.look path = .file name bytes := by
  unfold look at hto ⊢
  split_ifs at hto ⊢
  · cases hto
  · exact lookParts_of_wrote h hto

theorem lookup_eq_none_iff :
    fs.lookup name = none ↔ name ≠ "/dev/null" ∧ ∀ f ∈ fs, name ≠ f.1 := by
  unfold lookup
  split_ifs with hnull
  · simp [hnull]
  · simp [List.lookup_eq_none_iff, hnull]

theorem isDirectory_iff : fs.isDirectory name ↔
    commonDirectories.contains name ∨ ∃ f ∈ fs, (name ++ "/").toList.isPrefixOf f.1.toList := by
  rw [isDirectory, Bool.or_eq_true, List.any_eq_true]

theorem wrote_cons {rest : Files} (hname : name ≠ "/dev/null") (hpass : ¬ fs.Passable name)
    (hback : ∀ f ∈ rest, f ∈ fs) (hkept : ∀ f ∈ fs, f.1 = name ∨ f ∈ rest) :
    Wrote fs ((name, bytes) :: rest) name bytes where
  written := by rw [lookup, if_neg hname, List.lookup_cons_self]
  passable n hn := by
    have hne : n ≠ name := fun h => hpass (h ▸ hn)
    obtain ⟨hnull, hnofile⟩ := lookup_eq_none_iff.1 hn.noFile
    refine ⟨lookup_eq_none_iff.2 ⟨hnull, ?_⟩, isDirectory_iff.2 ?_⟩
    · exact List.forall_mem_cons.2 ⟨hne, fun f hf => hnofile f (hback f hf)⟩
    · obtain hcommon | ⟨f, hf, hbelow⟩ := isDirectory_iff.1 hn.directory
      · exact .inl hcommon
      · obtain hsame | hf := hkept f hf
        · exact .inr ⟨(name, bytes), List.mem_cons_self, hsame ▸ hbelow⟩
        · exact .inr ⟨f, List.mem_cons_of_mem _ hf, hbelow⟩

/-- A file is made, or changed, where reading leads as well. -/
theorem leadsTo_look {path : String} (hto : LeadsTo name (fs.lookToWrite path)) :
    fs.lookToWrite path = fs.look path := by
  unfold lookToWrite at hto ⊢
  dsimp only at hto ⊢
  split_ifs at hto ⊢
  · rfl
  · generalize fs.lookParts _ = state at hto
    cases state <;> cases hto

theorem write_eq_ok {path : String} (h : fs.write path bytes = .ok fs') :
    ∃ name rest, LeadsTo name (fs.lookToWrite path) ∧ fs' = (name, bytes) :: rest ∧
      (∀ f ∈ rest, f ∈ fs) ∧ ∀ f ∈ fs, f.1 = name ∨ f ∈ rest := by
  unfold write modify at h
  split at h
  case h_1 | h_2 | h_3 | h_4 | h_6 => cases h
  case h_5 name old heq =>
    cases h
    refine ⟨name, _, heq ▸ LeadsTo.there old, rfl, fun f hf => (List.mem_filter.1 hf).1, ?_⟩
    intro f hf
    by_cases hsame : f.1 = name
    · exact .inl hsame
    · exact .inr (List.mem_filter.2 ⟨hf, decide_eq_true hsame⟩)
  case h_7 name heq =>
    cases h
    exact ⟨name, fs, heq ▸ LeadsTo.missing, rfl, fun _ hf => hf, fun _ hf => .inr hf⟩

theorem Confirms.ne_null {state : FileState} (h : fs.Confirms state) (hto : LeadsTo name state)
    (hnull : ∀ old, state ≠ .file "/dev/null" old) : name ≠ "/dev/null" := by
  cases hto with
  | there old => exact fun hname => hnull old (hname ▸ rfl)
  | missing => exact (lookup_eq_none_iff.1 h.1).1

/-- What was written along a path is what the path leads to, unless that is the null device. -/
theorem look_write {path : String} (h : fs.write path bytes = .ok fs')
    (hnull : ∀ old, fs.look path ≠ .file "/dev/null" old) :
    ∃ name, fs'.look path = .file name bytes := by
  obtain ⟨name, rest, hto, rfl, hback, hkept⟩ := write_eq_ok h
  rw [leadsTo_look hto] at hto
  have hlook := confirms_look fs path
  have hwrote : Wrote fs ((name, bytes) :: rest) name bytes :=
    wrote_cons (hlook.ne_null hto hnull) (hlook.not_passable hto) hback hkept
  exact ⟨name, look_of_wrote hwrote hto⟩

end Files

end FencedCode
