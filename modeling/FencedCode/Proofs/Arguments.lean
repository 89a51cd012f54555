import FencedCode.CommandLine
import Mathlib.Tactic.SplitIfs

namespace FencedCode

namespace CommandLine

inductive Setting where
  | theme
  | config
  | logFile
  deriving DecidableEq

namespace Setting

def spellings : Setting → List String
  | theme => ["-t", "--theme"]
  | config => ["-c", "--config"]
  | logFile => ["--log-file"]

def get : Setting → Options → Option String
  | theme, o => o.theme
  | config, o => o.config
  | logFile, o => o.logFile

def set : Setting → Options → String → Options
  | theme, o, value => { o with theme := some value }
  | config, o, value => { o with config := some value }
  | logFile, o, value => { o with logFile := some value }

theorem get_set (s s' : Setting) (o : Options) (value : String) :
    s.get (s'.set o value) = if s' = s then some value else s.get o := by
  cases s <;> cases s' <;> rfl

@[simp] theorem file_set (s : Setting) (o : Options) (value : String) :
    (s.set o value).file = o.file := by
  cases s <;> rfl

end Setting

def flags : List (String × Action) :=
  [("-h", .help), ("--help", .help), ("-V", .version), ("--version", .version),
    ("--list-themes", .listThemes), ("--list-languages", .listLanguages)]

/-- A name that does not look like an option. A single dash is one. -/
def IsFileName (name : String) : Prop := name.toList.head? ≠ some '-' ∨ name = "-"

instance (name : String) : Decidable (IsFileName name) := inferInstanceAs (Decidable (_ ∨ _))

theorem isFileName_iff {name : String} :
    IsFileName name ↔ ∀ c cs, name.toList ≠ '-' :: c :: cs := by
  constructor
  · rintro (h | rfl) c cs hname
    · simp [hname] at h
    · cases hname
  · intro h
    by_cases hdash : name.toList.head? = some '-'
    · obtain ⟨cs, hname⟩ := List.head?_eq_some_iff.1 hdash
      cases cs with
      | nil => exact .inr (String.toList_inj.1 hname)
      | cons c cs => exact absurd hname (h c cs)
    · exact .inl hdash

/-- An option with its value, or a file. -/
inductive Part where
  | option (setting : Setting) (spelling value : String)
  | file (name : String)
  deriving DecidableEq

namespace Part

def WellSpelled : Part → Prop
  | option setting spelling _ => spelling ∈ setting.spellings
  | file name => IsFileName name

def arguments : Part → List String
  | option _ spelling value => [spelling, value]
  | file name => [name]

def file? : Part → Option String
  | option _ _ _ => none
  | file name => some name

def value? (s : Setting) : Part → Option String
  | option setting _ value => if setting = s then some value else none
  | file _ => none

def addTo (o : Options) : Part → Options
  | option setting _ value => setting.set o value
  | file name => { o with file := some name }

end Part

def arguments (ps : List Part) : List String := ps.flatMap Part.arguments

def filesOf (ps : List Part) : List String := ps.filterMap Part.file?

def lastValue? (s : Setting) (ps : List Part) : Option String :=
  (ps.filterMap (Part.value? s)).getLast?

theorem classify_flag : ∀ f ∈ flags, classify f.1 = .inform f.2 := by
  simp only [flags, List.forall_mem_cons, List.not_mem_nil, false_imp_iff, implies_true, and_true]
  exact ⟨rfl, rfl, rfl, rfl, rfl, rfl⟩

theorem classify_spelling (s : Setting) : ∀ a ∈ s.spellings, classify a = .set s.set := by
  cases s with
  | theme | config => exact List.forall_mem_cons.2 ⟨rfl, List.forall_mem_singleton.2 rfl⟩
  | logFile => exact List.forall_mem_singleton.2 rfl

theorem classify_file {name : String} (h : IsFileName name) : classify name = .file := by
  unfold classify
  split
  all_goals try exact absurd h (by decide)
  split
  · rename_i c cs hname
    exact absurd hname (isFileName_iff.1 h c cs)
  · rfl

theorem classify_spec (arg : String) :
    match classify arg with
    | .inform action => (arg, action) ∈ flags
    | .set store => ∃ s : Setting, arg ∈ s.spellings ∧ store = s.set
    | .unknown => ¬ IsFileName arg
    | .file => IsFileName arg := by
  generalize harg : classify arg = c
  unfold classify at harg
  split at harg
  case h_1 | h_2 | h_3 | h_4 | h_5 | h_6 =>
    subst harg
    exact by decide
  case h_7 | h_8 =>
    subst harg
    exact ⟨.theme, by decide, rfl⟩
  case h_9 | h_10 =>
    subst harg
    exact ⟨.config, by decide, rfl⟩
  case h_11 =>
    subst harg
    exact ⟨.logFile, by decide, rfl⟩
  case h_12 =>
    split at harg
    · rename_i c cs hname
      subst harg
      exact fun h => isFileName_iff.1 h c cs hname
    · rename_i hshort
      subst harg
      exact isFileName_iff.2 hshort

theorem get_foldl_addTo (s : Setting) (o : Options) (ps : List Part) :
    s.get (ps.foldl Part.addTo o) = (lastValue? s ps).or (s.get o) := by
  induction ps generalizing o with
  | nil => rfl
  | cons p ps ih =>
    rw [List.foldl_cons, ih, lastValue?, lastValue?, List.filterMap_cons]
    cases p with
    | option setting spelling value =>
      simp only [Part.addTo, Part.value?, Setting.get_set]
      split_ifs
      · simp [List.getLast?_cons]
      · rfl
    | file name => cases s <;> rfl

theorem file_foldl_addTo (o : Options) (ps : List Part) :
    (ps.foldl Part.addTo o).file = (o.file.toList ++ filesOf ps).getLast? := by
  induction ps generalizing o with
  | nil => cases h : o.file <;> simp [filesOf, h]
  | cons p ps ih =>
    rw [List.foldl_cons, ih]
    cases p with
    | option setting spelling value =>
      rw [Part.addTo, Setting.file_set]
      rfl
    | file name =>
      change (name :: filesOf ps).getLast? = (o.file.toList ++ name :: filesOf ps).getLast?
      rw [List.getLast?_append, List.getLast?_cons, Option.some_or]

/-- There is room for a part: it is no file, or there has been none. -/
def Part.Fits (o : Options) (p : Part) : Prop := o.file = none ∨ p.file? = none

theorem files_addTo {o : Options} {p : Part} (hfits : p.Fits o) (ps : List Part) :
    (p.addTo o).file.toList ++ filesOf ps = o.file.toList ++ filesOf (p :: ps) := by
  cases p with
  | option setting spelling value =>
    rw [Part.addTo, Setting.file_set]
    rfl
  | file name =>
    rw [hfits.resolve_right (Option.some_ne_none name)]
    rfl

theorem fits_of_length_le {o : Options} {p : Part} {ps : List Part}
    (h : (o.file.toList ++ filesOf (p :: ps)).length ≤ 1) : p.Fits o := by
  unfold Part.Fits
  cases hfile : o.file with
  | none => exact .inl rfl
  | some file =>
    cases hp : p.file? with
    | none => exact .inr rfl
    | some name => simp [filesOf, hfile, hp] at h

theorem parseFrom_part {o : Options} {p : Part} (hp : p.WellSpelled) (hfits : p.Fits o)
    (rest : List String) : parseFrom o (p.arguments ++ rest) = parseFrom (p.addTo o) rest := by
  cases p with
  | option setting spelling value =>
    change parseFrom o (spelling :: value :: rest) = _
    rw [parseFrom, classify_spelling setting spelling hp]
    rfl
  | file name =>
    change parseFrom o (name :: rest) = _
    rw [parseFrom, classify_file hp, hfits.resolve_right (Option.some_ne_none name)]
    rfl

/-- Parts are read one after the other, as long as there is one file at most. -/
theorem parseFrom_arguments {ps : List Part} (hps : ∀ p ∈ ps, p.WellSpelled) {o : Options}
    (hfiles : (o.file.toList ++ filesOf ps).length ≤ 1) (rest : List String) :
    parseFrom o (arguments ps ++ rest) = parseFrom (ps.foldl Part.addTo o) rest := by
  induction ps generalizing o with
  | nil => rfl
  | cons p ps ih =>
    obtain ⟨hp, hps'⟩ := List.forall_mem_cons.1 hps
    have hfits := fits_of_length_le hfiles
    rw [arguments, List.flatMap_cons, List.append_assoc, parseFrom_part hp hfits]
    refine ih hps' ?_
    rwa [files_addTo hfits]

/-- How arguments are to be read when the options before them have been: in parts, with one file in
all, or in parts up to a flag. -/
inductive Reads (o : Options) : List String → Action → Prop
  | page (ps : List Part) (spelled : ∀ p ∈ ps, p.WellSpelled)
    (files : (o.file.toList ++ filesOf ps).length = 1) :
    Reads o (arguments ps) (.page (ps.foldl Part.addTo o))
  | flag (ps : List Part) (spelled : ∀ p ∈ ps, p.WellSpelled)
    (files : (o.file.toList ++ filesOf ps).length ≤ 1) {flag : String} {action : Action}
    (hflag : (flag, action) ∈ flags) (rest : List String) :
    Reads o (arguments ps ++ flag :: rest) action

theorem Reads.cons {o : Options} {p : Part} {args : List String} {action : Action}
    (hp : p.WellSpelled) (hfits : p.Fits o) (h : Reads (p.addTo o) args action) :
    Reads o (p.arguments ++ args) action := by
  cases h with
  | page ps spelled files =>
    refine .page (p :: ps) (List.forall_mem_cons.2 ⟨hp, spelled⟩) ?_
    rwa [← files_addTo hfits]
  | flag ps spelled files hflag rest =>
    rw [← List.append_assoc]
    refine .flag (p :: ps) (List.forall_mem_cons.2 ⟨hp, spelled⟩) ?_ hflag rest
    rwa [← files_addTo hfits]

theorem parseFrom_eq_ok_iff {o : Options} {args : List String} {action : Action} :
    parseFrom o args = .ok action ↔ Reads o args action := by
  constructor
  · intro h
    fun_induction parseFrom o args with
    | case1 | case4 | case6 | case7 => cases h
    | case2 o hfile =>
      obtain ⟨file, hsome⟩ := Option.ne_none_iff_exists'.1 (mt Option.isNone_iff_eq_none.2 hfile)
      cases h
      exact .page [] (List.forall_mem_nil _) (by simp [hsome, filesOf])
    | case3 o flag rest action' hclassify =>
      have hflag := classify_spec flag
      rw [hclassify] at hflag
      cases h
      refine .flag [] (List.forall_mem_nil _) ?_ hflag rest
      cases o.file <;> simp [filesOf]
    | case5 o spelling store hclassify value rest ih =>
      have hset := classify_spec spelling
      rw [hclassify] at hset
      obtain ⟨setting, hspelling, rfl⟩ := hset
      exact .cons (p := .option setting spelling value) hspelling (.inr rfl) (ih h)
    | case8 o name rest hclassify hnone ih =>
      have hname := classify_spec name
      rw [hclassify] at hname
      exact .cons (p := .file name) hname (.inl (Option.not_isSome_iff_eq_none.1 hnone)) (ih h)
  · rintro (⟨ps, spelled, files⟩ | ⟨ps, spelled, files, hflag, rest⟩)
    · obtain ⟨file, hfile⟩ := List.length_eq_one_iff.1 files
      have hread := parseFrom_arguments spelled (Nat.le_of_eq files) []
      rw [List.append_nil] at hread
      rw [hread, parseFrom, file_foldl_addTo, hfile]
      rfl
    · rw [parseFrom_arguments spelled files, parseFrom, classify_flag _ hflag]

/-- A command line asks for a page just if it consists of options with their values and one file, in
any order, and then each option has the last value that it is given, whatever this looks like. It
asks for information just if a flag comes behind such parts, one file among them at most, whatever
follows. -/
theorem parse_eq_ok_iff (args : List String) (action : Action) :
    parse args = .ok action ↔
      (∃ (ps : List Part) (file : String), (∀ p ∈ ps, p.WellSpelled) ∧ filesOf ps = [file] ∧
        args = arguments ps ∧
        action = .page {
          theme := lastValue? .theme ps
          config := lastValue? .config ps
          logFile := lastValue? .logFile ps
          file := some file }) ∨
      ∃ (ps : List Part) (flag : String) (rest : List String), (∀ p ∈ ps, p.WellSpelled) ∧
        (filesOf ps).length ≤ 1 ∧ (flag, action) ∈ flags ∧ args = arguments ps ++ flag :: rest := by
  have hoptions : ∀ (ps : List Part) (file : String), filesOf ps = [file] →
      ps.foldl Part.addTo {} = {
        theme := lastValue? .theme ps
        config := lastValue? .config ps
        logFile := lastValue? .logFile ps
        file := some file } := by
    intro ps file hfile
    have hget : ∀ s : Setting, s.get (ps.foldl Part.addTo {}) = lastValue? s ps := by
      intro s
      rw [get_foldl_addTo]
      cases s <;> exact Option.or_none
    have hsome := file_foldl_addTo {} ps
    rw [hfile] at hsome
    rw [← hget .theme, ← hget .config, ← hget .logFile]
    change _ = some file at hsome
    rw [← hsome]
    rfl
  rw [parse, parseFrom_eq_ok_iff]
  constructor
  · intro h
    cases h with
    | page ps spelled files =>
      obtain ⟨file, hfile⟩ := List.length_eq_one_iff.1 files
      exact .inl ⟨ps, file, spelled, hfile, rfl, congrArg Action.page (hoptions ps file hfile)⟩
    | @flag ps spelled files flag _ hflag rest =>
      exact .inr ⟨ps, flag, rest, spelled, files, hflag, rfl⟩
  · rintro (⟨ps, file, spelled, hfile, rfl, rfl⟩ | ⟨ps, flag, rest, spelled, files, hflag, rfl⟩)
    · rw [← hoptions ps file hfile]
      exact .page ps spelled (congrArg List.length hfile)
    · exact Reads.flag (o := {}) ps spelled files hflag rest

/-- Values that look like flags, an option given twice, and a file in between. -/
example : parse ["--theme", "--help", "-t", "-V", "-", "-c", "-c"] =
    .ok (.page { theme := some "-V", config := some "-c", file := some "-" }) := rfl

end CommandLine

end FencedCode
