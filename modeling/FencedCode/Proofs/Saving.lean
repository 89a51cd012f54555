import FencedCode.Config
import FencedCode.Proofs.Entries
import FencedCode.Proofs.Writing

namespace FencedCode

namespace Aliases

theorem ext {m n : Aliases} (h : m.entries = n.entries) : m = n := by
  cases m
  cases n
  cases h
  rfl

theorem place_of_forall_lt {tag : String} (language : String) {es : List (String × String)}
    (h : ∀ e ∈ es, e.1 < tag) : place tag language es = es ++ [(tag, language)] := by
  induction es with
  | nil => rfl
  | cons e es ih =>
    obtain ⟨he, hes⟩ := List.forall_mem_cons.1 h
    rw [place, if_neg (String.lt_asymm he), if_neg fun heq => String.lt_irrefl _ (heq ▸ he),
      ih hes]
    rfl

theorem foldl_insert_entries {m : Aliases} {es : List (String × String)}
    (h : (m.entries ++ es).Pairwise fun a b => a.1 < b.1) :
    (es.foldl (fun m e => m.insert e.1 e.2) m).entries = m.entries ++ es := by
  induction es generalizing m with
  | nil => exact (List.append_nil _).symm
  | cons e es ih =>
    have hlast : (m.insert e.1 e.2).entries = m.entries ++ [e] := by
      refine place_of_forall_lt e.2 fun d hd => ?_
      exact (List.pairwise_append.1 h).2.2 d hd e List.mem_cons_self
    rw [List.append_cons, ← hlast] at h ⊢
    exact ih h

theorem ofList_entries (m : Aliases) : ofList m.entries = m :=
  ext (foldl_insert_entries (m := empty) m.sorted)

theorem nodup_tags (m : Aliases) : (m.entries.map (·.1)).Nodup := by
  refine List.pairwise_map.2 (m.sorted.imp fun hlt heq => ?_)
  exact String.lt_irrefl _ (heq ▸ hlt)

end Aliases

namespace Config

open Toml

def aliasTexts (m : Aliases) : List (Text × Text) :=
  m.entries.map fun e => (e.1.toList, e.2.toList)

def aliasItems (m : Aliases) : List (String × Item) :=
  m.entries.map fun e => (e.1, .text e.2.toList)

theorem render_eq (c : Config) : c.render =
    '#' :: (" fencelight configuration".toList ++ '\n' :: '\n' ::
      (writeEntry "theme".toList c.theme.toList ++ '\n' :: '[' ::
        ("language-aliases".toList ++ ']' :: '\n' ::
          (aliasTexts c.aliases).flatMap fun e => writeEntry e.1 e.2))) := by
  have hcomment : "# fencelight configuration\n\n".toList =
      '#' :: (" fencelight configuration".toList ++ ['\n', '\n']) := by simp
  have hheader : "\n[language-aliases]\n".toList =
      '\n' :: '[' :: ("language-aliases".toList ++ [']', '\n']) := by simp
  unfold render aliasTexts
  rw [List.flatMap_map, hcomment, hheader]
  simp only [List.append_assoc, List.cons_append, List.nil_append]

/-- A saved configuration is read as a theme, a header and the aliases under it. -/
theorem statements?_render (c : Config) : statements? c.render =
    some (.entry ⟨[], "theme", .text c.theme.toList⟩ :: .header false [] "language-aliases" ::
      ((aliasItems c.aliases).map fun e => ⟨[], e.1, e.2⟩).map .entry) := by
  have hcomment : ∀ c ∈ " fencelight configuration".toList, isPrintable c :=
    List.all_eq_true.1 (by decide)
  have hname : "language-aliases".toList ≠ [] := by decide
  have hbare : ∀ c ∈ "language-aliases".toList, isBare c := List.all_eq_true.1 (by decide)
  have hentries :
      ((aliasTexts c.aliases).map fun e => .entry ⟨[], String.ofList e.1, .text e.2⟩) =
        ((aliasItems c.aliases).map fun e => ⟨[], e.1, e.2⟩).map Statement.entry := by
    simp [aliasTexts, aliasItems]
  rw [render_eq, statements?_comment hcomment, statements?_newline, statements?_writeEntry,
    statements?_newline, statements?_header hname hbare, statements?_flatMap, hentries]
  simp only [String.ofList_toList, Option.map_some]

theorem aliasItems_keys (m : Aliases) : (aliasItems m).map (·.1) = m.entries.map (·.1) := by
  simp [aliasItems]

theorem document?_render (c : Config) : document? c.render =
    some (.mk false false [("theme", .text c.theme.toList),
      ("language-aliases", .table (.mk false false (aliasItems c.aliases)))]) := by
  have hread := statements?_render c
  have hkeys : ([("theme", Item.text c.theme.toList)].map (·.1) ++ ["language-aliases"]).Nodup := by
    simp
  have htags : ((aliasItems c.aliases).map (·.1)).Nodup :=
    aliasItems_keys c.aliases ▸ c.aliases.nodup_tags
  rw [render_eq] at hread ⊢
  rw [document?, hread]
  · exact tableOf?_of_header hkeys htags
  · intro r h
    exact absurd (List.cons.inj h).1 (by decide)

theorem aliasesOf_aliasItems (m : Aliases) :
    aliasesOf (.mk false false (aliasItems m)) = some m := by
  have hsame : m.entries.map (fun e => (e.1, String.ofList e.2.toList)) = m.entries := by simp
  have hread : m.entries.mapM (fun e => some (e.1, String.ofList e.2.toList)) = some m.entries :=
    List.mapM_pure.trans (congrArg some hsame)
  rw [aliasesOf, Table.entries, aliasItems, List.mapM_map]
  change (m.entries.mapM fun e => some (e.1, String.ofList e.2.toList)) >>= _ = _
  rw [hread]
  exact congrArg some m.ofList_entries

def reread (c : Config) : Config where
  theme :=
    if (Text.trim c.theme.toList).isEmpty then (default : Config).theme
    else String.ofList (Text.trim c.theme.toList)
  aliases := c.aliases

theorem parse_render (c : Config) : parse c.render = .ok c.reread := by
  have hread : document? c.render >>= ofTable? = some c.reread := by
    rw [document?_render]
    change aliasesOf (.mk false false (aliasItems c.aliases)) >>= _ = _
    rw [aliasesOf_aliasItems]
    rfl
  rw [parse, hread]

/-- A configuration that has been saved along a path is read back from it: the theme without the
white space around it, the default theme if nothing else is left, and the same aliases. Only the
null device keeps nothing of what is written to it. -/
theorem load_save (c : Config) {fs fs' : Files} {path : String} (h : c.save fs path = .ok fs')
    (hnull : ∀ old, fs.look path ≠ .file "/dev/null" old) :
    load (fs'.look path) = .ok
      { theme :=
          if (Text.trim c.theme.toList).isEmpty then "catppuccin-mocha"
          else String.ofList (Text.trim c.theme.toList)
        aliases := c.aliases } := by
  unfold save at h
  split at h
  · next hwrite =>
    cases h
    obtain ⟨name, hlook⟩ := Files.look_write hwrite hnull
    rw [hlook, load, FileState.readText_file, String.toList_ofList]
    exact parse_render c
  · cases h

def quotes : Config where
  theme := " \"dawn\" \\ dusk\n"
  aliases := .ofList
    [("", "\t"), ("a.b", "\x27\"\x27"), ("q\"\x27\\", "\r\n\x01"), ("λ", "\"\"\"\n")]

theorem splitOn_conf : "conf".splitOn "/" = ["conf"] := by
  rw [String.splitOn, if_neg (by decide)]
  -- none of the four characters is a slash
  iterate 4
    rw [String.splitOnAux, if_neg (by decide), if_neg (by decide)]
  rw [String.splitOnAux, if_pos (by decide)]
  rfl

theorem look_conf : Files.look [] "conf" = .absent (some "conf") := by
  rw [Files.look, splitOn_conf]
  with_unfolding_all rfl

theorem lookToWrite_conf : Files.lookToWrite [] "conf" = .absent (some "conf") := by
  rw [Files.lookToWrite, splitOn_conf]
  exact look_conf

theorem save_quotes : quotes.save [] "conf" =
    .ok [("conf", (String.ofList quotes.render).toUTF8)] := by
  rw [save, Files.write, Files.modify, lookToWrite_conf]

theorem load_save_quotes :
    quotes.save [] "conf" = .ok [("conf", (String.ofList quotes.render).toUTF8)] ∧
      (∀ old, Files.look [] "conf" ≠ .file "/dev/null" old) ∧
      load (Files.look [("conf", (String.ofList quotes.render).toUTF8)] "conf") =
        .ok { theme := "\"dawn\" \\ dusk", aliases := quotes.aliases } := by
  have hnull : ∀ old, Files.look [] "conf" ≠ .file "/dev/null" old := by
    intro old h
    rw [look_conf] at h
    cases h
  have htrim : Text.trim quotes.theme.toList = "\"dawn\" \\ dusk".toList := by decide
  refine ⟨save_quotes, hnull, ?_⟩
  rw [load_save quotes save_quotes hnull, htrim]
  rfl

end Config

end FencedCode
