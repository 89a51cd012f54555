namespace FencedCode

/-- The language each tag stands for, in increasing order of the tags. -/
structure Aliases where
  entries : List (String × String) := []
  sorted : entries.Pairwise (fun a b => a.1 < b.1) := by exact .nil
  deriving DecidableEq

namespace Aliases

def empty : Aliases := {}

instance : Inhabited Aliases := ⟨empty⟩

def get? (m : Aliases) (tag : String) : Option String := m.entries.lookup tag

def place (tag language : String) : List (String × String) → List (String × String)
  | [] => [(tag, language)]
  | e :: es =>
    if tag < e.1 then (tag, language) :: e :: es
    else if tag = e.1 then (tag, language) :: es
    else e :: place tag language es

theorem mem_place {tag language : String} {es : List (String × String)} {x : String × String}
    (h : x ∈ place tag language es) : x = (tag, language) ∨ x ∈ es := by
  induction es with
  | nil => simpa [place] using h
  | cons e es ih =>
    simp only [place] at h
    split at h
    · simpa using h
    · split at h
      · rcases List.mem_cons.1 h with h | h
        · exact .inl h
        · exact .inr (List.mem_cons_of_mem _ h)
      · rcases List.mem_cons.1 h with h | h
        · exact .inr (h ▸ List.mem_cons_self)
        · exact (ih h).imp id (List.mem_cons_of_mem _)

theorem place_sorted (tag language : String) {es : List (String × String)}
    (h : es.Pairwise (fun a b => a.1 < b.1)) :
    (place tag language es).Pairwise (fun a b => a.1 < b.1) := by
  induction es with
  | nil => simp [place]
  | cons e es ih =>
    have he := List.pairwise_cons.1 h
    simp only [place]
    split
    · rename_i hlt
      refine List.pairwise_cons.2 ⟨fun x hx => ?_, h⟩
      rcases List.mem_cons.1 hx with hx | hx
      · exact hx ▸ hlt
      · exact String.lt_trans hlt (he.1 x hx)
    · split
      · rename_i heq
        exact List.pairwise_cons.2 ⟨fun x hx => by simpa [heq] using he.1 x hx, he.2⟩
      · rename_i hlt hne
        refine List.pairwise_cons.2 ⟨fun x hx => ?_, ih he.2⟩
        rcases mem_place hx with hx | hx
        · subst hx
          exact Std.lt_of_le_of_ne (String.not_lt.1 hlt) (Ne.symm hne)
        · exact he.1 x hx

def insert (m : Aliases) (tag language : String) : Aliases where
  entries := place tag language m.entries
  sorted := place_sorted tag language m.sorted

/-- The map of a list of entries; of two for one tag the later counts. -/
def ofList (es : List (String × String)) : Aliases :=
  es.foldl (fun m e => m.insert e.1 e.2) empty

end Aliases

end FencedCode
