import Mathlib.Data.List.Perm.Basic
import FencedCode.Catalog
import FencedCode.Proofs.Loads

namespace FencedCode

/-- How far a thread has come that loads a grammar. -/
inductive LoadPhase where
  | compiling
  | inserting (g : Grammar)
  | reporting (result : LoadResult)

def LoadPhase.compiled (id : String) : LoadPhase :=
  match Catalog.compile id with
  | .ok g => .inserting g
  | .error e => .reporting (.failed e)

structure LoadThread where
  id : String
  phase : LoadPhase

/-- The registry of grammars and the threads that work for it. -/
structure Workshop where
  registry : Catalog.Registry := {}
  threads : List LoadThread := []

namespace Catalog

/-- The bundled tokenizer with a thread for each load. Where there can be none, the notifier is
dropped at once. -/
def threaded (spawns : Bool) : Tokenizer Workshop where
  resolve w := tokenizer.resolve w.registry
  isLoaded w := tokenizer.isLoaded w.registry
  load w id :=
    if spawns then ({ w with threads := w.threads ++ [⟨id, .compiling⟩] }, none)
    else (w, some (Loader.abandoned id))
  tokenize w code id theme := (w, (tokenizer.tokenize w.registry code id theme).2)
  colors w := tokenizer.colors w.registry

theorem compile_markdown : ∃ g, compile "markdown" = .ok g := by
  have hok : GrammarSource.markdown.compile.isOk = true := by decide +kernel
  have hc : compile "markdown" = GrammarSource.markdown.compile := rfl
  rw [hc]
  cases hg : GrammarSource.markdown.compile with
  | ok g => exact ⟨g, rfl⟩
  | error e =>
    rw [hg] at hok
    cases hok

namespace Registry

variable {r : Registry} {id j : String}

theorem isLoaded_insert_self (r : Registry) (id : String) (g : Grammar) :
    (r.insert id g).isLoaded id = true := by
  simp [isLoaded, insert]

theorem isLoaded_insert (h : r.isLoaded j = true) (id : String) (g : Grammar) :
    (r.insert id g).isLoaded j = true := by
  unfold isLoaded insert at *
  rw [List.lookup_cons]
  split
  · simp
  · exact h

end Registry

end Catalog

structure Background where
  workshop : Workshop := {}
  loader : Loader := {}
  /-- Grammars that were compiled to be preloaded and are not in the registry yet. -/
  preloads : List (String × Grammar) := []
  /-- What was drained so far, oldest first. -/
  drained : List LoadEvent := []

namespace Background

def ensure (b : Background) (spawns : Bool) (language : String) : Background :=
  let (_, workshop, loader) :=
    Loader.ensure (Catalog.threaded spawns) b.workshop b.loader language
  { b with workshop, loader }

def turn (b : Background) (i : Nat) (t : LoadThread) : Background :=
  { b with workshop := { b.workshop with threads := b.workshop.threads.set i t } }

def insert (b : Background) (id : String) (g : Grammar) : Background :=
  { b with workshop := { b.workshop with registry := b.workshop.registry.insert id g } }

def report (b : Background) (i : Nat) (id : String) (result : LoadResult) : Background :=
  { b with
    workshop := { b.workshop with threads := b.workshop.threads.eraseIdx i }
    loader := b.loader.complete id result }

def drain (b : Background) : Background :=
  { b with loader := b.loader.drain.2, drained := b.drained ++ b.loader.drain.1 }

/-- What can happen next, be it in a thread or outside. -/
inductive Step : Background → Background → Prop where
  /-- A thread may be had for the load or not. -/
  | ensure (b : Background) (spawns : Bool) (language : String) : Step b (b.ensure spawns language)
  | compile {b : Background} {i : Nat} {id : String}
      (ht : b.workshop.threads[i]? = some ⟨id, .compiling⟩) :
      Step b (b.turn i ⟨id, .compiled id⟩)
  | insert {b : Background} {i : Nat} {id : String} {g : Grammar}
      (ht : b.workshop.threads[i]? = some ⟨id, .inserting g⟩) :
      Step b ((b.insert id g).turn i ⟨id, .reporting .loaded⟩)
  | report {b : Background} {i : Nat} {id : String} {result : LoadResult}
      (ht : b.workshop.threads[i]? = some ⟨id, .reporting result⟩) :
      Step b (b.report i id result)
  /-- A language to be preloaded is not loaded, and its grammar gets compiled. -/
  | preload {b : Background} {language id : String} {g : Grammar}
      (hr : Catalog.resolve language = some id) (hl : b.workshop.registry.isLoaded id = false)
      (hc : Catalog.compile id = .ok g) :
      Step b { b with preloads := b.preloads ++ [(id, g)] }
  /-- It goes into the registry, whatever has happened there in between. -/
  | publish {b : Background} {i : Nat} {id : String} {g : Grammar}
      (hp : b.preloads[i]? = some (id, g)) :
      Step b { b.insert id g with preloads := b.preloads.eraseIdx i }
  | drain (b : Background) : Step b b.drain

abbrev Steps : Background → Background → Prop := Relation.ReflTransGen Step

/-- What holds at all times: each ticket is in the hands of one thread, and what is about to be
reported as loaded, or was, is loaded. -/
structure Safe (b : Background) : Prop where
  loader : b.loader.Sound
  tickets : b.loader.tickets.Perm (b.workshop.threads.map (·.id))
  reporting : ∀ t ∈ b.workshop.threads, t.phase = .reporting .loaded →
    b.workshop.registry.isLoaded t.id = true
  reported : ∀ e ∈ b.loader.posted ++ b.drained, e.succeeded = true →
    b.workshop.registry.isLoaded e.language = true

variable {b b' : Background} {i : Nat} {id : String}

theorem safe_empty : Safe {} where
  loader := Loader.sound_empty
  tickets := .refl _
  reporting := by simp
  reported := by simp

/-- A load is started in a thread, or is over at once for want of one. -/
theorem ensure_cases (b : Background) (spawns : Bool) (language : String) :
    b.ensure spawns language = b ∨ ∃ id, id ∉ b.loader.inFlight ∧
      (b.ensure spawns language = { b with
          workshop := { b.workshop with threads := b.workshop.threads ++ [⟨id, .compiling⟩] }
          loader := b.loader.started id none } ∨
        b.ensure spawns language = { b with
          loader := b.loader.started id (some (Loader.abandoned id)) }) := by
  have hb : b.ensure spawns language = { b with
      workshop := (Loader.ensure (Catalog.threaded spawns) b.workshop b.loader language).2.1
      loader := (Loader.ensure (Catalog.threaded spawns) b.workshop b.loader language).2.2 } := rfl
  rw [hb]
  rcases Loader.ensure_cases (Catalog.threaded spawns) b.workshop b.loader language with
    ⟨he, -⟩ | ⟨id, -, -, hid, he⟩
  · rw [he]
    exact .inl rfl
  · rw [he]
    refine .inr ⟨id, hid, ?_⟩
    cases spawns with
    | true => exact .inl rfl
    | false => exact .inr rfl

theorem Safe.ensure (h : b.Safe) (spawns : Bool) (language : String) :
    (b.ensure spawns language).Safe := by
  rcases b.ensure_cases spawns language with he | ⟨id, hid, he | he⟩
  · rwa [he]
  · rw [he]
    refine ⟨h.loader.started hid _, ?_, fun t ht hphase => ?_, h.reported⟩
    · simp only [List.map_append]
      exact h.tickets.append_right [id]
    · rcases List.mem_append.1 ht with ht | ht
      · exact h.reporting t ht hphase
      · obtain rfl := List.mem_singleton.1 ht
        cases hphase
  · rw [he]
    refine ⟨h.loader.started hid _, ?_, h.reporting, fun e he hok => ?_⟩
    · have hstarted : b.loader.started id (some (Loader.abandoned id)) =
          (b.loader.started id none).complete id (Loader.abandoned id) := rfl
      have hmem : id ∈ (b.loader.started id none).tickets := by simp [Loader.started]
      rw [hstarted, Loader.complete_of_mem hmem]
      -- the ticket is gone with its event
      have hperm : (b.loader.tickets ++ [id]).erase id |>.Perm b.loader.tickets := by
        have := (List.perm_append_singleton id b.loader.tickets).erase id
        rwa [List.erase_cons_head] at this
      exact hperm.trans h.tickets
    · -- the new event is a failure
      have hold : e ∈ b.loader.posted ++ b.drained := by
        rw [Loader.started_posted] at he
        rcases List.mem_append.1 he with he | he
        · rcases List.mem_append.1 he with he | he
          · exact List.mem_append_left _ he
          · obtain rfl := List.mem_singleton.1 he
            cases hok
        · exact List.mem_append_right _ he
      exact h.reported e hold hok

/-- A thread may come to any phase but that of reporting success without its grammar. -/
theorem Safe.turn (h : b.Safe) {p : LoadPhase} (ht : b.workshop.threads[i]? = some ⟨id, p⟩)
    {q : LoadPhase} (hq : q = .reporting .loaded → b.workshop.registry.isLoaded id = true) :
    (b.turn i ⟨id, q⟩).Safe := by
  obtain ⟨hlt, hget⟩ := List.getElem?_eq_some_iff.1 ht
  have hids : (b.workshop.threads.set i ⟨id, q⟩).map (·.id) = b.workshop.threads.map (·.id) := by
    have hi : i < (b.workshop.threads.map (·.id)).length := by simpa using hlt
    have hset := List.set_getElem_self hi
    rw [List.getElem_map, hget] at hset
    rw [List.map_set, hset]
  refine ⟨h.loader, hids ▸ h.tickets, fun t hmem hphase => ?_, h.reported⟩
  rcases List.mem_or_eq_of_mem_set hmem with hmem | rfl
  · exact h.reporting t hmem hphase
  · exact hq hphase

theorem Safe.insert (h : b.Safe) (id : String) (g : Grammar) : (b.insert id g).Safe where
  loader := h.loader
  tickets := h.tickets
  reporting t ht hphase := Catalog.Registry.isLoaded_insert (h.reporting t ht hphase) id g
  reported e he hok := Catalog.Registry.isLoaded_insert (h.reported e he hok) id g

/-- What a thread reports as loaded is in the registry. -/
theorem Safe.report (h : b.Safe) {result : LoadResult}
    (ht : b.workshop.threads[i]? = some ⟨id, .reporting result⟩) : (b.report i id result).Safe := by
  obtain ⟨hlt, hget⟩ := List.getElem?_eq_some_iff.1 ht
  have hmem : (⟨id, .reporting result⟩ : LoadThread) ∈ b.workshop.threads :=
    List.mem_of_getElem? ht
  have hids : (id :: (b.workshop.threads.eraseIdx i).map (·.id)).Perm
      (b.workshop.threads.map (·.id)) := by
    have := (List.getElem_cons_eraseIdx_perm hlt).map (·.id)
    rwa [hget] at this
  have hticket : id ∈ b.loader.tickets :=
    h.tickets.mem_iff.2 (List.mem_map_of_mem (f := (·.id)) hmem)
  refine ⟨h.loader.complete _ _, ?_, fun t hmem' hphase => ?_, fun e he hok => ?_⟩
  · have hperm := (h.tickets.trans hids.symm).erase id
    rw [List.erase_cons_head] at hperm
    change (b.loader.complete id result).tickets.Perm _
    rwa [Loader.complete_of_mem hticket]
  · exact h.reporting t (List.mem_of_mem_eraseIdx hmem') hphase
  · change e ∈ (b.loader.complete id result).posted ++ b.drained at he
    rw [Loader.complete_of_mem hticket] at he
    simp only [List.mem_append, List.mem_singleton] at he
    rcases he with (he | rfl) | he
    · exact h.reported e (List.mem_append_left _ he) hok
    · have hloaded : result = .loaded := by simpa [LoadEvent.succeeded] using hok
      exact h.reporting _ hmem (by rw [hloaded])
    · exact h.reported e (List.mem_append_right _ he) hok

theorem Safe.drain (h : b.Safe) : b.drain.Safe where
  loader := h.loader.drain
  tickets := h.tickets
  reporting := h.reporting
  reported e he hok := by
    refine h.reported e ?_ hok
    simp only [Background.drain, Loader.drain, List.nil_append, List.mem_append] at he ⊢
    exact he.symm

theorem compiled_ne_loaded (id : String) : LoadPhase.compiled id ≠ .reporting .loaded := by
  unfold LoadPhase.compiled
  split
  · simp
  · simp

theorem Safe.step (h : b.Safe) (hs : Step b b') : b'.Safe := by
  cases hs with
  | ensure spawns language => exact h.ensure spawns language
  | compile ht => exact h.turn ht fun hc => absurd hc (compiled_ne_loaded _)
  | @insert i id g ht =>
    exact (h.insert id g).turn ht fun _ => Catalog.Registry.isLoaded_insert_self _ id g
  | report ht => exact h.report ht
  | preload => exact ⟨h.loader, h.tickets, h.reporting, h.reported⟩
  | @publish i id g =>
    have := h.insert id g
    exact ⟨this.loader, this.tickets, this.reporting, this.reported⟩
  | drain => exact h.drain

theorem Safe.steps (h : b.Safe) (hs : Steps b b') : b'.Safe := by
  induction hs with
  | refl => exact h
  | tail _ hs ih => exact ih.step hs

theorem ensure_registry (b : Background) (spawns : Bool) (language : String) :
    (b.ensure spawns language).workshop.registry = b.workshop.registry := by
  rcases b.ensure_cases spawns language with he | ⟨id, -, he | he⟩ <;> rw [he]

theorem Step.isLoaded (hs : Step b b') (h : b.workshop.registry.isLoaded id = true) :
    b'.workshop.registry.isLoaded id = true := by
  cases hs with
  | ensure spawns language =>
    rw [ensure_registry]
    exact h
  | insert => exact Catalog.Registry.isLoaded_insert h _ _
  | publish => exact Catalog.Registry.isLoaded_insert h _ _
  | _ => exact h

theorem Steps.isLoaded (hs : Steps b b') (h : b.workshop.registry.isLoaded id = true) :
    b'.workshop.registry.isLoaded id = true := by
  induction hs with
  | refl => exact h
  | tail _ hs ih => exact hs.isLoaded ih

theorem ensure_ready (h : b.workshop.registry.isLoaded id = true) {language : String}
    (hr : Catalog.resolve language = some id) (spawns : Bool) :
    Loader.ensure (Catalog.threaded spawns) b.workshop b.loader language =
      (.ready id, b.workshop, b.loader) := by
  unfold Loader.ensure
  simp only [Catalog.threaded, Catalog.tokenizer, hr, h, if_true]

/-- Each ticket is for another language, and so is each thread. -/
theorem Safe.threads_nodup (h : b.Safe) : (b.workshop.threads.map (·.id)).Nodup := by
  rw [← h.tickets.nodup_iff, List.nodup_iff_count_le_one]
  intro id
  have := h.loader id
  unfold Loader.pending at this
  split_ifs at this <;> omega

theorem report_turn (b : Background) (i : Nat) (t : LoadThread) (id : String)
    (result : LoadResult) : (b.turn i t).report i id result = b.report i id result := by
  unfold Background.report turn
  simp only [List.eraseIdx_set_eq]

theorem insert_turn (b : Background) (i : Nat) (t t' : LoadThread) (id : String) (g : Grammar) :
    ((b.turn i t).insert id g).turn i t' = (b.insert id g).turn i t' := by
  unfold Background.insert turn
  simp only [List.set_set]

/-- A thread that is left alone loads its grammar as the registry does, and reports that. -/
theorem load_steps (ht : b.workshop.threads[i]? = some ⟨id, .compiling⟩) : Steps b { b with
    workshop := ⟨(b.workshop.registry.load id).1, b.workshop.threads.eraseIdx i⟩
    loader := b.loader.complete id (b.workshop.registry.load id).2 } := by
  have hi := (List.getElem?_eq_some_iff.1 ht).1
  have hcompile := Step.compile ht
  unfold LoadPhase.compiled at hcompile
  unfold Catalog.Registry.load
  cases hc : Catalog.compile id with
  | ok g =>
    rw [hc] at hcompile
    have hinsert : Step (b.turn i ⟨id, .inserting g⟩) _ := .insert (List.getElem?_set_self hi)
    have hreport : Step ((b.insert id g).turn i ⟨id, .reporting .loaded⟩) _ :=
      .report (List.getElem?_set_self hi)
    rw [insert_turn] at hinsert
    rw [report_turn] at hreport
    exact .tail (.tail (.single hcompile) hinsert) hreport
  | error e =>
    rw [hc] at hcompile
    have hreport : Step (b.turn i ⟨id, .reporting (.failed e)⟩) _ :=
      .report (List.getElem?_set_self hi)
    rw [report_turn] at hreport
    exact .tail (.single hcompile) hreport

theorem preload_steps {r : Catalog.Registry} {language : String}
    (h : b.workshop.registry.preload language = .ok r) :
    Steps b { b with workshop := { b.workshop with registry := r } } := by
  unfold Catalog.Registry.preload at h
  split at h
  · cases h
  · rename_i id hr
    split_ifs at h with hl
    · obtain rfl := Except.ok.inj h
      exact .refl
    · cases hc : Catalog.compile id with
      | error e =>
        rw [hc] at h
        cases h
      | ok g =>
        rw [hc] at h
        obtain rfl := Except.ok.inj h
        have hpublish : Step { b with preloads := b.preloads ++ [(id, g)] } _ :=
          .publish List.getElem?_concat_length
        have hkept : (b.preloads ++ [(id, g)]).eraseIdx b.preloads.length = b.preloads := by
          rw [List.eraseIdx_append_of_length_le le_rfl]
          simp
        simp only [hkept] at hpublish
        exact .tail (.single (.preload hr (by simpa using hl) hc)) hpublish

/-- However threads, requests, preloads and drains interleave: there is never more than one thread
for a language, and once a load has been reported successful, its language is loaded for good, so
that it is ready whenever it is asked for by any name, without another load. -/
theorem loads_safe (hb : Steps {} b) (hb' : Steps b b') :
    (b.workshop.threads.map (·.id)).Nodup ∧
      ∀ e ∈ b.loader.posted ++ b.drained, e.succeeded = true →
        b'.workshop.registry.isLoaded e.language = true ∧
          ∀ language spawns, Catalog.resolve language = some e.language →
            Loader.ensure (Catalog.threaded spawns) b'.workshop b'.loader language =
              (.ready e.language, b'.workshop, b'.loader) := by
  have h : b.Safe := safe_empty.steps hb
  refine ⟨h.threads_nodup, fun e he hok => ?_⟩
  have hloaded := hb'.isLoaded (h.reported e he hok)
  exact ⟨hloaded, fun language spawns hr => ensure_ready hloaded hr spawns⟩

/-- Markdown, loaded in a thread while it is preloaded, is ready after that under another name. -/
theorem loads_safe_markdown : ∃ b : Background, Steps {} b ∧ b.workshop.threads = [] ∧
    b.drained = [⟨"markdown", .loaded⟩] ∧
      Loader.ensure (Catalog.threaded true) b.workshop b.loader "MD" =
        (.ready "markdown", b.workshop, b.loader) := by
  obtain ⟨g, hg⟩ := Catalog.compile_markdown
  have hmd : Catalog.resolve "md" = some "markdown" := by decide
  have hnew : ({} : Catalog.Registry).isLoaded "markdown" = false := by decide
  have hensure : Steps {} ⟨⟨{}, [⟨"markdown", .compiling⟩]⟩, ⟨["markdown"], ["markdown"], []⟩, [],
      []⟩ := by
    have he : Loader.ensure (Catalog.threaded true) {} {} "md" = (.loading, _, _) :=
      Loader.ensure_unloaded hmd hnew (by simp)
    have h := Step.ensure {} true "md"
    unfold Background.ensure at h
    rw [he] at h
    exact .single h
  have hpreload : ({} : Catalog.Registry).preload "md" = .ok ⟨[("markdown", g)]⟩ := by
    simp only [Catalog.Registry.preload, hmd, hnew, hg]
    rfl
  have hload : ({ grammars := [("markdown", g)] } : Catalog.Registry).load "markdown" =
      (⟨[("markdown", g), ("markdown", g)]⟩, .loaded) := by
    simp only [Catalog.Registry.load, hg]
    rfl
  have hposted := (hensure.trans (preload_steps hpreload)).trans (load_steps (i := 0) rfl)
  rw [hload] at hposted
  have hdrained : Steps {} ⟨⟨⟨[("markdown", g), ("markdown", g)]⟩, []⟩, {}, [],
      [⟨"markdown", .loaded⟩]⟩ := hposted.tail (.drain _)
  refine ⟨_, hdrained, rfl, rfl, ?_⟩
  exact ((loads_safe hdrained .refl).2 _ List.mem_cons_self rfl).2 "MD" true (by decide)

end Background

end FencedCode
