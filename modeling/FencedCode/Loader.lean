import FencedCode.Tokenizer

namespace FencedCode

structure LoadEvent where
  language : String
  result : LoadResult
  deriving DecidableEq

def LoadEvent.succeeded (e : LoadEvent) : Bool := e.result == .loaded

inductive Availability where
  /-- It is loaded; this is its id. -/
  | ready (id : String)
  | loading
  | unknown
  deriving DecidableEq

/-- The loads asked for. Each is in flight until its completion has been drained: first as a ticket
that whoever loads the language holds, then as a posted event. -/
structure Loader where
  /-- Ids of the languages with a load under way. -/
  inFlight : List String := []
  /-- Ids of the loads that are not over, oldest first. -/
  tickets : List String := []
  /-- The loads that are over but not drained, oldest first. -/
  posted : List LoadEvent := []
  deriving DecidableEq

namespace Loader

/-- The load of a language is over: its ticket becomes an event. -/
def complete (l : Loader) (id : String) (result : LoadResult) : Loader :=
  if id ∈ l.tickets then
    { l with tickets := l.tickets.erase id, posted := l.posted ++ [⟨id, result⟩] }
  else l

def abandoned (id : String) : LoadResult :=
  .failed (.loadFailed id "load abandoned without completion")

def abandon (l : Loader) (id : String) : Loader := l.complete id (abandoned id)

/-- Makes a language available, asking the tokenizer to load it unless it is loaded or on its way.
Nothing is done about a language it does not know. -/
def ensure {σ : Type} (tk : Tokenizer σ) (s : σ) (l : Loader) (language : String) :
    Availability × σ × Loader :=
  match tk.resolve s language with
  | none => (.unknown, s, l)
  | some id =>
    if tk.isLoaded s id then (.ready id, s, l)
    else if id ∈ l.inFlight then (.loading, s, l)
    else
      let (s, result) := tk.load s id
      let l := { l with inFlight := l.inFlight ++ [id], tickets := l.tickets ++ [id] }
      match result with
      | none => (.loading, s, l)
      | some r => (.loading, s, l.complete id r)

/-- The loads that are over, which are in flight no longer. -/
def drain (l : Loader) : List LoadEvent × Loader :=
  (l.posted, { l with
    inFlight := l.inFlight.filter fun id => !l.posted.any (·.language == id)
    posted := [] })

def isLoading (l : Loader) (id : String) : Bool := l.inFlight.contains id

end Loader

end FencedCode
