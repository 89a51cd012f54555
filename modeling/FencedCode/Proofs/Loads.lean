import FencedCode.Proofs.Backends
import FencedCode.Tokenizer.Scripted

namespace FencedCode

namespace Loader

variable {σ : Type}

/-- How many tickets and events that have not been drained there are for a language. -/
def pending (l : Loader) (id : String) : Nat :=
  l.tickets.count id + l.posted.countP (·.language == id)

/-- A language is in flight as long as there is a ticket or an event for it, and there is never more
than one. -/
def Sound (l : Loader) : Prop := ∀ id, l.pending id = if id ∈ l.inFlight then 1 else 0

theorem pending_complete (l : Loader) (id : String) (result : LoadResult) (j : String) :
    (l.complete id result).pending j = l.pending j := by
  unfold complete
  split_ifs with h
  · have hpos := List.count_pos_iff.2 h
    simp only [pending, List.count_erase, List.countP_append, List.countP_singleton]
    by_cases hj : id = j
    · subst hj
      simp only [beq_self_eq_true, if_true]
      omega
    · simp [hj]
  · rfl

theorem pending_started (l : Loader) (id : String) (result : Option LoadResult) (j : String) :
    (l.started id result).pending j = l.pending j + if id = j then 1 else 0 := by
  have hadd : pending { l with inFlight := l.inFlight ++ [id], tickets := l.tickets ++ [id] } j =
      l.pending j + if id = j then 1 else 0 := by
    simp only [pending, List.count_append, List.count_singleton, beq_iff_eq]
    omega
  cases result with
  | none => exact hadd
  | some r => exact (pending_complete _ id r j).trans hadd

theorem complete_of_mem {l : Loader} {id : String} (h : id ∈ l.tickets) (result : LoadResult) :
    l.complete id result =
      { l with tickets := l.tickets.erase id, posted := l.posted ++ [⟨id, result⟩] } :=
  if_pos h

theorem complete_inFlight (l : Loader) (id : String) (result : LoadResult) :
    (l.complete id result).inFlight = l.inFlight := by
  unfold complete
  split_ifs
  · rfl
  · rfl

theorem sound_empty : Sound {} := fun _ => rfl

theorem Sound.complete {l : Loader} (h : l.Sound) (id : String) (result : LoadResult) :
    (l.complete id result).Sound := by
  intro j
  rw [pending_complete, complete_inFlight]
  exact h j

theorem Sound.started {l : Loader} (h : l.Sound) {id : String} (hid : id ∉ l.inFlight)
    (result : Option LoadResult) : (l.started id result).Sound := by
  intro j
  rw [pending_started, started_inFlight, h j]
  by_cases hj : id = j
  · subst hj
    simp [hid]
  · simp [hj, Ne.symm hj]

theorem Sound.drain {l : Loader} (h : l.Sound) : l.drain.2.Sound := by
  intro id
  have hid := h id
  have hmem : id ∈ l.drain.2.inFlight ↔
      id ∈ l.inFlight ∧ l.posted.countP (·.language == id) = 0 := by
    simp [Loader.drain, List.countP_eq_zero]
  have hpending : l.drain.2.pending id = l.tickets.count id := rfl
  unfold pending at hid
  rw [hpending]
  by_cases hfl : id ∈ l.inFlight
  · -- there was one or the other, and only the event is gone
    rw [if_pos hfl] at hid
    by_cases hp : l.posted.countP (·.language == id) = 0
    · rw [if_pos (hmem.2 ⟨hfl, hp⟩)]
      omega
    · rw [if_neg fun hin => hp (hmem.1 hin).2]
      omega
  · rw [if_neg hfl] at hid
    rw [if_neg fun hin => hfl (hmem.1 hin).1]
    omega

/-- Making a language available changes nothing if it is loaded, on its way or unknown, and starts
to load it otherwise. -/
theorem ensure_cases (tk : Tokenizer σ) (s : σ) (l : Loader) (language : String) :
    ((ensure tk s l language).2 = (s, l) ∧ ∀ id, tk.resolve s language = some id →
      tk.isLoaded s id = true ∨ id ∈ l.inFlight) ∨
    ∃ id, tk.resolve s language = some id ∧ tk.isLoaded s id = false ∧ id ∉ l.inFlight ∧
      (ensure tk s l language).2 = ((tk.load s id).1, l.started id (tk.load s id).2) := by
  cases hr : tk.resolve s language with
  | none =>
    refine .inl ⟨?_, fun id hid => absurd hid (by simp)⟩
    unfold ensure
    rw [hr]
  | some id =>
    cases hload : tk.isLoaded s id with
    | true =>
      refine .inl ⟨?_, fun j hj => .inl (Option.some.inj hj ▸ hload)⟩
      unfold ensure
      simp only [hr, hload, if_true]
    | false =>
      by_cases hfl : id ∈ l.inFlight
      · refine .inl ⟨?_, fun j hj => .inr (Option.some.inj hj ▸ hfl)⟩
        unfold ensure
        simp only [hr, hload, Bool.false_eq_true, if_false, if_pos hfl]
      · refine .inr ⟨id, rfl, hload, hfl, ?_⟩
        rw [ensure_unloaded hr hload hfl]

end Loader

/-- What the end of a load is reported through. -/
structure Notifier where
  language : String
  /-- Nothing has been reported through it. -/
  live : Bool

/-- The state of a tokenizer together with the notifiers it was handed, one for each load it was
asked for, and the events that were sent through them, each with the number of its notifier. -/
structure Handed (σ : Type) where
  inner : σ
  notifiers : List Notifier := []
  sent : List (Nat × LoadEvent) := []

namespace Handed

variable {σ : Type}

def hand (s : Handed σ) (inner : σ) (id : String) : Handed σ :=
  { s with inner, notifiers := s.notifiers ++ [⟨id, true⟩] }

def spend (s : Handed σ) (k : Nat) (e : LoadEvent) : Handed σ :=
  { s with notifiers := s.notifiers.set k ⟨e.language, false⟩, sent := s.sent ++ [(k, e)] }

def loads (s : Handed σ) (id : String) : Nat := s.notifiers.countP (·.language == id)

def live (s : Handed σ) (id : String) : Nat :=
  s.notifiers.countP fun n => n.live && n.language == id

def reports (s : Handed σ) (id : String) : Nat := s.sent.countP (·.2.language == id)

def sentBy (s : Handed σ) (k : Nat) : List LoadEvent := (s.sent.filter (·.1 == k)).map (·.2)

/-- A notifier that is not live has reported once, on its language, and each load that was asked for
has a live notifier or a report. -/
structure Kept (s : Handed σ) : Prop where
  once : ∀ k n, s.notifiers[k]? = some n →
    (s.sentBy k).map (·.language) = if n.live then [] else [n.language]
  handed : ∀ p ∈ s.sent, p.1 < s.notifiers.length
  loads : ∀ id, s.loads id = s.live id + s.reports id

theorem sentBy_append (s : Handed σ) (ns : List Notifier) (k : Nat) (e : LoadEvent) (j : Nat) :
    sentBy { s with notifiers := ns, sent := s.sent ++ [(k, e)] } j =
      s.sentBy j ++ if k = j then [e] else [] := by
  unfold sentBy
  rw [List.filter_append, List.map_append]
  by_cases hj : k = j
  · simp [hj]
  · simp [hj]

variable {s : Handed σ} {k : Nat} {id : String}

theorem Kept.sentBy_length (h : s.Kept) : s.sentBy s.notifiers.length = [] := by
  unfold sentBy
  rw [List.map_eq_nil_iff, List.filter_eq_nil_iff]
  intro p hp heq
  exact absurd (beq_iff_eq.1 heq) (h.handed p hp).ne

theorem Kept.retool (h : s.Kept) (inner : σ) : Kept { s with inner } := ⟨h.once, h.handed, h.loads⟩

theorem live_hand (s : Handed σ) (inner : σ) (id j : String) :
    (s.hand inner id).live j = s.live j + if id = j then 1 else 0 := by
  simp [live, hand, List.countP_append, List.countP_singleton]

theorem loads_hand (s : Handed σ) (inner : σ) (id j : String) :
    (s.hand inner id).loads j = s.loads j + if id = j then 1 else 0 := by
  simp [loads, hand, List.countP_append, List.countP_singleton]

theorem Kept.hand (h : s.Kept) (inner : σ) (id : String) : (s.hand inner id).Kept := by
  refine ⟨fun j n hj => ?_, fun p hp => ?_, fun j => ?_⟩
  · change (s.sentBy j).map (·.language) = _
    rcases lt_trichotomy j s.notifiers.length with hlt | rfl | hgt
    · unfold Handed.hand at hj
      rw [List.getElem?_append_left hlt] at hj
      exact h.once j n hj
    · unfold Handed.hand at hj
      rw [List.getElem?_concat_length] at hj
      obtain rfl := Option.some.inj hj
      rw [h.sentBy_length]
      rfl
    · have := (List.getElem?_eq_some_iff.1 hj).1
      simp only [Handed.hand, List.length_append, List.length_singleton] at this
      omega
  · have := h.handed p hp
    simp only [Handed.hand, List.length_append, List.length_singleton]
    omega
  · have hreports : (s.hand inner id).reports j = s.reports j := rfl
    rw [loads_hand, live_hand, hreports, h.loads]
    omega

theorem live_spend (hk : s.notifiers[k]? = some ⟨id, true⟩) (r : LoadResult) (j : String) :
    (s.spend k ⟨id, r⟩).live j + (if id = j then 1 else 0) = s.live j := by
  obtain ⟨hlt, hget⟩ := List.getElem?_eq_some_iff.1 hk
  have hpos : id = j → 0 < s.live j := by
    rintro rfl
    exact List.countP_pos_iff.2 ⟨_, List.mem_of_getElem? hk, by simp⟩
  simp only [live, spend, List.countP_set hlt, hget] at hpos ⊢
  by_cases hj : id = j
  · have := hpos hj
    simp only [hj, beq_self_eq_true, Bool.and_self, if_true, Bool.false_and, Bool.false_eq_true,
      if_false]
    omega
  · simp [hj]

theorem reports_spend (s : Handed σ) (k : Nat) (id : String) (r : LoadResult) (j : String) :
    (s.spend k ⟨id, r⟩).reports j = s.reports j + if id = j then 1 else 0 := by
  simp [reports, spend, List.countP_append, List.countP_singleton]

theorem loads_spend (hk : s.notifiers[k]? = some ⟨id, true⟩) (r : LoadResult) (j : String) :
    (s.spend k ⟨id, r⟩).loads j = s.loads j := by
  obtain ⟨hlt, hget⟩ := List.getElem?_eq_some_iff.1 hk
  have hmem := List.mem_of_getElem? hk
  simp only [loads, spend, List.countP_set hlt, hget]
  split_ifs with hj
  · have : 0 < s.notifiers.countP (·.language == j) := List.countP_pos_iff.2 ⟨_, hmem, hj⟩
    omega
  · rfl

theorem Kept.spend (h : s.Kept) (hk : s.notifiers[k]? = some ⟨id, true⟩) (r : LoadResult) :
    (s.spend k ⟨id, r⟩).Kept := by
  obtain ⟨hlt, -⟩ := List.getElem?_eq_some_iff.1 hk
  refine ⟨fun j n hj => ?_, fun p hp => ?_, fun j => ?_⟩
  · unfold Handed.spend at hj ⊢
    rw [sentBy_append, List.map_append]
    by_cases hkj : k = j
    · subst hkj
      rw [List.getElem?_set_self hlt] at hj
      obtain rfl := Option.some.inj hj
      rw [h.once k _ hk]
      simp
    · rw [List.getElem?_set_ne hkj] at hj
      rw [h.once j n hj]
      simp [hkj]
  · change p.1 < (s.notifiers.set k ⟨id, false⟩).length
    rw [List.length_set]
    rcases List.mem_append.1 hp with hp | hp
    · exact h.handed p hp
    · obtain rfl := List.mem_singleton.1 hp
      exact hlt
  · rw [loads_spend hk, h.loads, reports_spend]
    have := live_spend hk r j
    omega

end Handed

/-- The tokenizer with what it was handed. A load that is over at once has been reported so. -/
def Tokenizer.handed {σ : Type} (tk : Tokenizer σ) : Tokenizer (Handed σ) where
  resolve s name := tk.resolve s.inner name
  isLoaded s id := tk.isLoaded s.inner id
  load s id :=
    let (inner, result) := tk.load s.inner id
    let s' := s.hand inner id
    (result.elim s' fun r => s'.spend s.notifiers.length ⟨id, r⟩, result)
  tokenize s code id theme :=
    let (inner, lines) := tk.tokenize s.inner code id theme
    ({ s with inner }, lines)
  colors s theme := tk.colors s.inner theme

structure Exchange (σ : Type) where
  hands : Handed σ
  loader : Loader := {}
  /-- What was drained so far, oldest first. -/
  drained : List LoadEvent := []

namespace Exchange

/-- What can happen between a loader and a tokenizer. What the tokenizer does with other notifiers
while it is asked to load a language counts as done before. -/
inductive Action (σ : Type) where
  /-- A language is asked for, by any of its names. -/
  | ensure (language : String)
  /-- The tokenizer reports through one of its notifiers. -/
  | complete (k : Nat) (result : LoadResult)
  /-- The tokenizer gives up one of its notifiers. -/
  | drop (k : Nat)
  | drain
  /-- The tokenizer changes by itself. -/
  | retool (inner : σ)

variable {σ : Type}

def start (inner : σ) : Exchange σ := { hands := { inner } }

def send (x : Exchange σ) (k : Nat) (result : String → LoadResult) : Exchange σ :=
  match x.hands.notifiers[k]? with
  | some ⟨id, true⟩ =>
    { x with
      hands := x.hands.spend k ⟨id, result id⟩
      loader := x.loader.complete id (result id) }
  | _ => x

/-- Dropping a notifier reports a failure, and one that has been reported through is dropped too. -/
def step (tk : Tokenizer σ) (x : Exchange σ) : Action σ → Exchange σ
  | .ensure language =>
    let (_, hands, loader) := Loader.ensure tk.handed x.hands x.loader language
    { x with hands, loader }
  | .complete k result => (x.send k fun _ => result).send k Loader.abandoned
  | .drop k => x.send k Loader.abandoned
  | .drain =>
    let (events, loader) := x.loader.drain
    { x with loader, drained := x.drained ++ events }
  | .retool inner => { x with hands := { x.hands with inner } }

def run (tk : Tokenizer σ) (x : Exchange σ) (actions : List (Action σ)) : Exchange σ :=
  actions.foldl (step tk) x

def waiting (x : Exchange σ) (id : String) : Nat := x.loader.posted.countP (·.language == id)

/-- The books are in order: the loader has a ticket for each live notifier, and what was sent is
what was drained and what still waits. -/
structure Accounted (x : Exchange σ) : Prop where
  kept : x.hands.Kept
  loader : x.loader.Sound
  tickets : ∀ id, x.loader.tickets.count id = x.hands.live id
  order : x.drained ++ x.loader.posted = x.hands.sent.map (·.2)

variable {x : Exchange σ}

theorem accounted_start (inner : σ) : (start inner).Accounted where
  kept := ⟨by simp [start], by simp [start], fun _ => rfl⟩
  loader := Loader.sound_empty
  tickets _ := rfl
  order := rfl

theorem send_live {k : Nat} {id : String} (hk : x.hands.notifiers[k]? = some ⟨id, true⟩)
    (result : String → LoadResult) : x.send k result = { x with
      hands := x.hands.spend k ⟨id, result id⟩
      loader := x.loader.complete id (result id) } := by
  unfold send
  rw [hk]

/-- Nothing is sent through a notifier that has been used or is yet to be handed. -/
theorem send_used {k : Nat} (hk : ∀ id, x.hands.notifiers[k]? ≠ some ⟨id, true⟩)
    (result : String → LoadResult) : x.send k result = x := by
  unfold send
  split
  · rename_i id h
    exact absurd h (hk id)
  · rfl

theorem Accounted.send (h : x.Accounted) (k : Nat) (result : String → LoadResult) :
    (x.send k result).Accounted := by
  by_cases hk : ∃ id, x.hands.notifiers[k]? = some ⟨id, true⟩
  · obtain ⟨id, hk⟩ := hk
    rw [send_live hk]
    have hlive := Handed.live_spend hk (result id)
    -- the notifier is live, so there is a ticket for it
    have hticket : id ∈ x.loader.tickets := by
      have := hlive id
      rw [if_pos rfl] at this
      rw [← List.count_pos_iff, h.tickets]
      omega
    have hcomplete := Loader.complete_of_mem hticket (result id)
    refine ⟨h.kept.spend hk _, h.loader.complete _ _, fun j => ?_, ?_⟩
    · have := hlive j
      rw [hcomplete]
      simp only [List.count_erase, h.tickets, beq_iff_eq]
      omega
    · rw [hcomplete]
      simp only [Handed.spend, List.map_append, ← h.order, List.append_assoc]
      rfl
  · rw [send_used fun id hid => hk ⟨id, hid⟩]
    exact h

def hand (x : Exchange σ) (inner : σ) (id : String) : Exchange σ :=
  { x with hands := x.hands.hand inner id, loader := x.loader.started id none }

theorem Accounted.hand (h : x.Accounted) (inner : σ) {id : String} (hid : id ∉ x.loader.inFlight) :
    (x.hand inner id).Accounted where
  kept := h.kept.hand inner id
  loader := h.loader.started hid none
  tickets j := by
    change (x.loader.tickets ++ [id]).count j = (x.hands.hand inner id).live j
    rw [Handed.live_hand, ← h.tickets, List.count_append, List.count_singleton]
    simp
  order := h.order

theorem step_ensure (tk : Tokenizer σ) (x : Exchange σ) (language : String) :
    x.step tk (.ensure language) = x ∨ ∃ id inner, id ∉ x.loader.inFlight ∧
      (x.step tk (.ensure language) = x.hand inner id ∨ ∃ r, x.step tk (.ensure language) =
        (x.hand inner id).send x.hands.notifiers.length fun _ => r) := by
  have hstep : x.step tk (.ensure language) = { x with
      hands := (Loader.ensure tk.handed x.hands x.loader language).2.1
      loader := (Loader.ensure tk.handed x.hands x.loader language).2.2 } := rfl
  rw [hstep]
  rcases Loader.ensure_cases tk.handed x.hands x.loader language with
    ⟨he, -⟩ | ⟨id, -, -, hid, he⟩
  · rw [he]
    exact .inl rfl
  · rw [he]
    refine .inr ⟨id, (tk.load x.hands.inner id).1, hid, ?_⟩
    cases hr : (tk.load x.hands.inner id).2 with
    | none =>
      left
      simp only [Tokenizer.handed, hr]
      rfl
    | some r =>
      right
      have hlast : (x.hand (tk.load x.hands.inner id).1 id).hands.notifiers[
          x.hands.notifiers.length]? = some ⟨id, true⟩ := List.getElem?_concat_length
      refine ⟨r, ?_⟩
      rw [send_live hlast]
      simp only [Tokenizer.handed, hr]
      rfl

theorem Accounted.drain (h : x.Accounted) (tk : Tokenizer σ) : (x.step tk .drain).Accounted where
  kept := h.kept
  loader := h.loader.drain
  tickets := h.tickets
  order := by
    change (x.drained ++ x.loader.posted) ++ [] = _
    rw [List.append_nil]
    exact h.order

/-- Whatever happens next, the books stay in order. -/
theorem Accounted.step (h : x.Accounted) (tk : Tokenizer σ) (a : Action σ) :
    (x.step tk a).Accounted := by
  cases a with
  | ensure language =>
    rcases step_ensure tk x language with he | ⟨id, inner, hid, he | ⟨r, he⟩⟩
    · rwa [he]
    · rw [he]
      exact h.hand inner hid
    · rw [he]
      exact (h.hand inner hid).send _ _
  | complete k result => exact (h.send k _).send k _
  | drop k => exact h.send k _
  | drain => exact h.drain tk
  | retool inner => exact ⟨h.kept.retool inner, h.loader, h.tickets, h.order⟩

theorem Accounted.run (h : x.Accounted) (tk : Tokenizer σ) (actions : List (Action σ)) :
    (x.run tk actions).Accounted := by
  induction actions generalizing x with
  | nil => exact h
  | cons a as ih => exact ih (h.step tk a)

/-- The books balance: a language is in flight as long as there is one live notifier or one event
that was not drained, and all other loads that were asked for have been drained. -/
theorem Accounted.balance (h : x.Accounted) (id : String) :
    x.hands.live id + x.waiting id = (if id ∈ x.loader.inFlight then 1 else 0) ∧
      x.hands.loads id = x.drained.countP (·.language == id) +
        if id ∈ x.loader.inFlight then 1 else 0 := by
  have hpending : x.hands.live id + x.waiting id = if id ∈ x.loader.inFlight then 1 else 0 := by
    rw [← h.tickets]
    exact h.loader id
  have hreports : x.hands.reports id = x.drained.countP (·.language == id) + x.waiting id := by
    unfold Handed.reports waiting
    rw [← List.countP_append, h.order, List.countP_map]
    rfl
  refine ⟨hpending, ?_⟩
  rw [h.kept.loads, hreports, ← hpending]
  omega

theorem send_notifier {k : Nat} {n : Notifier} (hk : x.hands.notifiers[k]? = some n)
    (result : String → LoadResult) :
    (x.send k result).hands.notifiers[k]? = some ⟨n.language, false⟩ := by
  obtain ⟨id, live⟩ := n
  cases live with
  | true =>
    rw [send_live hk]
    exact List.getElem?_set_self (List.getElem?_eq_some_iff.1 hk).1
  | false =>
    rw [send_used fun j hj => by simp [hk] at hj, hk]

def Action.Ends : Action σ → Nat → Prop
  | .complete j _, k => j = k
  | .drop j, k => j = k
  | _, _ => False

/-- Whichever way a notifier ends, it has reported exactly once by then. -/
theorem Accounted.sentBy_end (h : x.Accounted) (tk : Tokenizer σ) {a : Action σ} {k : Nat}
    {n : Notifier} (ha : a.Ends k) (hk : x.hands.notifiers[k]? = some n) :
    ((x.step tk a).hands.sentBy k).map (·.language) = [n.language] := by
  have hused : (x.step tk a).hands.notifiers[k]? = some ⟨n.language, false⟩ := by
    cases a with
    | complete j result =>
      obtain rfl : j = k := ha
      exact send_notifier (send_notifier hk _) _
    | drop j =>
      obtain rfl : j = k := ha
      exact send_notifier hk _
    | _ => exact ha.elim
  exact (h.step tk a).kept.once k _ hused

theorem inFlight_ensure (tk : Tokenizer σ) (x : Exchange σ) {language id : String}
    (hr : tk.resolve x.hands.inner language = some id) :
    tk.isLoaded x.hands.inner id = true ∨
      id ∈ (x.step tk (.ensure language)).loader.inFlight := by
  have hstep : (x.step tk (.ensure language)).loader =
      (Loader.ensure tk.handed x.hands x.loader language).2.2 := rfl
  rw [hstep]
  rcases Loader.ensure_cases tk.handed x.hands x.loader language with
    ⟨he, hknown⟩ | ⟨j, hj, -, -, he⟩
  · rw [he]
    exact hknown id hr
  · obtain rfl : j = id := Option.some.inj (hj.symm.trans hr)
    rw [he, Loader.started_inFlight]
    exact .inr (by simp)

/-- Loads are neither lost nor started twice nor left in flight, whatever the tokenizer does and
whenever: a language is in flight as long as there is either one live notifier or one event waiting
for it; every notifier yields one event; events are drained in the order they were sent; each load
that was asked for has been drained or is in flight; and asking for a language that is known but not
loaded puts it in flight. -/
theorem loads_accounted (tk : Tokenizer σ) (inner : σ) (actions : List (Action σ)) :
    let x := (start inner).run tk actions
    (∀ id, (id ∈ x.loader.inFlight ↔ x.hands.live id + x.waiting id = 1) ∧
      x.hands.live id + x.waiting id ≤ 1 ∧
        x.hands.loads id = x.drained.countP (·.language == id) +
          if id ∈ x.loader.inFlight then 1 else 0) ∧
    (∀ k n, x.hands.notifiers[k]? = some n →
      (x.hands.sentBy k).map (·.language) = (if n.live then [] else [n.language]) ∧
        ∀ a : Action σ, a.Ends k →
          ((x.step tk a).hands.sentBy k).map (·.language) = [n.language]) ∧
    x.drained ++ x.loader.posted = x.hands.sent.map (·.2) ∧
    ∀ language id, tk.resolve x.hands.inner language = some id →
      tk.isLoaded x.hands.inner id = true ∨
        id ∈ (x.step tk (.ensure language)).loader.inFlight := by
  intro x
  have h : x.Accounted := (accounted_start inner).run tk actions
  refine ⟨fun id => ?_, fun k n hk => ⟨h.kept.once k n hk, fun a ha => h.sentBy_end tk ha hk⟩,
    h.order, fun language id => x.inFlight_ensure tk⟩
  obtain ⟨hpending, hloads⟩ := h.balance id
  refine ⟨?_, ?_, hloads⟩
  · rw [hpending]
    split_ifs with hid
    · simp [hid]
    · simp [hid]
  · rw [hpending]
    split_ifs
    · exact le_rfl
    · exact Nat.zero_le 1

example : ((start []).run .scripted
    [.ensure "js", .ensure "rust", .drop 1, .complete 0 .loaded, .drain]).drained =
      [⟨"rust", Loader.abandoned "rust"⟩, ⟨"javascript", .loaded⟩] := by decide

end Exchange

end FencedCode
