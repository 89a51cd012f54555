import FencedCode.Proofs.Paging

namespace FencedCode

theorem Backend.renderAll_of_loaded {b : Backend Catalog.Registry}
    (htk : b.tokenizer = Catalog.tokenizer) (theme : String) (doc : Document) {bs : List Block}
    (hbs : ∀ b ∈ bs, b.bodyStart < b.bodyStop)
    (hloaded : ∀ block ∈ bs, ∀ id, Catalog.resolve block.language = some id →
      b.state.isLoaded id) : (b.renderAll theme doc bs).2 = b := by
  induction bs with
  | nil => rfl
  | cons block bs ih =>
    obtain ⟨hb, hbs⟩ := List.forall_mem_cons.1 hbs
    obtain ⟨hid, hloaded⟩ := List.forall_mem_cons.1 hloaded
    have hblock : (b.render theme doc block).2 = b := by
      rcases b.render_snd theme doc hb with ⟨id, -, h⟩ | ⟨hready, ⟨h, -⟩ | ⟨id, hres, -, -⟩⟩
      · rw [h, htk]
        obtain ⟨tokenizer, state, loader⟩ := b
        obtain rfl : tokenizer = Catalog.tokenizer := htk
        rfl
      · exact h
      · -- a language that is loaded is ready
        rw [htk] at hready hres
        exact absurd (hid id hres) (Option.filter_eq_none_iff.1 hready id hres)
    rw [renderAll_cons, hblock]
    exact ih hbs hloaded

theorem Loader.Sound.drain_inFlight {l : Loader} (h : l.Sound) (htickets : l.tickets = []) :
    l.drain.2.inFlight = [] := by
  refine List.filter_eq_nil_iff.2 fun id hid => ?_
  have hpending := h id
  rw [if_pos hid, pending, htickets, List.count_nil, Nat.zero_add] at hpending
  have hpos : 0 < l.posted.countP (·.language == id) := by omega
  obtain ⟨e, he, hlanguage⟩ := List.countP_pos_iff.1 hpos
  simpa using ⟨e, he, beq_iff_eq.1 hlanguage⟩

namespace Highlighter

variable {h : Highlighter Catalog.Registry} {t : Text}

/-- The language of every block is loaded or unknown. -/
def Supplied (h : Highlighter Catalog.Registry) (t : Text) : Prop :=
  ∀ b ∈ (Document.ofText t).blocks h.aliases, ∀ id, Catalog.resolve b.language = some id →
    h.backend.state.isLoaded id

/-- Nothing is left to load, and nothing is on its way. -/
structure Settled (h : Highlighter Catalog.Registry) (t : Text) : Prop where
  tokenizer : h.backend.tokenizer = Catalog.tokenizer
  supplied : h.Supplied t
  inFlight : h.backend.loader.inFlight = []

theorem Settled.reconcile (hi : h.Settled t) (dirty : List Interval) :
    (h.reconcile (.ofText t) dirty).Settled t := by
  have hbackend : (h.reconcile (.ofText t) dirty).backend = h.backend := by
    rw [reconcile_backend]
    exact Backend.renderAll_of_loaded hi.tokenizer h.theme (.ofText t) (h.repainted_bodies t dirty)
      fun b hb => hi.supplied b (List.mem_filter.1 hb).1
  have haliases := (h.reconcile_rest t dirty).2.2.2
  refine ⟨hbackend ▸ hi.tokenizer, fun b hb => ?_, hbackend ▸ hi.inFlight⟩
  rw [hbackend]
  exact hi.supplied b (haliases ▸ hb)

theorem Settled.scroll (hi : h.Settled t) (visible : List Interval) :
    (h.scroll (.ofText t) visible).Settled t := by
  obtain ⟨k, dirty, hbackend, -, haliases, -, -, hscroll, -⟩ := h.exists_scroll_eq t visible
  have hk : k.Settled t := by
    refine ⟨hbackend ▸ hi.tokenizer, fun b hb => ?_, hbackend ▸ hi.inFlight⟩
    rw [hbackend]
    exact hi.supplied b (haliases ▸ hb)
  rw [hscroll]
  exact hk.reconcile dirty

/-- When the last loads are over, taking note of them leaves nothing on its way. -/
theorem Fortunate.settled_processLoads (hf : h.Fortunate t) (hs : h.Supplied t)
    (htickets : h.backend.loader.tickets = []) : (h.processLoads (.ofText t)).1.Settled t := by
  have hi : Highlighter.Settled
      { h with backend := { h.backend with loader := h.backend.loader.drain.2 } } t :=
    ⟨hf.tokenizer, hs, hf.loader.drain_inFlight htickets⟩
  unfold Highlighter.processLoads
  dsimp only
  split_ifs
  · exact hi.reconcile _
  · exact hi

end Highlighter

namespace Pager

variable {p q : Pager} {t : Text} {aliases : Aliases}

theorem settled_scrollTo (hd : p.document = .ofText t) (hi : p.highlighter.Settled t) (top : Nat) :
    (p.scrollTo top).highlighter.Settled t := by
  obtain ⟨document, h, name, size, top', message, stale, screen⟩ := p
  obtain rfl : document = .ofText t := hd
  exact hi.scroll _

theorem settled_nextTheme (hd : p.document = .ofText t) (hi : p.highlighter.Settled t) :
    p.nextTheme.highlighter.Settled t := by
  have hi' : Highlighter.Settled
      { p.highlighter with theme := (Theme.after p.highlighter.theme).id } t :=
    ⟨hi.tokenizer, hi.supplied, hi.inFlight⟩
  rw [nextTheme_eq hi.tokenizer, hd]
  exact hi'.reconcile _

theorem Follows.settled_tick (h : p.Follows t aliases) (hs : p.highlighter.Supplied t)
    (htickets : p.highlighter.backend.loader.tickets = []) : p.tick.highlighter.Settled t := by
  obtain ⟨announced, screen, stale, htick⟩ := p.tick_cases
  have hi := h.attentive.settled_processLoads hs htickets
  rw [htick, h.document]
  exact ⟨hi.tokenizer, hi.supplied, hi.inFlight⟩

theorem Follows.settled_step (h : p.Follows t aliases) (hi : p.highlighter.Settled t)
    (hs : Step p q) : q.highlighter.Settled t := by
  have hticket : ∀ id, id ∉ p.highlighter.backend.loader.tickets := fun id hid =>
    List.not_mem_nil (hi.inFlight ▸ h.attentive.loader.ticket_mem hid)
  cases hs with
  | input i hq =>
    obtain ⟨size, screen, message, -, ⟨top, rfl⟩ | ⟨rfl, rfl | rfl⟩⟩ := handle_cases hq
    · exact settled_scrollTo (p := { p with size, screen, message, stale := true }) h.document hi
        top
    · exact settled_nextTheme (p := { p with screen, message, stale := true }) h.document hi
    · exact hi
  | tick => exact h.settled_tick hi.supplied (List.eq_nil_iff_forall_not_mem.2 hticket)
  | publish hid => exact absurd hid (hticket _)
  | report hid => exact absurd hid (hticket _)

theorem Follows.settled_steps (h : p.Follows t aliases) (hi : p.highlighter.Settled t)
    (hs : Relation.ReflTransGen Step p q) : q.highlighter.Settled t := by
  induction hs with
  | refl => exact hi
  | tail hsteps hs ih => exact (h.steps hsteps).settled_step ih hs

end Pager

end FencedCode
