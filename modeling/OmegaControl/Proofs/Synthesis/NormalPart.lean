import OmegaControl.Proofs.Reaching
import OmegaControl.Proofs.Synthesis.Verification

/-!
# Normal parts

The passes over a candidate and its observer end when a pass takes no transition
away. What then holds of every state that was visited holds of all that can be
reached (`NormalPart.run_conforms`): it disables only what it may disable, the
observer disables that, too, and the observer goes along with all that is left.

A pass visits states while transitions are taken away, so what it has seen may not
be true any more when it is done. What is recorded of a visited state is therefore
said under the condition that no transition has been taken away since the pass began
(`NormalPart.Sound`). In the last pass this condition holds to the end.

What going on from a state keeps (`NormalPart.IsKept`) is kept by a whole run that
deletes no state (`NormalPart.run_keeps`), and by every run if deleting the states
that disable too much keeps it, too (`NormalPart.run_carries`). A candidate stays
compliant, for instance (`NormalPart.isKept_compliesObserved`): what is taken from
the observer is disabled somewhere, so it is controllable, and only transitions that
the observer does not have are dropped.
-/

namespace OmegaControl

namespace Automaton

/-! ## Erasing transitions -/

variable {g : Automaton} {x : StateId} {t : Transition} {ts : List Transition}

/-- Erasing transitions changes nothing else. -/
theorem foldl_eraseTransition_eq (g : Automaton) (ts : List Transition) :
    ts.foldl eraseTransition g =
      { g with transitions := (ts.foldl eraseTransition g).transitions } := by
  induction ts generalizing g with
  | nil => rfl
  | cons t ts ih => exact ih (g.eraseTransition t)

/-- What is left when all transitions of a list are erased. -/
theorem mem_transitions_foldl_eraseTransition :
    t ∈ (ts.foldl eraseTransition g).transitions ↔ t ∈ g.transitions ∧ t ∉ ts := by
  induction ts generalizing g with
  | nil => simp
  | cons u ts ih =>
    rw [List.foldl_cons, ih, List.mem_cons, not_or, ← and_assoc]
    refine and_congr_left' ?_
    change t ∈ g.transitions.erase u ↔ _
    rw [Std.ExtTreeSet.mem_erase, Ne, Std.compare_eq_iff_eq, and_comm, eq_comm]

/-- Nothing else depends on transitions. -/
theorem WellFormed.foldl_eraseTransition (hg : g.WellFormed) (ts : List Transition) :
    (ts.foldl eraseTransition g).WellFormed := by
  have hsub : ∀ t ∈ (ts.foldl eraseTransition g).transitions, t ∈ g.transitions :=
    fun _ ht => (mem_transitions_foldl_eraseTransition.mp ht).1
  rw [foldl_eraseTransition_eq]
  exact { hg with
    source_mem := fun t ht => hg.source_mem t (hsub t ht)
    event_mem := fun t ht => hg.event_mem t (hsub t ht)
    target_mem := fun t ht => hg.target_mem t (hsub t ht) }

/-- Erasing transitions leaves all states. -/
theorem WellFormed.isSubautomaton_foldl_eraseTransition (hg : g.WellFormed)
    (ts : List Transition) : (ts.foldl eraseTransition g).IsSubautomaton g := by
  have hsub : ∀ t ∈ (ts.foldl eraseTransition g).transitions, t ∈ g.transitions :=
    fun _ ht => (mem_transitions_foldl_eraseTransition.mp ht).1
  rw [foldl_eraseTransition_eq]
  exact { hg.isPart with transitions_subset := hsub }

/-- The events on which transitions leave a state. -/
theorem mem_activeEvents {ev : EventId} :
    ev ∈ g.activeEvents x ↔ ∃ t ∈ g.transitions, t.source = x ∧ t.event = ev := by
  simp [activeEvents, and_assoc]

end Automaton

namespace NormalPart

/-! ## Three lists side by side -/

section

variable {gs hs os : List Transition}

/-- Attached are the targets of three transitions on one event; dropped are the transitions of the
second list that are not among them. -/
theorem match3_spec (hgs : AscendsByEvent gs) (hhs : AscendsByEvent hs) (hos : AscendsByEvent os) :
    (∀ a, a ∈ (match3 gs hs os).1 ↔ ∃ g ∈ gs, ∃ h ∈ hs, ∃ o ∈ os,
      g.event = h.event ∧ h.event = o.event ∧ ⟨g.target, h.target, o.target⟩ = a) ∧
      ∀ t, t ∈ (match3 gs hs os).2 ↔ t ∈ hs ∧
        ∀ g ∈ gs, g.event = t.event → ∀ o ∈ os, o.event ≠ t.event := by
  fun_induction match3 gs hs os with
  | case1 g gs h hs o os heq attached dropped hrec ih =>
    obtain ⟨hg, hgs⟩ := List.pairwise_cons.mp hgs
    obtain ⟨hh, hhs⟩ := List.pairwise_cons.mp hhs
    obtain ⟨ho, hos⟩ := List.pairwise_cons.mp hos
    have ih := ih hgs hhs hos
    rw [hrec] at ih
    refine ⟨fun a => ?_, fun t => ?_⟩
    · rw [List.mem_cons, ih.1]
      grind
    · dsimp only
      rw [ih.2]
      grind
  | case2 g gs h hs o os hne hlt attached dropped hrec ih =>
    obtain ⟨hh, -⟩ := List.pairwise_cons.mp hhs
    obtain ⟨ho, -⟩ := List.pairwise_cons.mp hos
    have ih := ih hgs hhs.tail hos
    rw [hrec] at ih
    refine ⟨fun a => ?_, fun t => ?_⟩
    · dsimp only
      rw [ih.1]
      grind
    · rw [List.mem_cons, ih.2]
      grind
  | case3 g gs h hs o os hne hge hlt ih =>
    obtain ⟨hh, -⟩ := List.pairwise_cons.mp hhs
    obtain ⟨ih₁, ih₂⟩ := ih hgs hhs hos.tail
    exact ⟨fun a => by rw [ih₁]; grind, fun t => by rw [ih₂]; grind⟩
  | case4 g gs h hs o os hne hge hge' hlt ih =>
    obtain ⟨hh, -⟩ := List.pairwise_cons.mp hhs
    obtain ⟨ih₁, ih₂⟩ := ih hgs.tail hhs hos
    exact ⟨fun a => by rw [ih₁]; grind, fun t => by rw [ih₂]; grind⟩
  | case5 g gs h hs o os hne hge hge' hge'' ih =>
    -- candidate and observer share an event that the plant does not have
    have hshared := Ident.index_inj.mp
      (Nat.le_antisymm (Nat.le_of_not_lt hge') (Nat.le_of_not_lt hge))
    have hother : g.event.index ≠ h.event.index := fun h => hne ⟨Ident.index_inj.mp h, hshared⟩
    obtain ⟨hg, -⟩ := List.pairwise_cons.mp hgs
    obtain ⟨hh, -⟩ := List.pairwise_cons.mp hhs
    obtain ⟨ih₁, ih₂⟩ := ih hgs hhs hos.tail
    exact ⟨fun a => by rw [ih₁]; grind, fun t => by rw [ih₂]; grind⟩
  | case6 gs hs os hnone =>
    rcases gs with _ | ⟨g, gs⟩
    · simp
    rcases hs with _ | ⟨h, hs⟩
    · simp
    rcases os with _ | ⟨o, os⟩
    · simp
    exact absurd (hnone _ _ _ _ _ _ rfl rfl rfl) not_false

end

/-! ## A candidate with its observer -/

/-- The states of plant and observer that go with a state of the candidate. -/
abbrev attach (plantState cls : StateId → StateId) (x : StateId) : AttachedState :=
  ⟨plantState x, x, cls x⟩

/-- The candidate moves along with the plant, and the observer along with the candidate
where it does not lack an event. -/
structure Attached (plant : Automaton) (plantState cls : StateId → StateId)
    (c : ObservedCandidate) : Prop extends Accompanied plant c.cand plantState where
  observer_isDeterministic : c.observer.IsDeterministic
  observer_start : ∀ x ∈ c.cand.initial, cls x ∈ c.observer.initial
  /-- where both have an event they go on to states that go together -/
  follows : ∀ t ∈ c.cand.transitions, ∀ o ∈ c.observer.transitions,
    o.source = cls t.source → o.event = t.event → o.target = cls t.target

/-- What a state of a normal part is like: it disables permitted events only, the observer
disables them as well, and it goes along with what is left. -/
structure Conforms (plant : Automaton) (permitted : EventSet) (plantState cls : StateId → StateId)
    (c : ObservedCandidate) (x : StateId) : Prop where
  /-- an event of the plant stays, or is permitted to be disabled and is disabled by
  the observer -/
  disables : ∀ l ∈ plant.transitions, l.source = plantState x →
    (∃ t ∈ c.cand.transitions, t.source = x ∧ t.event = l.event) ∨
      (l.event ∈ permitted ∧ ∀ o ∈ c.observer.transitions, o.source = cls x → o.event ≠ l.event)
  /-- the observer makes the steps that are left -/
  observed : ∀ t ∈ c.cand.transitions, t.source = x →
    ⟨cls x, t.event, cls t.target⟩ ∈ c.observer.transitions

/-- States and transitions of the candidate are left out, and transitions of the
observer. This is what every step of the pruning does, and it can be repeated
(`Reduct.trans`). -/
structure Reduct (c' c : ObservedCandidate) : Prop where
  cand : c'.cand.IsSubautomaton c.cand
  wellFormed : c'.cand.WellFormed
  /-- the observer still starts where it has started -/
  observer_initial : c'.observer.initial = c.observer.initial
  observer_transitions : ∀ o ∈ c'.observer.transitions, o ∈ c.observer.transitions

/-- The observer goes along with every step of the candidate. -/
def Noticed (cls : StateId → StateId) (c : ObservedCandidate) : Prop :=
  ∀ t ∈ c.cand.transitions, ⟨cls t.source, t.event, cls t.target⟩ ∈ c.observer.transitions

/-- No transition is left out. -/
structure Unchanged (c' c : ObservedCandidate) : Prop where
  cand : ∀ t ∈ c.cand.transitions, t ∈ c'.cand.transitions
  observer : ∀ o ∈ c.observer.transitions, o ∈ c'.observer.transitions

variable {plant : Automaton} {permitted : EventSet} {plantState cls : StateId → StateId}
  {c c' c'' : ObservedCandidate} {s : Pass} {x : StateId} {I : ObservedCandidate → Prop}

theorem Reduct.refl (hwf : c.cand.WellFormed) : Reduct c c :=
  ⟨hwf.isPart.isSubautomaton, hwf, rfl, fun _ ho => ho⟩

/-- Leaving out more. -/
theorem Reduct.trans (h' : Reduct c'' c') (h : Reduct c' c) : Reduct c'' c where
  cand := h'.cand.trans h.cand
  wellFormed := h'.wellFormed
  observer_initial := h'.observer_initial.trans h.observer_initial
  observer_transitions o ho := h.observer_transitions o (h'.observer_transitions o ho)

/-- A part of the candidate, with the observer as it is. -/
theorem Reduct.of_isPart {g : Automaton} (hpart : g.IsPart c.cand) (hwf : g.WellFormed) :
    Reduct { c with cand := g } c := ⟨hpart.isSubautomaton, hwf, rfl, fun _ ho => ho⟩

theorem Reduct.restrictStates (hwf : c.cand.WellFormed) (keep : StateSet) :
    Reduct { c with cand := c.cand.restrictStates keep } c :=
  .of_isPart (hwf.isPart_restrictStates keep) (hwf.restrictStates keep)

/-- Deleting states of the candidate. -/
theorem Reduct.deleteStates (hwf : c.cand.WellFormed) (dead : StateSet) :
    Reduct { c with cand := c.cand.deleteStates dead } c :=
  .of_isPart (hwf.isPart_deleteStates dead) (hwf.deleteStates dead)

/-- What is left has no other words. -/
theorem Reduct.reaches (h : Reduct c' c) {s : List EventId} (hs : c'.cand.Reaches s x) :
    c.cand.Reaches s x := h.cand.reaches hs

/-- What is noticed of all steps is noticed of the steps of a part. -/
theorem Noticed.of_isPart (hc : Noticed cls c) {g : Automaton} (hpart : g.IsPart c.cand) :
    Noticed cls { c with cand := g } := fun t ht => hc t (hpart.mem_transitions.mp ht).1

/-- An observer that goes along does so in one way only. -/
theorem Noticed.follows (hc : Noticed cls c) (ho : c.observer.IsDeterministic) :
    ∀ t ∈ c.cand.transitions, ∀ o ∈ c.observer.transitions,
      o.source = cls t.source → o.event = t.event → o.target = cls t.target :=
  fun t ht o hmem hsource hevent =>
    congrArg (·.target) (ho.hasUniqueSuccessors o hmem _ (hc t ht) hsource hevent)

/-- What goes together still does when something is left out. -/
theorem Attached.of_reduct (ha : Attached plant plantState cls c) (h : Reduct c' c) :
    Attached plant plantState cls c' where
  plant_wellFormed := ha.plant_wellFormed
  plant_isDeterministic := ha.plant_isDeterministic
  isDeterministic := h.cand.isDeterministic ha.isDeterministic
  wellFormed := h.wellFormed
  along t ht := ha.along t (h.cand.transitions_subset t ht)
  start x hx := ha.start x (h.cand.mem_initial.mp hx).1
  observer_isDeterministic := by
    refine Automaton.HasUniqueSuccessors.isDeterministic (fun o ho o' ho' => ?_) ?_
    · exact ha.observer_isDeterministic.hasUniqueSuccessors o (h.observer_transitions o ho) o'
        (h.observer_transitions o' ho')
    · exact h.observer_initial ▸ ha.observer_isDeterministic.1
  observer_start x hx := h.observer_initial ▸ ha.observer_start x (h.cand.mem_initial.mp hx).1
  follows t ht o ho := ha.follows t (h.cand.transitions_subset t ht) o (h.observer_transitions o ho)

/-! ## Visiting a state

A state that disables what is not permitted is critical, and nothing else is done
about it. Any other state takes from the observer what it disables, and then loses
what the observer does not have. -/

/-- The events that the candidate disables in a state. -/
abbrev disabledAt (plant : Automaton) (plantState : StateId → StateId) (c : ObservedCandidate)
    (x : StateId) : EventSet := plant.activeEvents (plantState x) \ c.cand.activeEvents x

/-- A state that disables too much is critical. -/
theorem visit_of_not_subset (h : ¬disabledAt plant plantState s.current x ⊆ permitted) :
    visit plant permitted s (attach plantState cls x) =
      { s with visited := s.visited.insert x, critical := s.critical.insert x } := by
  rw [visit]
  exact if_neg h

/-- How a pass goes on from a state that is not critical. The observer loses what
the state disables first, and then the state loses what the observer does not have,
so the two agree on its events. -/
structure Follows (plant : Automaton) (plantState cls : StateId → StateId) (s : Pass) (x : StateId)
    (s' : Pass) : Prop where
  visited_eq : s'.visited = s.visited.insert x
  critical_eq : s'.critical = s.critical
  reduct : Reduct s'.current s.current
  states_eq : s'.current.cand.states = s.current.cand.states
  /-- the observer loses what the state disables -/
  mem_observer : ∀ o, o ∈ s'.current.observer.transitions ↔ o ∈ s.current.observer.transitions ∧
    ¬(o.source = cls x ∧ o.event ∈ disabledAt plant plantState s.current x)
  /-- the state loses what the observer does not have -/
  mem_cand : ∀ t, t ∈ s'.current.cand.transitions ↔ t ∈ s.current.cand.transitions ∧
    (t.source = x → ∃ o ∈ s'.current.observer.transitions, o.source = cls x ∧ o.event = t.event)
  /-- the successors that are left and were not visited are pending -/
  mem_pending : ∀ q, q ∈ s'.pending ↔ q ∈ s.pending ∨ (q.cand ∉ s'.visited ∧
    ∃ t ∈ s'.current.cand.transitions, t.source = x ∧ q = attach plantState cls t.target)

section

variable (ha : Attached plant plantState cls c)
include ha

/-- Dropped are the transitions on events that the observer does not have. -/
theorem Attached.mem_dropped {t : Transition} : t ∈ (match3 (plant.transitionsFrom (plantState x))
      (c.cand.transitionsFrom x) (c.observer.transitionsFrom (cls x))).2 ↔
    (t ∈ c.cand.transitions ∧ t.source = x) ∧
      ¬∃ o ∈ c.observer.transitions, o.source = cls x ∧ o.event = t.event := by
  rw [(match3_spec (ha.plant_isDeterministic.hasUniqueSuccessors.transitionsFrom_ascends _)
    (ha.isDeterministic.hasUniqueSuccessors.transitionsFrom_ascends _)
    (ha.observer_isDeterministic.hasUniqueSuccessors.transitionsFrom_ascends _)).2,
    Automaton.mem_transitionsFrom]
  refine and_congr_right fun ⟨ht, hsource⟩ => ⟨fun hnone => ?_, fun hnone _ _ _ o ho hevent => ?_⟩
  · rintro ⟨o, ho, hosource, hevent⟩
    subst hsource
    exact hnone _ (Automaton.mem_transitionsFrom.mpr ⟨ha.along t ht, rfl⟩) rfl o
      (Automaton.mem_transitionsFrom.mpr ⟨ho, hosource⟩) hevent
  · obtain ⟨ho, hosource⟩ := Automaton.mem_transitionsFrom.mp ho
    exact hnone ⟨o, ho, hosource, hevent⟩

/-- Attached are the targets of all other transitions: those on events that plant,
candidate and observer have in common. The three lists are matched in one go, which
works because each ascends. -/
theorem Attached.mem_attached {a : AttachedState} :
    a ∈ (match3 (plant.transitionsFrom (plantState x)) (c.cand.transitionsFrom x)
      (c.observer.transitionsFrom (cls x))).1 ↔
    ∃ t ∈ c.cand.transitions, t.source = x ∧ a = attach plantState cls t.target ∧
      ∃ o ∈ c.observer.transitions, o.source = cls x ∧ o.event = t.event := by
  rw [(match3_spec (ha.plant_isDeterministic.hasUniqueSuccessors.transitionsFrom_ascends _)
    (ha.isDeterministic.hasUniqueSuccessors.transitionsFrom_ascends _)
    (ha.observer_isDeterministic.hasUniqueSuccessors.transitionsFrom_ascends _)).1]
  simp only [Automaton.mem_transitionsFrom]
  constructor
  · rintro ⟨l, ⟨hl, hlsource⟩, t, ⟨ht, rfl⟩, o, ⟨ho, hosource⟩, hlt, hto, rfl⟩
    have hltarget : l.target = plantState t.target :=
      ha.target_eq (hlt ▸ Automaton.mk_mem_transitions hl hlsource) ht
    refine ⟨t, ht, rfl, ?_, o, ho, hosource, hto.symm⟩
    rw [attach, hltarget, ha.follows t ht o ho hosource hto.symm]
  · rintro ⟨t, ht, rfl, rfl, o, ho, hosource, hevent⟩
    refine ⟨_, ⟨ha.along t ht, rfl⟩, t, ⟨ht, rfl⟩, o, ⟨ho, hosource⟩, rfl, hevent.symm, ?_⟩
    rw [attach, ha.follows t ht o ho hosource hevent]

end

/-- The visit of any other state. The three lists of transitions are those of states
that go together, so their targets go together, too. -/
theorem follows_visit (ha : Attached plant plantState cls s.current)
    (h : disabledAt plant plantState s.current x ⊆ permitted) :
    Follows plant plantState cls s x (visit plant permitted s (attach plantState cls x)) := by
  have hwf := ha.wellFormed
  rw [visit]
  dsimp only
  rw [if_pos h]
  generalize hhidden : (s.current.observer.transitionsFrom (cls x)).filter
    (·.event ∈ disabledAt plant plantState s.current x) = hidden
  have hobserver : ∀ o, o ∈ (hidden.foldl Automaton.eraseTransition s.current.observer).transitions ↔
      o ∈ s.current.observer.transitions ∧
        ¬(o.source = cls x ∧ o.event ∈ disabledAt plant plantState s.current x) := by
    intro o
    rw [Automaton.mem_transitions_foldl_eraseTransition, ← hhidden, List.mem_filter,
      Automaton.mem_transitionsFrom, decide_eq_true_iff, and_assoc]
    exact and_congr_right fun ho => by rw [and_iff_right ho]
  have hframe := Automaton.foldl_eraseTransition_eq s.current.observer hidden
  generalize hidden.foldl Automaton.eraseTransition s.current.observer = observer
    at hobserver hframe
  have hreduct : ∀ cand : Automaton, cand.IsSubautomaton s.current.cand → cand.WellFormed →
      Reduct ⟨observer, cand⟩ s.current := fun cand hsub hcand =>
    ⟨hsub, hcand, by rw [hframe], fun o ho => ((hobserver o).mp ho).1⟩
  -- what is matched are the transitions of the candidate and of what is left of the observer
  have ha' := ha.of_reduct (hreduct _ hwf.isPart.isSubautomaton hwf)
  generalize hmatch : match3 (plant.transitionsFrom (plantState x))
    (s.current.cand.transitionsFrom x) (observer.transitionsFrom (cls x)) = out
  have hattached := fun a => ha'.mem_attached (x := x) (a := a)
  dsimp only at hattached
  rw [hmatch] at hattached
  have hmem : ∀ t, t ∈ (out.2.foldl Automaton.eraseTransition s.current.cand).transitions ↔
      t ∈ s.current.cand.transitions ∧
        (t.source = x → ∃ o ∈ observer.transitions, o.source = cls x ∧ o.event = t.event) := by
    intro t
    rw [Automaton.mem_transitions_foldl_eraseTransition, ← hmatch, ha'.mem_dropped]
    exact and_congr_right fun ht => by rw [and_iff_right ht, not_and_not_right]
  refine ⟨rfl, rfl, ?_, ?_, hobserver, hmem, fun q => ?_⟩
  · exact hreduct _ (hwf.isSubautomaton_foldl_eraseTransition out.2)
      (hwf.foldl_eraseTransition out.2)
  · rw [Automaton.foldl_eraseTransition_eq]
  · simp only [List.mem_append, List.mem_reverse, List.mem_filter, decide_eq_true_iff]
    rw [or_comm, and_comm, hattached]
    refine or_congr_right (and_congr_right fun _ => exists_congr fun t => ?_)
    rw [hmem, and_assoc]
    refine and_congr_right fun _ => ⟨?_, ?_⟩
    · rintro ⟨hsource, heq, ho⟩
      exact ⟨fun _ => ho, hsource, heq⟩
    · rintro ⟨ho, hsource, heq⟩
      exact ⟨hsource, heq, ho hsource⟩

/-- If nothing is taken away on the way, the state is as it should be. An event of
the plant that the candidate lacks is one of `disabledAt`, so it is permitted, and
the observer does not have it either. -/
theorem Follows.conforms {s' : Pass} (hf : Follows plant plantState cls s x s')
    (ha : Attached plant plantState cls s.current) (hr : Reduct s.current c)
    (h : disabledAt plant plantState s.current x ⊆ permitted) (hu : Unchanged s'.current c) :
    Conforms plant permitted plantState cls c x := by
  constructor
  · intro l hl hsource
    by_cases hactive : l.event ∈ s.current.cand.activeEvents x
    · obtain ⟨t, ht, htsource, hevent⟩ := Automaton.mem_activeEvents.mp hactive
      exact .inl ⟨t, hr.cand.transitions_subset t ht, htsource, hevent⟩
    · have hdisabled : l.event ∈ disabledAt plant plantState s.current x :=
        IdentSet.mem_sdiff.mpr ⟨Automaton.mem_activeEvents.mpr ⟨l, hl, hsource, rfl⟩, hactive⟩
      refine .inr ⟨h _ hdisabled, fun o ho hosource hevent => ?_⟩
      exact ((hf.mem_observer o).mp (hu.observer o ho)).2 ⟨hosource, hevent ▸ hdisabled⟩
  · intro t ht hsource
    obtain ⟨ht', hkept⟩ := (hf.mem_cand t).mp (hu.cand t ht)
    obtain ⟨o, ho, hosource, hevent⟩ := hkept hsource
    have ho' := hf.reduct.observer_transitions o ho
    rw [← hsource] at hosource ⊢
    rw [← ha.follows t ht' o ho' hosource hevent, ← hevent, ← hosource]
    exact hr.observer_transitions o ho'

/-! ## One pass -/

/-- What a pass over `c` keeps true: pending states go together, a state is critical only if
it disabled what is not permitted, and as long as no transition is taken away, a visited state
that is not critical is as it should be and has successors that were visited or are pending. -/
structure Sound (plant : Automaton) (permitted : EventSet) (plantState cls : StateId → StateId)
    (I : ObservedCandidate → Prop) (c : ObservedCandidate) (s : Pass) : Prop where
  attached : Attached plant plantState cls s.current
  reduct : Reduct s.current c
  states_eq : s.current.cand.states = c.cand.states
  pending_eq : ∀ p ∈ s.pending, p = attach plantState cls p.cand ∧ p.cand ∈ c.cand.states
  /-- a critical state has disabled too much at the time it was visited -/
  critical : ∀ x ∈ s.critical, ∃ d, I d ∧ ¬disabledAt plant plantState d x ⊆ permitted
  /-- of what was visited, this is said only as long as no transition is taken away -/
  closed : Unchanged s.current c → ∀ x ∈ s.visited, x ∈ s.critical ∨
    Conforms plant permitted plantState cls c x ∧ ∀ t ∈ c.cand.transitions, t.source = x →
      t.target ∈ s.visited ∨ ∃ p ∈ s.pending, p.cand = t.target
  kept : I s.current

/-- Going on from a state keeps a property of candidate and observer. As long as no
state is deleted, a pass does nothing else. -/
def IsKept (plant : Automaton) (permitted : EventSet) (plantState cls : StateId → StateId)
    (I : ObservedCandidate → Prop) : Prop :=
  ∀ (s : Pass) (x : StateId) (s' : Pass), Attached plant plantState cls s.current →
    x ∈ s.current.cand.states → disabledAt plant plantState s.current x ⊆ permitted →
    Follows plant plantState cls s x s' → I s.current → I s'.current

/-- Deleting states keeps a property of candidate and observer if each of them disabled more than
it may while the candidate had the property. -/
def IsKeptByDeletion (plant : Automaton) (permitted : EventSet) (plantState : StateId → StateId)
    (I : ObservedCandidate → Prop) : Prop :=
  ∀ (d : ObservedCandidate) (dead : StateSet), I d →
    (∀ x ∈ dead, ∃ d', I d' ∧ ¬disabledAt plant plantState d' x ⊆ permitted) →
    I { d with cand := d.cand.deleteStates dead }

section

variable (hs : Sound plant permitted plantState cls I c
  { s with pending := attach plantState cls x :: s.pending })
include hs

/-- If the next pending state is visited, what was pending has been visited then, or still is. -/
theorem Sound.closed_insert {pending : List AttachedState} (hsub : ∀ p ∈ s.pending, p ∈ pending)
    (hu : Unchanged s.current c) {y : StateId} (hy : y ∈ s.visited) : y ∈ s.critical ∨
      Conforms plant permitted plantState cls c y ∧ ∀ t ∈ c.cand.transitions, t.source = y →
        t.target ∈ s.visited.insert x ∨ ∃ p ∈ pending, p.cand = t.target := by
  refine (hs.closed hu y hy).imp_right fun ⟨hc, hnext⟩ => ⟨hc, fun t ht hsource => ?_⟩
  rcases hnext t ht hsource with hvisited | ⟨p, hp, hcand⟩
  · exact .inl (IdentSet.mem_insert.mpr (.inr hvisited))
  · rcases List.mem_cons.mp hp with rfl | hp
    · exact .inl (IdentSet.mem_insert.mpr (.inl hcand.symm))
    · exact .inr ⟨p, hsub p hp, hcand⟩

/-- Going on from the next pending state, when it disables permitted events only.
What it leads to becomes pending, and all that was known of other states stays,
since transitions are only taken away. -/
theorem Sound.follow {s' : Pass} (hI : IsKept plant permitted plantState cls I)
    (h : disabledAt plant plantState s.current x ⊆ permitted)
    (hf : Follows plant plantState cls s x s') : Sound plant permitted plantState cls I c s' := by
  have ha : Attached plant plantState cls s.current := hs.attached
  have hr : Reduct s.current c := hs.reduct
  have hr' := hf.reduct.trans hr
  have hx : x ∈ s.current.cand.states :=
    hs.states_eq.symm ▸ (hs.pending_eq _ List.mem_cons_self).2
  refine ⟨ha.of_reduct hf.reduct, hr', hf.states_eq.trans hs.states_eq, fun p hp => ?_,
    hf.critical_eq ▸ hs.critical, fun hu y hy => ?_, hI s x s' ha hx h hf hs.kept⟩
  · rcases (hf.mem_pending p).mp hp with hp | ⟨-, t, ht, -, rfl⟩
    · exact hs.pending_eq p (List.mem_cons_of_mem _ hp)
    · exact ⟨rfl, hr'.cand.states_subset _ (hr'.wellFormed.target_mem t ht)⟩
  · -- where nothing is deleted `x` conforms, and its targets are visited or pending
    -- now
    rw [hf.critical_eq]
    rw [hf.visited_eq] at hy ⊢
    rcases IdentSet.mem_insert.mp hy with rfl | hy
    · refine .inr ⟨hf.conforms ha hr h hu, fun t ht hsource => ?_⟩
      by_cases hvisited : t.target ∈ s'.visited
      · exact .inl (hf.visited_eq ▸ hvisited)
      · refine .inr ⟨attach plantState cls t.target, (hf.mem_pending _).mpr (.inr ?_), rfl⟩
        exact ⟨hvisited, t, hu.cand t ht, hsource, rfl⟩
    · refine hs.closed_insert (fun p hp => (hf.mem_pending p).mpr (.inl hp)) ⟨fun t ht => ?_,
        fun o ho => ?_⟩ hy
      · exact ((hf.mem_cand t).mp (hu.cand t ht)).1
      · exact hf.reduct.observer_transitions o (hu.observer o ho)

/-- Finding the next pending state critical. -/
theorem Sound.insert_critical (h : ¬disabledAt plant plantState s.current x ⊆ permitted) :
    Sound plant permitted plantState cls I c
      { s with visited := s.visited.insert x, critical := s.critical.insert x } := by
  refine ⟨hs.attached, hs.reduct, hs.states_eq,
    fun p hp => hs.pending_eq p (List.mem_cons_of_mem _ hp), fun y hy => ?_, fun hu y hy => ?_,
    hs.kept⟩
  · rcases IdentSet.mem_insert.mp hy with rfl | hy
    · exact ⟨s.current, hs.kept, h⟩
    · exact hs.critical y hy
  · rcases IdentSet.mem_insert.mp hy with rfl | hy
    · exact .inl (IdentSet.mem_insert.mpr (.inl rfl))
    · exact (hs.closed_insert (fun _ hp => hp) hu hy).imp_left
        fun hy => IdentSet.mem_insert.mpr (.inr hy)

/-- Visiting the next pending state. -/
theorem Sound.visit (hI : IsKept plant permitted plantState cls I) :
    Sound plant permitted plantState cls I c
      (visit plant permitted s (attach plantState cls x)) := by
  by_cases h : disabledAt plant plantState s.current x ⊆ permitted
  · exact hs.follow hI h (follows_visit hs.attached h)
  · rw [visit_of_not_subset h]
    exact hs.insert_critical h

end

/-- States that have been visited need not be visited again. They are dropped from
the front of the list only, so some may be left further down, and they are dropped
when their turn comes. -/
theorem Sound.dropVisited (hs : Sound plant permitted plantState cls I c s)
    {rest : List AttachedState} (hrest : s.pending.dropWhile (·.cand ∈ s.visited) = rest) :
    Sound plant permitted plantState cls I c { s with pending := rest } ∧
      ∀ p ∈ s.pending, p.cand ∈ s.visited ∨ p ∈ rest := by
  have hsplit : ∀ p ∈ s.pending, p.cand ∈ s.visited ∨ p ∈ rest := by
    intro p hp
    rw [← List.takeWhile_append_dropWhile (p := (·.cand ∈ s.visited)) (l := s.pending), hrest] at hp
    rcases List.mem_append.mp hp with hp | hp
    · exact .inl (of_decide_eq_true (List.all_eq_true.mp List.all_takeWhile p hp))
    · exact .inr hp
  have hsub : ∀ p ∈ rest, p ∈ s.pending := fun p hp =>
    (List.dropWhile_suffix (·.cand ∈ s.visited)).subset (hrest ▸ hp)
  refine ⟨{ hs with
    pending_eq := fun p hp => hs.pending_eq p (hsub p hp)
    closed := fun hu x hx => ?_ }, hsplit⟩
  refine (hs.closed hu x hx).imp_right fun ⟨hc, hnext⟩ => ⟨hc, fun t ht hsource => ?_⟩
  rcases hnext t ht hsource with hvisited | ⟨p, hp, hcand⟩
  · exact .inl hvisited
  · exact (hsplit p hp).imp (fun h => hcand ▸ h) fun h => ⟨p, h, hcand⟩

/-- A visited state stays visited. -/
theorem mem_visited_walk (plant : Automaton) (permitted : EventSet) {s : Pass}
    (hx : x ∈ s.visited) : x ∈ (walk plant permitted s).visited := by
  fun_induction walk plant permitted s with
  | case1 => exact hx
  | case2 s p rest _ ih =>
    refine ih ?_
    rw [visited_visit]
    exact IdentSet.mem_insert.mpr (.inr hx)

/-- What is pending stays so, and is dropped only when it is visited. -/
theorem mem_pending_visit (plant : Automaton) (permitted : EventSet) {s : Pass}
    {p q : AttachedState} (hq : q ∈ s.pending) : q ∈ (visit plant permitted s p).pending := by
  rw [visit]
  dsimp only
  split
  · exact List.mem_append_right _ hq
  · exact hq

/-- **The walk**: at its end, whatever was or is pending has been visited. With the
invariant this makes the visited states closed under steps, so every state that is
reached has been looked at. -/
theorem Sound.walk (hI : IsKept plant permitted plantState cls I)
    (hs : Sound plant permitted plantState cls I c s) :
    Sound plant permitted plantState cls I c (walk plant permitted s) ∧
      (∀ p ∈ s.pending, p.cand ∈ (walk plant permitted s).visited) ∧
      ∀ p ∈ (walk plant permitted s).pending, p.cand ∈ (walk plant permitted s).visited := by
  fun_induction NormalPart.walk plant permitted s with
  | case1 s hdone =>
    have hvisited : ∀ p ∈ s.pending, p.cand ∈ s.visited := fun p hp =>
      ((hs.dropVisited hdone).2 p hp).resolve_right List.not_mem_nil
    exact ⟨hs, hvisited, hvisited⟩
  | case2 s p rest hdrop ih =>
    obtain ⟨hs', hsplit⟩ := hs.dropVisited hdrop
    have hp := (hs'.pending_eq p List.mem_cons_self).1
    have hvisit := hs'
    rw [hp] at hvisit
    obtain ⟨hsound, hpending, hdone⟩ := ih (hp ▸ Sound.visit hvisit hI)
    -- what is visited stays visited, so pairs done now are done in the end
    have hmono : ∀ x ∈ s.visited.insert p.cand, x ∈ (NormalPart.walk plant permitted
        (NormalPart.visit plant permitted { s with pending := rest } p)).visited := by
      intro x hx
      refine mem_visited_walk plant permitted ?_
      rwa [visited_visit]
    refine ⟨hsound, fun q hq => ?_, hdone⟩
    rcases hsplit q hq with hq | hq
    · exact hmono _ (IdentSet.mem_insert.mpr (.inr hq))
    · rcases List.mem_cons.mp hq with rfl | hq
      · exact hmono _ (IdentSet.mem_insert.mpr (.inl rfl))
      · exact hpending q (mem_pending_visit plant permitted hq)

/-! ## When nothing is taken away -/

/-- A part of a set of transitions that is as large as the set is all of it. -/
theorem mem_of_size_le {ts us : Std.ExtTreeSet Transition} (hsub : ∀ t ∈ ts, t ∈ us) :
    ts.size ≤ us.size ∧ (us.size ≤ ts.size → ∀ t ∈ us, t ∈ ts) := by
  have hnodup : ts.toList.Nodup := ts.ordered_toList.imp fun {s t} hlt heq => by
    have hsame : compare s t = .eq := heq ▸ Std.ReflCmp.compare_self
    rw [hsame] at hlt
    cases hlt
  have hsubperm : ts.toList.Subperm us.toList := List.subperm_of_subset hnodup fun t ht =>
    Std.ExtTreeSet.mem_toList.mpr (hsub t (Std.ExtTreeSet.mem_toList.mp ht))
  rw [← Std.ExtTreeSet.length_toList, ← Std.ExtTreeSet.length_toList]
  refine ⟨hsubperm.length_le, fun hle t ht => ?_⟩
  have hperm := hsubperm.perm_of_length_le hle
  exact Std.ExtTreeSet.mem_toList.mp (hperm.mem_iff.mpr (Std.ExtTreeSet.mem_toList.mpr ht))

/-- If there are as many transitions as before, none is left out. -/
theorem Reduct.unchanged (h : Reduct c' c) (hcount : transitionCount c ≤ transitionCount c') :
    Unchanged c' c := by
  have hcand := mem_of_size_le h.cand.transitions_subset
  have hobserver := mem_of_size_le h.observer_transitions
  simp only [transitionCount, Automaton.transitionCount] at hcount
  exact ⟨hcand.2 (by omega), hobserver.2 (by omega)⟩

/-- To conform is a matter of transitions. -/
theorem Conforms.of_unchanged (h : Conforms plant permitted plantState cls c x)
    (hr : Reduct c' c) (hu : Unchanged c' c) : Conforms plant permitted plantState cls c' x where
  disables l hl hsource := by
    rcases h.disables l hl hsource with ⟨t, ht, htsource, hevent⟩ | ⟨hev, hnone⟩
    · exact .inl ⟨t, hu.cand t ht, htsource, hevent⟩
    · exact .inr ⟨hev, fun o ho => hnone o (hr.observer_transitions o ho)⟩
  observed t ht hsource := hu.observer _ (h.observed t (hr.cand.transitions_subset t ht) hsource)

section

variable {x₀ : StateId} (hI : IsKept plant permitted plantState cls I)
  (ha : Attached plant plantState cls c) (hkept : I c)
include hI ha hkept

/-- The walk of a pass visits all that is pending. -/
theorem sound_walk (hx₀ : x₀ ∈ c.cand.initial) {s : Pass}
    (hs : walk plant permitted ⟨c, [attach plantState cls x₀], ∅, ∅⟩ = s) :
    Sound plant permitted plantState cls I c s ∧ x₀ ∈ s.visited ∧
      ∀ p ∈ s.pending, p.cand ∈ s.visited := by
  have hstart : Sound plant permitted plantState cls I c ⟨c, [attach plantState cls x₀], ∅, ∅⟩ := by
    refine ⟨ha, .refl ha.wellFormed, rfl, fun p hp => ?_,
      fun _ hx => absurd hx IdentSet.not_mem_empty,
      fun _ _ hx => absurd hx IdentSet.not_mem_empty, hkept⟩
    rw [List.mem_singleton.mp hp]
    exact ⟨rfl, ha.wellFormed.initial_subset x₀ hx₀⟩
  obtain ⟨hsound, hfirst, hdone⟩ := Sound.walk hI hstart
  rw [hs] at hsound hfirst hdone
  exact ⟨hsound, hfirst (attach plantState cls x₀) List.mem_cons_self, hdone⟩

/-- If a pass deletes no state, it keeps what going on from a state keeps. -/
theorem pass_keeps (hx₀ : x₀ ∈ c.cand.initial) (hc' : pass plant permitted
      (attach plantState cls x₀) c = c')
    (hlarge : c.cand.size ≤ c'.cand.size) :
    I c' ∧ c'.cand.states = c.cand.states := by
  rw [pass] at hc'
  generalize hwalk : walk plant permitted ⟨c, [attach plantState cls x₀], ∅, ∅⟩ = s at hc'
  obtain ⟨hs, -⟩ := sound_walk hI ha hkept hx₀ hwalk
  have heq : s.current.cand.deleteStates s.critical = s.current.cand := by
    refine Automaton.eq_of_size_le_deleteStates ?_
    have hsame : s.current.cand.size = c.cand.size := congrArg IdentSet.size hs.states_eq
    rw [hsame]
    rw [← hc'] at hlarge
    exact hlarge
  rw [heq] at hc'
  rw [← hc']
  exact ⟨hs.kept, hs.states_eq⟩

/-- A pass keeps what going on from a state keeps and deleting critical states does. -/
theorem pass_carries (hdelete : IsKeptByDeletion plant permitted plantState I)
    (hx₀ : x₀ ∈ c.cand.initial) :
    I (pass plant permitted (attach plantState cls x₀) c) := by
  rw [pass]
  generalize hwalk : walk plant permitted ⟨c, [attach plantState cls x₀], ∅, ∅⟩ = s
  obtain ⟨hs, -⟩ := sound_walk hI ha hkept hx₀ hwalk
  exact hdelete s.current s.critical hs.kept hs.critical

end

/-- **One pass**. If it takes no transition away, all that can be reached conforms.
What can be reached has been visited, and no critical state is left on the way. -/
theorem pass_spec {x₀ : StateId} (ha : Attached plant plantState cls c) (hx₀ : x₀ ∈ c.cand.initial)
    (hc' : pass plant permitted (attach plantState cls x₀) c = c') : Reduct c' c ∧
    (transitionCount c ≤ transitionCount c' → x₀ ∈ c'.cand.states → ∀ ts, c'.cand.IsPath x₀ ts →
      Conforms plant permitted plantState cls c' (endOf x₀ ts)) := by
  have hI : IsKept plant permitted plantState cls fun _ => True := fun _ _ _ _ _ _ _ _ => trivial
  rw [pass] at hc'
  generalize hwalk : walk plant permitted ⟨c, [attach plantState cls x₀], ∅, ∅⟩ = s at hc'
  obtain ⟨hs, hfirst, hdone⟩ := sound_walk hI ha trivial hx₀ hwalk
  have hwf := hs.attached.wellFormed
  have hcritical : ∀ x ∈ c'.cand.states, x ∉ s.critical := by
    intro x hx
    rw [← hc'] at hx
    exact (Automaton.mem_states_deleteStates.mp hx).2
  have hdeleted : Reduct c' s.current := by
    rw [← hc']
    exact Reduct.deleteStates hwf s.critical
  have hr := hdeleted.trans hs.reduct
  refine ⟨hr, fun hcount hx₀' ts hts => ?_⟩
  have hu := hr.unchanged hcount
  have hclosed := hs.closed ⟨fun t ht => hdeleted.cand.transitions_subset t (hu.cand t ht),
    fun o ho => hdeleted.observer_transitions o (hu.observer o ho)⟩
  -- visited states that are left have visited successors, and the pass began with
  -- the first state
  have hvisited : endOf x₀ ts ∈ s.visited := by
    induction ts using List.reverseRecOn with
    | nil => exact hfirst
    | append_singleton ts t ih =>
      obtain ⟨hts, ht, hsource⟩ := Automaton.isPath_concat.mp hts
      have hout := hcritical _ (hts.endOf_mem hr.wellFormed hx₀')
      obtain ⟨-, hnext⟩ := (hclosed _ (ih hts)).resolve_left hout
      rw [endOf_concat]
      rcases hnext t (hr.cand.transitions_subset t ht) hsource with htarget | ⟨p, hp, hcand⟩
      · exact htarget
      · exact hcand ▸ hdone p hp
  have hout := hcritical _ (hts.endOf_mem hr.wellFormed hx₀')
  exact ((hclosed _ hvisited).resolve_left hout).1.of_unchanged hr hu

/-- The states that a pass starts from go together. -/
theorem Attached.start_eq (ha : Attached plant plantState cls c) {start z : StateId}
    (hplant : ∀ x ∈ c.cand.initial, plantState x = start) (hx : c.cand.initialState? = some x)
    (hz : c.observer.initialState? = some z) :
    x ∈ c.cand.initial ∧ ⟨start, x, z⟩ = attach plantState cls x := by
  have hx := (Automaton.initialState?_eq_some_iff ha.isDeterministic).mp hx
  have hz := (Automaton.initialState?_eq_some_iff ha.observer_isDeterministic).mp hz
  refine ⟨hx, ?_⟩
  rw [attach, hplant x hx,
    ha.observer_isDeterministic.initial_unique hz (ha.observer_start x hx)]

variable (permitted) in
/-- **All passes together** leave a candidate all of whose states conform that can
be reached. It is the last pass that shows it; the others only leave something out. -/
theorem run_conforms {start : StateId} (ha : Attached plant plantState cls c)
    (hplant : ∀ x ∈ c.cand.initial, plantState x = start) :
    Reduct (run plant permitted start c) c ∧
      ∀ x ∈ (run plant permitted start c).cand.initial, ∀ ts,
        (run plant permitted start c).cand.IsPath x ts →
          Conforms plant permitted plantState cls (run plant permitted start c) (endOf x ts) := by
  fun_induction run plant permitted start c with
  | case1 c x z hz hx next hlt ih =>
    obtain ⟨hmem, heq⟩ := ha.start_eq hplant hx hz
    have hnext : pass plant permitted (attach plantState cls x) c = next := by rw [← heq]
    obtain ⟨hr, -⟩ := pass_spec ha hmem hnext
    obtain ⟨hr', hconforms⟩ :=
      ih (ha.of_reduct hr) fun x hx => hplant x (hr.cand.mem_initial.mp hx).1
    exact ⟨hr'.trans hr, hconforms⟩
  | case2 c x z hz hx next hge =>
    obtain ⟨hmem, heq⟩ := ha.start_eq hplant hx hz
    have hnext : pass plant permitted (attach plantState cls x) c = next := by rw [← heq]
    -- a pass that deletes nothing has found that all it visited conforms
    obtain ⟨hr, hconforms⟩ := pass_spec ha hmem hnext
    refine ⟨hr, fun y hy => ?_⟩
    obtain ⟨hy', hstate⟩ := hr.cand.mem_initial.mp hy
    obtain rfl := ha.isDeterministic.initial_unique hmem hy'
    exact hconforms (Nat.le_of_not_lt hge) hstate
  | case3 c hnone =>
    refine ⟨.refl ha.wellFormed, fun x hx => ?_⟩
    have hx' := (Automaton.initialState?_eq_some_iff ha.isDeterministic).mpr hx
    have hz := (Automaton.initialState?_eq_some_iff ha.observer_isDeterministic).mpr
      (ha.observer_start x hx)
    exact absurd (hnone x (cls x) hx' hz) not_false

/-- If no state is deleted in the end, none was deleted on the way. Each pass only
deletes, so the sizes in between are squeezed in, and whatever every step keeps that
deletes no state has been kept. -/
theorem run_keeps {start : StateId} (hI : IsKept plant permitted plantState cls I)
    (ha : Attached plant plantState cls c) (hkept : I c)
    (hplant : ∀ x ∈ c.cand.initial, plantState x = start)
    (hlarge : c.cand.size ≤ (run plant permitted start c).cand.size) :
    I (run plant permitted start c) ∧
      (run plant permitted start c).cand.states = c.cand.states := by
  fun_induction run plant permitted start c with
  | case1 c x z hz hx next hlt ih =>
    obtain ⟨hmem, heq⟩ := ha.start_eq hplant hx hz
    have hnext : pass plant permitted (attach plantState cls x) c = next := by rw [← heq]
    obtain ⟨hr, -⟩ := pass_spec ha hmem hnext
    have hle := size_run_le plant permitted start next
    have hle' := size_pass_le plant permitted ⟨start, x, z⟩ c
    obtain ⟨hnext, hstates⟩ := pass_keeps hI ha hkept hmem hnext
      (Nat.le_trans hlarge hle)
    obtain ⟨hrun, hstates'⟩ := ih (ha.of_reduct hr) hnext
      (fun x hx => hplant x (hr.cand.mem_initial.mp hx).1)
      (Nat.le_trans hle' hlarge)
    exact ⟨hrun, hstates'.trans hstates⟩
  | case2 c x z hz hx next hge =>
    obtain ⟨hmem, heq⟩ := ha.start_eq hplant hx hz
    have hnext : pass plant permitted (attach plantState cls x) c = next := by rw [← heq]
    exact pass_keeps hI ha hkept hmem hnext hlarge
  | case3 c hnone => exact ⟨hkept, rfl⟩

/-- All passes together keep what each of them does. -/
theorem run_carries {start : StateId} (hI : IsKept plant permitted plantState cls I)
    (hdelete : IsKeptByDeletion plant permitted plantState I)
    (ha : Attached plant plantState cls c) (hkept : I c)
    (hplant : ∀ x ∈ c.cand.initial, plantState x = start) : I (run plant permitted start c) := by
  fun_induction run plant permitted start c with
  | case1 c x z hz hx next hlt ih =>
    obtain ⟨hmem, heq⟩ := ha.start_eq hplant hx hz
    have hnext : pass plant permitted (attach plantState cls x) c = next := by rw [← heq]
    obtain ⟨hr, -⟩ := pass_spec ha hmem hnext
    exact ih (ha.of_reduct hr) (hnext ▸ pass_carries hI ha hkept hdelete hmem)
      fun x hx => hplant x (hr.cand.mem_initial.mp hx).1
  | case2 c x z hz hx next hge =>
    obtain ⟨hmem, heq⟩ := ha.start_eq hplant hx hz
    have hnext : pass plant permitted (attach plantState cls x) c = next := by rw [← heq]
    exact hnext ▸ pass_carries hI ha hkept hdelete hmem
  | case3 c hnone => exact hkept

/-! ## What going on from a state keeps -/

/-- Every state complies, and the observer goes along with uncontrollable events. A
pass takes controllable events away only, so it keeps both as long as no state is
deleted. -/
structure CompliesObserved (plant : Automaton) (controllable : EventSet)
    (plantState cls : StateId → StateId) (c : ObservedCandidate) : Prop where
  complies : ∀ x ∈ c.cand.states,
    CompliesWithin plant controllable c.cand plantState Set.univ x
  observed : ∀ t ∈ c.cand.transitions, t.event ∉ controllable →
    ⟨cls t.source, t.event, cls t.target⟩ ∈ c.observer.transitions

/-- What a compliant candidate disables is controllable, so the observer loses controllable
events only, and so does the candidate. -/
theorem isKept_compliesObserved (plant : Automaton) (permitted controllable : EventSet)
    (plantState cls : StateId → StateId) :
    IsKept plant permitted plantState cls
      (CompliesObserved plant controllable plantState cls) := by
  intro s x s' ha hx _ hf hc
  have hdisabled : ∀ ev ∈ disabledAt plant plantState s.current x, ev ∈ controllable := by
    intro ev hev
    obtain ⟨hplant, hcand⟩ := IdentSet.mem_sdiff.mp hev
    obtain ⟨l, hl, hsource, rfl⟩ := Automaton.mem_activeEvents.mp hplant
    by_contra hout
    obtain ⟨t, ht, htsource, hevent, -⟩ := hc.complies x hx l hl hsource hout
    exact hcand (Automaton.mem_activeEvents.mpr ⟨t, ht, htsource, hevent⟩)
  have hobserved : ∀ t ∈ s.current.cand.transitions, t.event ∉ controllable →
      ⟨cls t.source, t.event, cls t.target⟩ ∈ s'.current.observer.transitions := fun t ht hev =>
    (hf.mem_observer _).mpr ⟨hc.observed t ht hev, fun ⟨_, hmem⟩ => hev (hdisabled t.event hmem)⟩
  refine ⟨fun y hy l hl hsource hev => ?_,
    fun t ht hev => hobserved t ((hf.mem_cand t).mp ht).1 hev⟩
  obtain ⟨t, ht, htsource, hevent, -⟩ := hc.complies y (hf.states_eq ▸ hy) l hl hsource hev
  rw [← hevent] at hev
  refine ⟨t, (hf.mem_cand t).mpr ⟨ht, fun hsx => ?_⟩, htsource, hevent, trivial⟩
  exact ⟨_, hobserved t ht hev, congrArg cls hsx, rfl⟩

end NormalPart

/-! ## The normal part -/

section

open NormalPart

variable {plant : Automaton} {permitted : EventSet} {plantState cls : StateId → StateId}
  {c : ObservedCandidate} {I : ObservedCandidate → Prop}
  (ha : Attached plant plantState cls c)
include ha

/-- The candidate starts where the plant starts. -/
theorem NormalPart.Attached.plantState_eq {start x : StateId} (hx : x ∈ c.cand.initial)
    (hstart : plant.initialState? = some start) : plantState x = start :=
  ha.plant_isDeterministic.initial_unique (ha.start x hx)
    ((Automaton.initialState?_eq_some_iff ha.plant_isDeterministic).mp hstart)

/-- **The normal part** conforms in all states that can be reached. The run ends
with a candidate that does, and of what can be reached nothing is cut off when the
rest is. -/
theorem normalPart_conforms (permitted : EventSet) : Reduct (normalPart plant permitted c) c ∧
    ∀ x ∈ (normalPart plant permitted c).cand.initial, ∀ ts,
      (normalPart plant permitted c).cand.IsPath x ts →
        Conforms plant permitted plantState cls (normalPart plant permitted c) (endOf x ts) := by
  rw [normalPart]
  split
  next hnone =>
    refine ⟨.refl ha.wellFormed, fun x hx => ?_⟩
    have hsome := (Automaton.initialState?_eq_some_iff ha.plant_isDeterministic).mpr (ha.start x hx)
    rw [hnone] at hsome
    cases hsome
  next start hstart =>
    obtain ⟨hr, hconforms⟩ := run_conforms permitted ha
      fun x hx => ha.plantState_eq hx hstart
    generalize run plant permitted start c = c' at hr hconforms
    have hwf := hr.wellFormed
    have hpart := hwf.isPart_restrictStates c'.cand.accessibleSet
    refine ⟨(Reduct.restrictStates hwf _).trans hr, fun x hx ts hts => ?_⟩
    have hx := (hpart.mem_initial.mp hx).1
    have hts := hpart.isPath hts
    have hc := hconforms x hx ts hts
    refine ⟨fun l hl hsource => ?_, fun t ht hsource => ?_⟩
    · refine (hc.disables l hl hsource).imp_left ?_
      rintro ⟨t, ht, htsource, hevent⟩
      -- what follows an accessible state is accessible
      have haccessible : ∀ us, c'.cand.IsPath x us → endOf x us ∈ c'.cand.accessible.states :=
        fun us hus => Automaton.mem_states_restrictStates.mpr
          ⟨hus.endOf_mem hwf (hwf.initial_subset x hx),
            Automaton.mem_accessibleSet.mpr ⟨x, hx, us, hus, rfl⟩⟩
      have hnext := haccessible (ts ++ [t]) (Automaton.isPath_concat.mpr ⟨hts, ht, htsource⟩)
      rw [endOf_concat] at hnext
      exact ⟨t, hpart.mem_transitions.mpr ⟨ht, htsource ▸ haccessible ts hts, hnext⟩, htsource,
        hevent⟩
    · exact hc.observed t (hpart.mem_transitions.mp ht).1 hsource

/-- In the end the candidate is restricted to what can be reached. -/
theorem allReached_normalPart (permitted : EventSet) (hreached : c.cand.AllReached) :
    (normalPart plant permitted c).cand.AllReached := by
  rw [normalPart]
  split
  next => exact hreached
  next start hstart =>
    obtain ⟨hr, -⟩ := run_conforms permitted ha fun x hx => ha.plantState_eq hx hstart
    exact hr.wellFormed.allReached_accessible

/-- If no state is deleted in the end, none was deleted on the way: neither during
the run, nor when what cannot be reached is cut off after it. -/
theorem normalPart_keeps (hI : IsKept plant permitted plantState cls I) (hkept : I c)
    (hlarge : c.cand.size ≤ (normalPart plant permitted c).cand.size) :
    I (normalPart plant permitted c) := by
  rw [normalPart] at hlarge ⊢
  split at hlarge
  next => exact hkept
  next start hstart =>
    have hle := (run plant permitted start c).cand.size_accessible_le
    obtain ⟨hrun, hstates⟩ := run_keeps hI ha hkept
      (fun x hx => ha.plantState_eq hx hstart) (Nat.le_trans hlarge hle)
    have heq : (run plant permitted start c).cand.accessible = (run plant permitted start c).cand :=
      Automaton.eq_of_size_le_restrictStates (by
        change (run plant permitted start c).cand.size ≤
          (run plant permitted start c).cand.accessible.size
        have hsame : (run plant permitted start c).cand.size = c.cand.size :=
          congrArg IdentSet.size hstates
        rw [hsame]
        exact hlarge)
    dsimp only
    rw [heq]
    exact hrun

end

end OmegaControl
