import Mathlib.Algebra.Group.Nat.Defs
import OmegaControl.Projection
import OmegaControl.Proofs.Reaching
import OmegaControl.Proofs.Unfolding

/-!
# What an observer believes

Somebody who sees only some events believes the state to be one of those that words
lead to which look like the word so far (`Automaton.beliefAfter`). One more event
changes that belief in a way that depends on the belief only (`Automaton.advance`),
so beliefs can be the states of an automaton.

The subset construction builds it. It starts from what is believed before anything
is seen (`Automaton.mem_observedStart`), and goes on from each belief by each event
that some state of the belief has (`Automaton.mem_observedSteps`). Beliefs get
numbers as they are met, so there should not be more of them than numbers; there are
no more than sets of states (`Automaton.length_beliefs_le_two_pow`).

Inverse projection adds the events that change no belief. What comes out observes
the automaton it was built from (`Automaton.Observes`,
`Automaton.observes_inverseProject`): it generates all words of that automaton, and
after a word it believes what can be believed (`Automaton.Observes.belief_eq`). All
that is used of a projection later on is that it is an observer, and not how it was
built.
-/

namespace OmegaControl

/-! ## Words as they look
 -/

/-- What is seen of a word by somebody who sees only the events of `events`. -/
def seen (events : EventSet) (s : List EventId) : List EventId := s.filter (· ∈ events)

section

variable {events : EventSet} {s u : List EventId} {ev : EventId}

@[simp] theorem seen_nil : seen events [] = [] := rfl

/-- Words are seen event by event. -/
theorem seen_append : seen events (s ++ u) = seen events s ++ seen events u := List.filter_append ..

theorem seen_concat_of_mem (hev : ev ∈ events) : seen events (s ++ [ev]) = seen events s ++ [ev] := by
  rw [seen_append, seen, seen, List.filter_singleton, decide_eq_true hev]
  rfl

theorem seen_concat_of_not_mem (hev : ev ∉ events) : seen events (s ++ [ev]) = seen events s := by
  rw [seen_append, seen, seen, List.filter_singleton, decide_eq_false hev]
  exact List.append_nil _

/-- Only events of the word matter. So it makes no difference whether the observer
may see events that the automaton does not have. -/
theorem seen_inter {alphabet : EventSet} (hs : ∀ ev ∈ s, ev ∈ alphabet) :
    seen (alphabet ∩ events) s = seen events s :=
  List.filter_congr fun ev hev => decide_eq_decide.mpr
    (IdentSet.mem_inter.trans (and_iff_right (hs ev hev)))

/-- All of a word is seen if each of its events is. -/
theorem seen_eq_self (hs : ∀ ev ∈ s, ev ∈ events) : seen events s = s :=
  List.filter_eq_self.mpr fun ev hev => decide_eq_true (hs ev hev)

/-- Of a word of hidden events nothing is seen. -/
theorem seen_eq_nil_iff : seen events s = [] ↔ ∀ ev ∈ s, ev ∉ events := by
  simp [seen]

/-- Where the last event that is seen is. Hidden events may come before it and after
it. -/
theorem seen_eq_concat_iff : seen events s = u ++ [ev] ↔ ev ∈ events ∧
    ∃ s₁ s₂, s = s₁ ++ ev :: s₂ ∧ seen events s₁ = u ∧ seen events s₂ = [] := by
  constructor
  · intro h
    obtain ⟨s₁, s₂, rfl, hs₁, hs₂⟩ := List.filter_eq_append_iff.mp h
    obtain ⟨u₁, u₂, rfl, hu₁, hev, hu₂⟩ := List.filter_eq_cons_iff.mp hs₂
    refine ⟨of_decide_eq_true hev, s₁ ++ u₁, u₂, (List.append_assoc ..).symm, ?_, hu₂⟩
    have hnil : seen events u₁ = [] :=
      seen_eq_nil_iff.mpr fun ev hev hmem => hu₁ ev hev (decide_eq_true hmem)
    rw [seen_append, hnil, List.append_nil]
    exact hs₁
  · rintro ⟨hev, s₁, s₂, rfl, rfl, hs₂⟩
    rw [List.append_cons, seen_append, seen_concat_of_mem hev, hs₂, List.append_nil]

end

namespace Automaton

variable {g p o : Automaton} {events : EventSet} {u : List EventId} {ev : EventId}
  {x y z : StateId} {s : StateSet} {t : Transition} {ts : List Transition}

/-! ## Beliefs
 -/

/-- A path of which nothing is seen. -/
def Silently (g : Automaton) (events : EventSet) (x y : StateId) : Prop :=
  ∃ ts, g.IsPath x ts ∧ seen events (ts.map (·.event)) = [] ∧ endOf x ts = y

/-- The states that can be reached when `u` is seen. Events that are not seen may
have happened before and after each event of `u`, and also after the last one. -/
def beliefAfter (g : Automaton) (events : EventSet) (u : List EventId) : Set StateId :=
  {y | ∃ x ∈ g.initial, ∃ ts, g.IsPath x ts ∧ seen events (ts.map (·.event)) = u ∧ endOf x ts = y}

/-- The states that can be reached from those of `S` when one event is seen. What
happens silently before the event has been taken account of in `S`. -/
def advance (g : Automaton) (events : EventSet) (S : Set StateId) (ev : EventId) : Set StateId :=
  {z | ∃ x ∈ S, ∃ y, ⟨x, ev, y⟩ ∈ g.transitions ∧ g.Silently events y z}

/-- **One more event** changes the belief in a way that depends on the belief only.
The path is cut at the last event that is seen. -/
theorem beliefAfter_concat (hev : ev ∈ events) :
    g.beliefAfter events (u ++ [ev]) = g.advance events (g.beliefAfter events u) ev := by
  ext z
  constructor
  · rintro ⟨x, hx, ts, hts, hseen, rfl⟩
    obtain ⟨-, s₁, s₂, hsplit, hs₁, hs₂⟩ := seen_eq_concat_iff.mp hseen
    obtain ⟨ts₁, us, rfl, rfl, hus⟩ := List.map_eq_append_iff.mp hsplit
    obtain ⟨t, ts₂, rfl, rfl, rfl⟩ := List.map_eq_cons_iff.mp hus
    obtain ⟨hts₁, ht, hsource, hts₂⟩ := isPath_append.mp hts
    refine ⟨endOf x ts₁, ⟨x, hx, ts₁, hts₁, hs₁, rfl⟩, t.target, mk_mem_transitions ht hsource,
      ts₂, hts₂, hs₂, ?_⟩
    rw [endOf_append, endOf_cons]
  · rintro ⟨_, ⟨x, hx, ts₁, hts₁, hs₁, rfl⟩, y, ht, ts₂, hts₂, hs₂, rfl⟩
    refine ⟨x, hx, ts₁ ++ ⟨endOf x ts₁, ev, y⟩ :: ts₂, isPath_append.mpr ⟨hts₁, ht, rfl, hts₂⟩,
      ?_, by rw [endOf_append, endOf_cons]⟩
    rw [List.map_append, List.map_cons]
    exact seen_eq_concat_iff.mpr ⟨hev, _, _, rfl, hs₁, hs₂⟩

/-- Paths stay among the states. -/
theorem Silently.mem_states (hg : g.WellFormed) (hx : x ∈ g.states)
    (h : g.Silently events x y) : y ∈ g.states := by
  obtain ⟨ts, hts, -, rfl⟩ := h
  exact hts.endOf_mem hg hx

/-! ## Their construction
 -/

/-- Going along events that are not seen, as often as possible, finds what can be
reached silently. -/
theorem mem_silentClosure :
    y ∈ g.silentClosure events s ↔ ∃ x ∈ s, g.Silently events x y := by
  -- silent steps are the steps of an automaton of their own
  let silent := g.retainTransitions (·.event ∉ events)
  have hsilent : ∀ {t}, t ∈ silent.transitions ↔ t ∈ g.transitions ∧ t.event ∉ events := by
    intro t
    rw [mem_retainTransitions, decide_eq_true_iff]
  have hnext : ∀ x y, y ∈ ((g.transitionsFrom x).filter (·.event ∉ events)).map (·.target) ↔
      y ∈ silent.successors x := by
    intro x y
    simp only [mem_successors, hsilent, List.mem_map, List.mem_filter, mem_transitionsFrom,
      decide_eq_true_iff]
    constructor
    · rintro ⟨t, ⟨⟨ht, hs⟩, hev⟩, hy⟩
      exact ⟨t, ⟨ht, hev⟩, hs, hy⟩
    · rintro ⟨t, ⟨ht, hev⟩, hs, hy⟩
      exact ⟨t, ⟨⟨ht, hs⟩, hev⟩, hy⟩
  have hpath : ∀ {x ts}, silent.IsPath x ts ↔
      g.IsPath x ts ∧ seen events (ts.map (·.event)) = [] := by
    intro x ts
    rw [seen_eq_nil_iff, List.forall_mem_map]
    induction ts generalizing x with
    | nil => simp
    | cons t ts ih =>
      rw [isPath_cons, isPath_cons, hsilent, ih, List.forall_mem_cons]
      tauto
  rw [silentClosure, IdentSet.mem_ofList, Traversal.mem_reachable]
  simp only [Traversal.Leads, hnext, IdentSet.mem_toList, Silently, ← and_assoc, ← hpath]
  exact exists_congr fun x => and_congr_right fun _ => leads_iff

theorem mem_stepSet : y ∈ g.stepSet s ev ↔ ∃ x ∈ s, ⟨x, ev, y⟩ ∈ g.transitions := by
  simp only [stepSet, IdentSet.mem_ofList, List.mem_flatMap, IdentSet.mem_toList, List.mem_map,
    mem_transitionsOn]
  constructor
  · rintro ⟨x, hx, t, ⟨ht, rfl, rfl⟩, rfl⟩
    exact ⟨t.source, hx, ht⟩
  · rintro ⟨x, hx, ht⟩
    exact ⟨x, hx, _, ⟨ht, rfl, rfl⟩, rfl⟩

section

variable (hg : g.WellFormed) {B C : IdentSet.SubsetOf g.states}
include hg

/-- Nothing is cut off when a belief is made a subset of the states. -/
theorem mem_ofSet_silentClosure (hs : s ⊆ g.states) :
    x ∈ (IdentSet.SubsetOf.ofSet g.states (g.silentClosure events s)).1 ↔
      ∃ y ∈ s, g.Silently events y x := by
  refine IdentSet.mem_inter.trans (and_iff_left_of_imp ?_ |>.trans mem_silentClosure)
  intro hx
  obtain ⟨y, hy, hsilent⟩ := mem_silentClosure.mp hx
  exact hsilent.mem_states hg (hs y hy)

omit hg in
variable (events) in
/-- There is a first belief if there is an initial state. -/
theorem exists_mem_observedStart (hx : x ∈ g.initial) : ∃ B, B ∈ g.observedStart events := by
  rw [observedStart, if_neg]
  · exact ⟨_, List.mem_singleton.mpr rfl⟩
  · exact fun hempty => IdentSet.isEmpty_iff.mp hempty x hx

/-- At the start, what is believed is what can be reached silently from an initial
state. Without one there is no belief at all. -/
theorem mem_observedStart : B ∈ g.observedStart events ↔
    (∃ x, x ∈ g.initial) ∧ B.1.carrier = g.beliefAfter events [] := by
  have hclosure : (IdentSet.SubsetOf.ofSet g.states (g.silentClosure events g.initial)).1.carrier =
      g.beliefAfter events [] := by
    ext x
    exact mem_ofSet_silentClosure hg hg.initial_subset
  rw [observedStart]
  split
  next hempty =>
    rw [IdentSet.isEmpty_iff] at hempty
    exact ⟨fun h => absurd h List.not_mem_nil, fun ⟨⟨x, hx⟩, _⟩ => absurd hx (hempty x)⟩
  next hne =>
    rw [IdentSet.isEmpty_iff, not_forall] at hne
    obtain ⟨x, hx⟩ := hne
    rw [List.mem_singleton, and_iff_right ⟨x, Classical.not_not.mp hx⟩, ← hclosure]
    exact ⟨fun h => h ▸ rfl, fun h => Subtype.ext (IdentSet.carrier_injective h)⟩

omit hg in
/-- An event that some state of a belief has leads to another belief. -/
theorem exists_mem_observedSteps (hev : ev ∈ events) (hx : x ∈ B.1)
    (ht : ⟨x, ev, y⟩ ∈ g.transitions) : ∃ C, (ev, C) ∈ g.observedSteps events B := by
  refine ⟨_, List.mem_filterMap.mpr ⟨ev, IdentSet.mem_toList.mpr hev, if_neg ?_⟩⟩
  exact fun hempty => IdentSet.isEmpty_iff.mp hempty y (mem_stepSet.mpr ⟨x, hx, ht⟩)

/-- One event later. A belief is never empty, as only events are followed that some
state has. -/
theorem mem_observedSteps : (ev, C) ∈ g.observedSteps events B ↔
    ev ∈ events ∧ (∃ x, x ∈ C.1) ∧ C.1.carrier = g.advance events B.1.carrier ev := by
  have hnext : g.stepSet B.1 ev ⊆ g.states := by
    intro y hy
    obtain ⟨x, -, ht⟩ := mem_stepSet.mp hy
    exact hg.target_mem ⟨x, ev, y⟩ ht
  -- the belief one event later, as a subset of the states
  have hclosure : ∀ z, z ∈ (IdentSet.SubsetOf.ofSet g.states
      (g.silentClosure events (g.stepSet B.1 ev))).1 ↔ z ∈ g.advance events B.1.carrier ev := by
    intro z
    rw [mem_ofSet_silentClosure hg hnext]
    simp only [mem_stepSet]
    exact ⟨fun ⟨y, ⟨x, hx, ht⟩, hz⟩ => ⟨x, hx, y, ht, hz⟩,
      fun ⟨x, hx, y, ht, hz⟩ => ⟨y, ⟨x, hx, ht⟩, hz⟩⟩
  have hmem : (ev, C) ∈ g.observedSteps events B ↔ ev ∈ events ∧ ¬(g.stepSet B.1 ev).isEmpty ∧
      .ofSet g.states (g.silentClosure events (g.stepSet B.1 ev)) = C := by
    rw [observedSteps, List.mem_filterMap]
    constructor
    · rintro ⟨ev', hev, heq⟩
      dsimp only at heq
      split at heq
      next => cases heq
      next hne =>
        obtain ⟨rfl, rfl⟩ := Prod.mk.inj (Option.some.inj heq)
        exact ⟨IdentSet.mem_toList.mp hev, hne, rfl⟩
    · rintro ⟨hev, hne, rfl⟩
      exact ⟨ev, IdentSet.mem_toList.mpr hev, if_neg hne⟩
  rw [hmem]
  -- some state has the event if and only if the next belief is not empty
  refine and_congr_right fun _ => ⟨?_, ?_⟩
  · rintro ⟨hne, rfl⟩
    refine ⟨?_, Set.ext fun z => hclosure z⟩
    rw [IdentSet.isEmpty_iff, not_forall] at hne
    obtain ⟨y, hy⟩ := hne
    have hy := Classical.not_not.mp hy
    exact ⟨y, (mem_ofSet_silentClosure hg hnext).mpr ⟨y, hy, [], trivial, rfl, rfl⟩⟩
  · rintro ⟨⟨z, hz⟩, heq⟩
    have hz' : z ∈ g.advance events B.1.carrier ev := heq ▸ hz
    obtain ⟨x, hx, y, ht, -⟩ := hz'
    refine ⟨fun hempty => ?_, Subtype.ext (IdentSet.ext fun z => ?_)⟩
    · exact IdentSet.isEmpty_iff.mp hempty y (mem_stepSet.mpr ⟨x, hx, ht⟩)
    · rw [hclosure, ← heq]
      rfl

/-- What can be believed is believed after some word. -/
theorem exists_carrier_eq_of_mem_beliefs (hB : B ∈ g.beliefs events) :
    ∃ u, B.1.carrier = g.beliefAfter events u ∧ ∃ x, x ∈ B.1 := by
  obtain ⟨S, hS, hleads⟩ := Traversal.mem_discover.mp hB
  induction hleads with
  | refl =>
    obtain ⟨⟨x, hx⟩, hcarrier⟩ := (mem_observedStart hg).mp hS
    have hmem : x ∈ S.1.carrier := hcarrier ▸ ⟨x, hx, [], trivial, rfl, rfl⟩
    exact ⟨[], hcarrier, x, hmem⟩
  | @tail C _ hreach hstep ih =>
    obtain ⟨u, hu, -⟩ := ih (Traversal.mem_discover.mpr ⟨S, hS, hreach⟩)
    obtain ⟨⟨ev, D⟩, hmem, rfl⟩ := List.mem_map.mp hstep
    obtain ⟨hev, hne, hcarrier⟩ := (mem_observedSteps hg).mp hmem
    exact ⟨u ++ [ev], by rw [hcarrier, beliefAfter_concat hev, hu], hne⟩

end

/-- There are no more beliefs than sets of states. -/
theorem length_beliefs_le_two_pow (g : Automaton) (events : EventSet) :
    (g.beliefs events).length ≤ 2 ^ g.size := by
  refine (Bounded.length_le Traversal.discover_nodup).trans ?_
  change 1 <<< g.size ≤ _
  rw [Nat.one_shiftLeft]

/-! ## Projection
 -/

/-- The set of states that a state of the projection stands for. -/
abbrev Beliefs (g : Automaton) := Std.ExtTreeMap (IdentSet.SubsetOf g.states) StateId

/-- A map that is filled pair by pair holds the pairs of the list. -/
theorem foldl_insert_eq_ofList {α β : Type} (f : α → β) (l : List (α × StateId)) :
    l.foldl (fun m b => m.insert b.2 (f b.1)) (∅ : Std.ExtTreeMap StateId β) =
      .ofList (l.map fun b => (b.2, f b.1)) := by
  rw [Std.ExtTreeMap.ofList_eq_insertMany_empty]
  generalize (∅ : Std.ExtTreeMap StateId β) = m
  induction l generalizing m with
  | nil => rw [List.map_nil, Std.ExtTreeMap.insertMany_nil, List.foldl_nil]
  | cons b l ih => rw [List.map_cons, Std.ExtTreeMap.insertMany_cons, List.foldl_cons, ih]

/-- The states of the projection stand for beliefs, as long as there are numbers for all, and the
map tells which. -/
theorem exists_unfolds_project (hg : g.WellFormed)
    (hsize : (g.beliefs (g.alphabet ∩ events)).length < UInt32.size) :
    ∃ numbers : Beliefs g, Unfolds (g.project events) numbers (g.alphabet ∩ events)
      (g.observedStart (g.alphabet ∩ events)) (g.observedSteps (g.alphabet ∩ events))
      (fun B => ∃ x ∈ B.1, x ∈ g.marked) ∧
      ∀ z S, (g.projectWithMap events).2[z]? = some S ↔
        ∃ B : IdentSet.SubsetOf g.states, numbers[B]? = some z ∧ B.1 = S := by
  -- a belief is marked by a test on sets, which is that some state of it is marked
  have hmarks : Marks (fun p (b : IdentSet.SubsetOf g.states × StateId) =>
      if !b.1.1.disjoint g.marked then p.setMarkedState b.2 else p) (·.2)
      fun b => ∃ x ∈ b.1.1, x ∈ g.marked := by
    have htest : ∀ b : IdentSet.SubsetOf g.states × StateId,
        (∃ x ∈ b.1.1, x ∈ g.marked) ↔ (!b.1.1.disjoint g.marked) = true := by
      intro b
      rw [Bool.not_eq_true', Bool.eq_false_iff, Ne, IdentSet.disjoint_iff]
      simp
    simp only [htest]
    exact marks_setMarkedState Prod.snd
      fun b : IdentSet.SubsetOf g.states × StateId => !b.1.1.disjoint g.marked
  obtain ⟨hblank, halphabet⟩ := isBlank_new ("Project(" ++ g.name ++ ")") (g.alphabet ∩ events) g false
  have hevents : ∀ B, ∀ step ∈ g.observedSteps (g.alphabet ∩ events) B,
      step.1 ∈ ((((new ("Project(" ++ g.name ++ ")")).insertEvents
        (g.alphabet ∩ events)).copyEventNames g).setStateNamesEnabled false).alphabet := by
    rintro B ⟨ev, C⟩ hstep
    rw [halphabet]
    exact ((mem_observedSteps hg).mp hstep).1
  have hunfolds := unfolds_of_blank (fun B => ∃ x ∈ B.1, x ∈ g.marked) hblank hevents hsize
    hmarks rfl
  rw [halphabet] at hunfolds
  rw [project, projectWithMap]
  dsimp only
  rw [List.foldl_filter, foldl_insert_eq_ofList fun B : IdentSet.SubsetOf g.states => B.1]
  exact ⟨_, hunfolds, fun z S => getElem?_ofList_numbers hunfolds.injective (·.1)⟩

section

variable {numbers : Beliefs g} {marks : IdentSet.SubsetOf g.states → Prop} {z : StateId}
  (hp : Unfolds p numbers events (g.observedStart events) (g.observedSteps events) marks)
include hp

/-- What is believed in a state is what the state stands for. No number is given to
two beliefs, so the belief can be found from the state. -/
theorem exists_belief : ∃ belief : StateId → Set StateId, ∀ {B : IdentSet.SubsetOf g.states} {z},
    numbers[B]? = some z → belief z = B.1.carrier := by
  refine ⟨fun z => {x | ∃ B : IdentSet.SubsetOf g.states, numbers[B]? = some z ∧ x ∈ B.1},
    fun {B z} hB => Set.ext fun x => ⟨?_, fun hx => ⟨B, hB, hx⟩⟩⟩
  rintro ⟨C, hC, hx⟩
  exact hp.injective hB hC ▸ hx

variable {belief : StateId → Set StateId}
  (hbelief : ∀ {B : IdentSet.SubsetOf g.states} {z}, numbers[B]? = some z → belief z = B.1.carrier)
include hbelief

/-- Each belief has one state at most. -/
theorem belief_injective_of_unfolds {y : StateId} (hy : y ∈ p.states) (hz : z ∈ p.states)
    (heq : belief y = belief z) : y = z := by
  obtain ⟨B, hB⟩ := (hp.mem_states y).mp hy
  obtain ⟨C, hC⟩ := (hp.mem_states z).mp hz
  rw [hbelief hB, hbelief hC] at heq
  obtain rfl := Subtype.ext (IdentSet.carrier_injective heq)
  exact Option.some.inj (hB.symm.trans hC)

/-- Something is believed wherever the observer is. -/
theorem belief_nonempty_of_unfolds (hg : g.WellFormed) (hz : z ∈ p.states) :
    (belief z).Nonempty := by
  obtain ⟨B, hB⟩ := (hp.mem_states z).mp hz
  obtain ⟨-, -, hne⟩ := exists_carrier_eq_of_mem_beliefs hg
    (Traversal.mem_discover.mpr ((hp.exists_number_iff B).mp ⟨z, hB⟩))
  exact hbelief hB ▸ hne

/-- The initial state stands for what is believed before anything is seen. -/
theorem mem_initial_iff_of_unfolds (hg : g.WellFormed) :
    z ∈ p.initial ↔ z ∈ p.states ∧ belief z = g.beliefAfter events [] := by
  rw [hp.mem_initial]
  constructor
  · rintro ⟨B, hstart, hB⟩
    exact ⟨(hp.mem_states z).mpr ⟨B, hB⟩, (hbelief hB).trans ((mem_observedStart hg).mp hstart).2⟩
  · rintro ⟨hz, heq⟩
    obtain ⟨x, hx⟩ := belief_nonempty_of_unfolds hp hbelief hg hz
    have hmem : x ∈ g.beliefAfter events [] := heq ▸ hx
    obtain ⟨x₀, hx₀, -⟩ := hmem
    obtain ⟨B, hB⟩ := (hp.mem_states z).mp hz
    exact ⟨B, (mem_observedStart hg).mpr ⟨⟨x₀, hx₀⟩, (hbelief hB).symm.trans heq⟩, hB⟩

/-- A transition changes the belief as its event does. -/
theorem belief_target_of_unfolds (hg : g.WellFormed) {t : Transition} (ht : t ∈ p.transitions) :
    t.event ∈ events ∧ belief t.target = g.advance events (belief t.source) t.event := by
  obtain ⟨B, C, hB, hC, hmem⟩ := (hp.mem_transitions t).mp ht
  obtain ⟨hev, -, hcarrier⟩ := (mem_observedSteps hg).mp hmem
  rw [hbelief hB, hbelief hC]
  exact ⟨hev, hcarrier⟩

/-- The projection goes along if some state that is believed has the event. -/
theorem exists_transition_of_unfolds {t : Transition} (ht : t ∈ g.transitions)
    (hev : t.event ∈ events) (hz : z ∈ p.states) (hsource : t.source ∈ belief z) :
    ∃ z', ⟨z, t.event, z'⟩ ∈ p.transitions := by
  obtain ⟨B, hB⟩ := (hp.mem_states z).mp hz
  rw [hbelief hB] at hsource
  obtain ⟨C, hstep⟩ := exists_mem_observedSteps hev hsource ht
  obtain ⟨S, hS, hleads⟩ := (hp.exists_number_iff B).mp ⟨z, hB⟩
  obtain ⟨z', hC⟩ := (hp.exists_number_iff C).mpr
    ⟨S, hS, hleads.tail (List.mem_map.mpr ⟨_, hstep, rfl⟩)⟩
  exact ⟨z', (hp.mem_transitions ⟨z, t.event, z'⟩).mpr ⟨B, C, hB, hC, hstep⟩⟩

end

/-! ## Inverse projection
 -/

/-- Each state gets a loop for each event of the alphabet that was not there before,
and nothing else is changed. -/
theorem inverseProject_spec (hg : g.WellFormed) (alphabet : EventSet) :
    (g.inverseProject alphabet).WellFormed ∧
      (∀ x, x ∈ (g.inverseProject alphabet).states ↔ x ∈ g.states) ∧
      (g.inverseProject alphabet).initial = g.initial ∧
      (g.inverseProject alphabet).marked = g.marked ∧
      (∀ ev, ev ∈ (g.inverseProject alphabet).alphabet ↔ ev ∈ g.alphabet ∨ ev ∈ alphabet) ∧
      ∀ t, t ∈ (g.inverseProject alphabet).transitions ↔ t ∈ g.transitions ∨
        (t.source ∈ g.states ∧ t.target = t.source ∧ t.event ∈ alphabet ∧ t.event ∉ g.alphabet) := by
  have hwf := hg.insertEvents (alphabet \ g.alphabet)
  -- the pairs of states and new events are the loops to add
  have hloops : ∀ t, t ∈ (g.states.toList.flatMap fun x =>
      (alphabet \ g.alphabet).toList.map fun ev => (⟨x, ev, x⟩ : Transition)) ↔
      t.source ∈ g.states ∧ t.target = t.source ∧ t.event ∈ alphabet ∧ t.event ∉ g.alphabet := by
    intro t
    simp only [List.mem_flatMap, List.mem_map, IdentSet.mem_toList, IdentSet.mem_sdiff]
    constructor
    · rintro ⟨x, hx, ev, hev, rfl⟩
      exact ⟨hx, rfl, hev⟩
    · rintro ⟨hx, htarget, hev⟩
      refine ⟨t.source, hx, t.event, hev, ?_⟩
      cases t
      simp_all
  obtain ⟨hstates, hinitial, hmarked, hevents⟩ := foldl_insertTransition
    (g := g.insertEvents (alphabet \ g.alphabet)) fun t ht => by
      obtain ⟨hx, htarget, hev⟩ := (hloops t).mp ht
      exact ⟨hx, htarget ▸ hx, IdentSet.mem_union.mpr (.inr (IdentSet.mem_sdiff.mpr hev))⟩
  refine ⟨?_, hstates, hinitial, hmarked, fun ev => ?_, fun t => ?_⟩
  · exact List.foldlRecOn (motive := WellFormed) _ _ hwf fun _ hg t _ => hg.insertTransition t
  · rw [inverseProject, hevents]
    change ev ∈ g.alphabet ∪ (alphabet \ g.alphabet) ↔ _
    rw [IdentSet.mem_union, IdentSet.mem_sdiff]
    tauto
  · rw [inverseProject, mem_transitions_foldl_insertTransition, hloops, or_comm]
    rfl

/-! ## Observers
 -/

/-- The states of `o` stand for what an observer of `events` believes about `g`. An event that
is seen changes the belief, other events do not; and `o` goes along with `g`, wherever it is
believed to be. -/
structure Observes (g : Automaton) (events : EventSet) (o : Automaton)
    (belief : StateId → Set StateId) : Prop where
  wellFormed : o.WellFormed
  /-- the state is told by the belief -/
  belief_injective : ∀ y ∈ o.states, ∀ z ∈ o.states, belief y = belief z → y = z
  belief_nonempty : ∀ z ∈ o.states, (belief z).Nonempty
  mem_initial : ∀ z, z ∈ o.initial ↔ z ∈ o.states ∧ belief z = g.beliefAfter events []
  exists_initial : (∃ x, x ∈ g.initial) → ∃ z, z ∈ o.initial
  mem_marked : ∀ z, z ∈ o.marked ↔ z ∈ o.states ∧ ∃ x ∈ belief z, x ∈ g.marked
  belief_target : ∀ t ∈ o.transitions, t.event ∈ events →
    belief t.target = g.advance events (belief t.source) t.event
  /-- an event that is not seen changes nothing -/
  target_eq : ∀ t ∈ o.transitions, t.event ∉ events → t.target = t.source
  /-- the observer never blocks an event that may happen -/
  exists_transition : ∀ z ∈ o.states, ∀ t ∈ g.transitions, t.source ∈ belief z →
    ∃ z', ⟨z, t.event, z'⟩ ∈ o.transitions

/-- The observer has the alphabet that is asked for. -/
theorem alphabet_inverseProject {alphabet : EventSet} (hg : g.WellFormed)
    (halphabet : g.alphabet ⊆ alphabet) (hsize : (g.beliefs (g.alphabet ∩ events)).length < UInt32.size) :
    ((g.project events).inverseProject alphabet).alphabet = alphabet := by
  obtain ⟨numbers, hp, -⟩ := exists_unfolds_project hg hsize
  obtain ⟨-, -, -, -, hevents, -⟩ := inverseProject_spec hp.wellFormed alphabet
  refine IdentSet.ext fun ev => (hevents ev).trans (or_iff_right_of_imp fun hev => ?_)
  rw [hp.alphabet_eq] at hev
  exact halphabet ev (IdentSet.mem_inter.mp hev).1

/-- The observer has one state at most for each thing that can be believed. The
added loops lead to no new one. -/
theorem size_inverseProject_le (events alphabet : EventSet) (hg : g.WellFormed)
    (hsize : (g.beliefs (g.alphabet ∩ events)).length < UInt32.size) :
    ((g.project events).inverseProject alphabet).size ≤ (g.beliefs (g.alphabet ∩ events)).length := by
  obtain ⟨numbers, hp, -⟩ := exists_unfolds_project hg hsize
  obtain ⟨-, hstates, -⟩ := inverseProject_spec hp.wellFormed alphabet
  have : Nonempty (IdentSet.SubsetOf g.states) := ⟨.ofSet g.states ∅⟩
  obtain ⟨value, hvalue⟩ := hp.exists_value
  refine IdentSet.size_le_length (f := value) (fun z hz => ?_) fun y hy z hz heq => ?_
  · exact Traversal.mem_discover.mpr
      ((hp.exists_number_iff _).mp ⟨z, hvalue z ((hstates z).mp hz)⟩)
  · have hnumber := hvalue y ((hstates y).mp hy)
    rw [heq, hvalue z ((hstates z).mp hz)] at hnumber
    exact (Option.some.inj hnumber).symm

/-- **The observer** that is built by projection: what is believed in a state is what the state stands
for. -/
theorem observes_of_unfolds {numbers : Beliefs g} {belief : StateId → Set StateId}
    {alphabet : EventSet} (hg : g.WellFormed) (halphabet : g.alphabet ⊆ alphabet)
    (hp : Unfolds p numbers (g.alphabet ∩ events) (g.observedStart (g.alphabet ∩ events))
      (g.observedSteps (g.alphabet ∩ events)) fun B => ∃ x ∈ B.1, x ∈ g.marked)
    (hbelief : ∀ {B : IdentSet.SubsetOf g.states} {z}, numbers[B]? = some z →
      belief z = B.1.carrier) :
    Observes g (g.alphabet ∩ events) (p.inverseProject alphabet) belief := by
  obtain ⟨hwf, hstates, hinitial, hmarked, -, htransitions⟩ :=
    inverseProject_spec hp.wellFormed alphabet
  rw [hp.alphabet_eq] at htransitions
  refine ⟨hwf, fun y hy z hz => ?_, fun z hz => ?_, fun z => ?_, ?_, fun z => ?_,
    fun t ht hev => ?_, fun t ht hev => ?_, fun z hz t ht hsource => ?_⟩
  · exact belief_injective_of_unfolds hp hbelief ((hstates y).mp hy) ((hstates z).mp hz)
  · exact belief_nonempty_of_unfolds hp hbelief hg ((hstates z).mp hz)
  · rw [hinitial, hstates]
    exact mem_initial_iff_of_unfolds hp hbelief hg
  · rintro ⟨x, hx⟩
    obtain ⟨B, hstart⟩ := exists_mem_observedStart (g.alphabet ∩ events) hx
    obtain ⟨z, hB⟩ := (hp.exists_number_iff B).mpr ⟨B, hstart, .refl⟩
    rw [hinitial]
    exact ⟨z, (hp.mem_initial z).mpr ⟨B, hstart, hB⟩⟩
  · rw [hmarked, hp.mem_marked, hstates, hp.mem_states]
    constructor
    · rintro ⟨B, hB, x, hx, hm⟩
      exact ⟨⟨B, hB⟩, x, hbelief hB ▸ hx, hm⟩
    · rintro ⟨⟨B, hB⟩, x, hx, hm⟩
      rw [hbelief hB] at hx
      exact ⟨B, hB, x, hx, hm⟩
  · have hstep := ((htransitions t).mp ht).resolve_right fun h => h.2.2.2 hev
    exact (belief_target_of_unfolds hp hbelief hg hstep).2
  · exact (((htransitions t).mp ht).resolve_left
      fun hstep => hev (belief_target_of_unfolds hp hbelief hg hstep).1).2.1
  · -- an event that is seen is one of the projection, and any other one has a loop
    by_cases hev : t.event ∈ g.alphabet ∩ events
    · obtain ⟨z', hz'⟩ := exists_transition_of_unfolds hp hbelief ht hev ((hstates z).mp hz) hsource
      exact ⟨z', (htransitions ⟨z, t.event, z'⟩).mpr (.inl hz')⟩
    · refine ⟨z, (htransitions _).mpr (.inr ⟨(hstates z).mp hz, rfl, ?_, hev⟩)⟩
      exact halphabet t.event (hg.event_mem t ht)

/-- There is an observer, built by projection. What its states stand for is all that
has to be known of the numbers that they were given. -/
theorem observes_inverseProject (events alphabet : EventSet) (hg : g.WellFormed)
    (halphabet : g.alphabet ⊆ alphabet) (hsize : (g.beliefs (g.alphabet ∩ events)).length < UInt32.size) :
    ∃ belief, Observes g (g.alphabet ∩ events) ((g.project events).inverseProject alphabet)
      belief := by
  obtain ⟨numbers, hp, -⟩ := exists_unfolds_project hg hsize
  obtain ⟨belief, hbelief⟩ := exists_belief hp
  exact ⟨belief, observes_of_unfolds hg halphabet hp hbelief⟩

/-- There, an event that is not seen can always happen. -/
theorem loop_mem_inverseProject (events alphabet : EventSet) (hg : g.WellFormed)
    (hsize : (g.beliefs (g.alphabet ∩ events)).length < UInt32.size) :
    ∀ z ∈ ((g.project events).inverseProject alphabet).states, ∀ ev ∈ alphabet,
      ev ∉ g.alphabet ∩ events →
      ⟨z, ev, z⟩ ∈ ((g.project events).inverseProject alphabet).transitions := by
  obtain ⟨numbers, hp, -⟩ := exists_unfolds_project hg hsize
  obtain ⟨-, hstates, -, -, -, htransitions⟩ := inverseProject_spec hp.wellFormed alphabet
  rw [hp.alphabet_eq] at htransitions
  exact fun z hz ev hev hhidden => (htransitions _).mpr (.inr ⟨(hstates z).mp hz, rfl, hev, hhidden⟩)

/-! ## Words under observation
 -/

/-- What is believed, in terms of words: the states that words lead to which look
like `u`. -/
theorem mem_beliefAfter_iff :
    x ∈ g.beliefAfter events u ↔ ∃ s, g.Reaches s x ∧ seen events s = u := by
  constructor
  · rintro ⟨x₀, hx₀, ts, hts, hseen, hend⟩
    exact ⟨_, ⟨x₀, hx₀, ts, hts, rfl, hend⟩, hseen⟩
  · rintro ⟨s, ⟨x₀, hx₀, ts, hts, rfl, hend⟩, hseen⟩
    exact ⟨x₀, hx₀, ts, hts, hseen, hend⟩

/-- Only events of the alphabet matter, as there are no others on a path. -/
theorem beliefAfter_inter (hg : g.WellFormed) :
    g.beliefAfter (g.alphabet ∩ events) u = g.beliefAfter events u := by
  ext x
  simp only [mem_beliefAfter_iff]
  refine exists_congr fun s => and_congr_right fun hs => ?_
  rw [seen_inter fun _ hev => mem_alphabet_of_mem_words hg hs.mem_words hev]

namespace Observes

variable {belief : StateId → Set StateId} {w : List EventId} (h : Observes g events o belief)
include h

/-- Two transitions of a state on one event lead to the same belief, so to the same
state. -/
theorem hasUniqueSuccessors : o.HasUniqueSuccessors := by
  intro t ht t' ht' hsource hevent
  have hbelief : belief t.target = belief t'.target := by
    by_cases hev : t.event ∈ events
    · rw [h.belief_target t ht hev, h.belief_target t' ht' (hevent ▸ hev), hsource, hevent]
    · rw [h.target_eq t ht hev, h.target_eq t' ht' (hevent ▸ hev), hsource]
  have htarget := h.belief_injective _ (h.wellFormed.target_mem t ht) _
    (h.wellFormed.target_mem t' ht') hbelief
  cases t
  cases t'
  simp_all

/-- There is one initial belief, so one initial state at most. -/
theorem isDeterministic : o.IsDeterministic := by
  refine h.hasUniqueSuccessors.isDeterministic (IdentSet.size_le_one_of_forall_eq ?_)
  intro y hy z hz
  obtain ⟨hy, hbelief⟩ := (h.mem_initial y).mp hy
  obtain ⟨hz, hbelief'⟩ := (h.mem_initial z).mp hz
  exact h.belief_injective y hy z hz (hbelief.trans hbelief'.symm)

/-- **After a word** the observer believes the state to be one that words lead to
which look like it. By induction on the word, an event that is seen changes the
belief by one event, and another one changes neither the state of the observer nor
the look of the word. -/
theorem belief_eq (hw : o.Reaches w z) : belief z = g.beliefAfter events (seen events w) := by
  induction w using List.reverseRecOn generalizing z with
  | nil => exact ((h.mem_initial z).mp (reaches_nil.mp hw)).2
  | append_singleton w ev ih =>
    obtain ⟨y, hy, ht⟩ := reaches_concat.mp hw
    by_cases hev : ev ∈ events
    · rw [h.belief_target _ ht hev, seen_concat_of_mem hev, beliefAfter_concat hev, ih hy]
    · obtain rfl : z = y := h.target_eq _ ht hev
      rw [seen_concat_of_not_mem hev, ih hy]

/-- The state that a word leads to is never ruled out. -/
theorem mem_belief (hw : o.Reaches w z) (hx : g.Reaches w x) : x ∈ belief z := by
  rw [h.belief_eq hw]
  exact mem_beliefAfter_iff.mpr ⟨w, hx, rfl⟩

/-- The observer goes along with every word, since the state that the word has led
to is believed. -/
theorem exists_reaches (hx : g.Reaches w x) : ∃ z, o.Reaches w z := by
  induction w using List.reverseRecOn generalizing x with
  | nil =>
    obtain ⟨z, hz⟩ := h.exists_initial ⟨x, reaches_nil.mp hx⟩
    exact ⟨z, reaches_nil.mpr hz⟩
  | append_singleton w ev ih =>
    obtain ⟨y, hy, ht⟩ := reaches_concat.mp hx
    obtain ⟨z, hz⟩ := ih hy
    obtain ⟨z', hz'⟩ := h.exists_transition z (hz.mem_states h.wellFormed) _ ht (h.mem_belief hz hy)
    exact ⟨z', hz.concat hz'⟩

/-- **The words of the observer** are those that look like a word of the automaton, if what is not seen
can always happen. -/
theorem mem_words_iff {alphabet : EventSet}
    (hloops : ∀ z ∈ o.states, ∀ ev ∈ alphabet, ev ∉ events → ⟨z, ev, z⟩ ∈ o.transitions)
    (hw : ∀ ev ∈ w, ev ∈ alphabet) :
    w ∈ o.words ↔ ∃ v ∈ g.words, seen events w = seen events v := by
  constructor
  · intro hword
    obtain ⟨z, hz⟩ := Automaton.mem_words_iff.mp hword
    obtain ⟨x, hx⟩ := h.belief_nonempty z (hz.mem_states h.wellFormed)
    rw [h.belief_eq hz] at hx
    obtain ⟨v, hv, hlook⟩ := mem_beliefAfter_iff.mp hx
    exact ⟨v, hv.mem_words, hlook.symm⟩
  rintro ⟨v, hv, hlook⟩
  suffices hreaches : ∃ z, o.Reaches w z from Automaton.mem_words_iff.mpr hreaches
  induction w using List.reverseRecOn generalizing v with
  | nil =>
    obtain ⟨x, hx, -⟩ := hv
    obtain ⟨z, hz⟩ := h.exists_initial ⟨x, hx⟩
    exact ⟨z, reaches_nil.mpr hz⟩
  | append_singleton w ev ih =>
    obtain ⟨hw, hev⟩ := List.forall_mem_append.mp hw
    have hev := hev ev (List.mem_singleton_self ev)
    by_cases hseen : ev ∈ events
    · -- the other word has the event, too, from a state that is believed to be possible by then
      rw [seen_concat_of_mem hseen] at hlook
      obtain ⟨-, v₁, v₂, rfl, hlook₁, -⟩ := seen_eq_concat_iff.mp hlook.symm
      rw [List.append_cons] at hv
      obtain ⟨y, hy⟩ := Automaton.mem_words_iff.mp (words_of_append hv)
      obtain ⟨x, hx, ht⟩ := reaches_concat.mp hy
      obtain ⟨z, hz⟩ := ih hw v₁ hx.mem_words hlook₁.symm
      have hbelieved : x ∈ belief z := by
        rw [h.belief_eq hz]
        exact mem_beliefAfter_iff.mpr ⟨v₁, hx, hlook₁⟩
      obtain ⟨z', hz'⟩ := h.exists_transition z (hz.mem_states h.wellFormed) _ ht hbelieved
      exact ⟨z', hz.concat hz'⟩
    · rw [seen_concat_of_not_mem hseen] at hlook
      obtain ⟨z, hz⟩ := ih hw v hv hlook
      exact ⟨z, hz.concat (hloops z (hz.mem_states h.wellFormed) ev hev hseen)⟩

end Observes

end Automaton

end OmegaControl
