import OmegaControl.Automaton.Basic

/-!
# Operations keep automata well-formed

An automaton that is built from the empty one by the operations of the store is
well-formed, since each of them keeps it so. The only operation that adds a state,
an event and a transition at once is `insertTransition`; all others change one part
of the automaton, and only what `WellFormed` says of that part has to be shown
again.

The machines at the end are built in this way. They serve as examples in all that
follows: what is shown for all automata is looked at there once more.
-/

namespace OmegaControl.Automaton

variable {g : Automaton}

/-- The empty automaton has no states, so there is nothing to ask of them. -/
theorem WellFormed.new (name : String) : (new name).WellFormed where
  initial_subset _ hx := hx
  marked_subset _ hx := hx
  source_mem _ ht := absurd ht Std.ExtTreeSet.not_mem_empty
  event_mem _ ht := absurd ht Std.ExtTreeSet.not_mem_empty
  target_mem _ ht := absurd ht Std.ExtTreeSet.not_mem_empty
  named_mem _ hev := absurd hev Std.ExtTreeMap.not_mem_empty
  names_enabled _ := rfl
  nextState_pos := Nat.le_refl 1
  lt_nextState _ hx := absurd hx IdentSet.not_mem_empty

/-- The transitions that are retained are those that pass the test. -/
theorem mem_retainTransitions {keep : Transition → Bool} {t : Transition} :
    t ∈ (g.retainTransitions keep).transitions ↔ t ∈ g.transitions ∧ keep t = true := by
  simp [retainTransitions, Std.ExtTreeSet.mem_filter]

/-- Tests that agree on all transitions retain the same. -/
theorem retainTransitions_congr {keep keep' : Transition → Bool}
    (h : ∀ t ∈ g.transitions, keep t = keep' t) :
    g.retainTransitions keep = g.retainTransitions keep' := by
  have hfilter : (g.retainTransitions keep).transitions = (g.retainTransitions keep').transitions :=
    Std.ExtTreeSet.ext_mem fun t => by
      rw [mem_retainTransitions, mem_retainTransitions]
      exact and_congr_right fun ht => h t ht ▸ Iff.rfl
  exact congrArg (fun ts => { g with transitions := ts }) hfilter

theorem mem_transitions_of_retainTransitions {keep : Transition → Bool} {t : Transition}
    (ht : t ∈ (g.retainTransitions keep).transitions) : t ∈ g.transitions :=
  (Std.ExtTreeSet.mem_filter.mp ht).1

namespace WellFormed

variable (hg : g.WellFormed)
include hg

/-- The name is not asked for anything. -/
theorem setName (name : String) : (g.setName name).WellFormed := { hg with }

/-! ## Events

Only events of the alphabet have names; naming any other event does nothing. -/

/-- The alphabet may grow at any time. -/
theorem insertEvents (events : EventSet) : (g.insertEvents events).WellFormed :=
  { hg with
    event_mem := fun t ht => IdentSet.mem_union.mpr (.inl (hg.event_mem t ht))
    named_mem := fun ev hev => IdentSet.mem_union.mpr (.inl (hg.named_mem ev hev)) }

theorem insertEvent (ev : EventId) : (g.insertEvent ev).WellFormed :=
  { hg with
    event_mem := fun t ht => IdentSet.mem_insert.mpr (.inr (hg.event_mem t ht))
    named_mem := fun ev' hev => IdentSet.mem_insert.mpr (.inr (hg.named_mem ev' hev)) }

theorem setEventName (ev : EventId) (name : String) : (g.setEventName ev name).WellFormed := by
  rw [Automaton.setEventName]
  split
  next hev =>
    refine { hg with named_mem := fun ev' hev' => ?_ }
    rcases Std.ExtTreeMap.mem_insert.mp hev' with heq | hev'
    · exact Std.compare_eq_iff_eq.mp heq ▸ hev
    · exact hg.named_mem ev' hev'
  next => exact hg

/-- Names are copied for those events that the other automaton has a name for, and
to no others. -/
theorem copyEventNames (other : Automaton) : (g.copyEventNames other).WellFormed := by
  rw [Automaton.copyEventNames]
  generalize g.alphabet.toList = evs
  induction evs generalizing g with
  | nil => exact hg
  | cons ev evs ih =>
    rw [List.foldl_cons]
    cases other.eventName? ev with
    | none => exact ih hg
    | some name => exact ih (hg.setEventName ev name)

/-! ## States

A new state must not have been given away before: the next identifier is put beyond
it. -/

/-- A state with a given identifier may be inserted, as the next fresh one will be
larger. -/
theorem insertStateWithId (x : StateId) : (g.insertStateWithId x).WellFormed :=
  { hg with
    initial_subset := fun y hy => IdentSet.mem_insert.mpr (.inr (hg.initial_subset y hy))
    marked_subset := fun y hy => IdentSet.mem_insert.mpr (.inr (hg.marked_subset y hy))
    source_mem := fun t ht => IdentSet.mem_insert.mpr (.inr (hg.source_mem t ht))
    target_mem := fun t ht => IdentSet.mem_insert.mpr (.inr (hg.target_mem t ht))
    nextState_pos := Nat.le_trans hg.nextState_pos (Nat.le_max_left ..)
    lt_nextState := fun y hy => by
      rcases IdentSet.mem_insert.mp hy with rfl | hy
      · exact Nat.lt_of_lt_of_le (Nat.lt_succ_self _) (Nat.le_max_right ..)
      · exact Nat.lt_of_lt_of_le (hg.lt_nextState y hy) (Nat.le_max_left ..) }

/-- An initial state is inserted before it is made initial, and likewise for a
marked one. -/
theorem setInitialState (x : StateId) : (g.setInitialState x).WellFormed :=
  { hg.insertStateWithId x with
    initial_subset := fun y hy => by
      rcases IdentSet.mem_insert.mp hy with rfl | hy
      · exact IdentSet.mem_insert.mpr (.inl rfl)
      · exact (hg.insertStateWithId x).initial_subset y hy }

theorem setMarkedState (x : StateId) : (g.setMarkedState x).WellFormed :=
  { hg.insertStateWithId x with
    marked_subset := fun y hy => by
      rcases IdentSet.mem_insert.mp hy with rfl | hy
      · exact IdentSet.mem_insert.mpr (.inl rfl)
      · exact (hg.insertStateWithId x).marked_subset y hy }

/-- Fewer initial or marked states are no problem. -/
theorem clearInitialState (x : StateId) : (g.clearInitialState x).WellFormed :=
  { hg with initial_subset := fun y hy => hg.initial_subset y (IdentSet.mem_erase.mp hy).2 }

theorem clearMarkedState (x : StateId) : (g.clearMarkedState x).WellFormed :=
  { hg with marked_subset := fun y hy => hg.marked_subset y (IdentSet.mem_erase.mp hy).2 }

/-- Only states are marked: what else the new marking contains is dropped. -/
theorem replaceMarking (marked : StateSet) : (g.replaceMarking marked).WellFormed :=
  { hg with marked_subset := fun _ hy => (IdentSet.mem_inter.mp hy).2 }

theorem markAllStates : g.markAllStates.WellFormed := { hg with marked_subset := fun _ hy => hy }

/-! ## Names of states

States may have names unless names are turned off; then there must be none at all. -/

theorem setStateName (x : StateId) (name : String) : (g.setStateName x name).WellFormed := by
  rw [Automaton.setStateName]
  split
  next henabled =>
    refine { hg with names_enabled := fun hoff => ?_ }
    exact absurd (henabled.symm.trans hoff) (by simp)
  next => exact hg

/-- Turning names off takes away those that are there. -/
theorem setStateNamesEnabled (enabled : Bool) : (g.setStateNamesEnabled enabled).WellFormed :=
  { hg with
    names_enabled := fun hoff => by
      obtain rfl : enabled = false := hoff
      rfl }

/-! ## Transitions

With a transition, its source, its target and its event come in as well, if they are
not there yet. -/

/-- The transition that is added has its ends and its event, and those that were
there before keep theirs. -/
theorem insertTransition (t : Transition) : (g.insertTransition t).WellFormed := by
  let g' := ((g.insertStateWithId t.source).insertStateWithId t.target).insertEvent t.event
  have hg' : g'.WellFormed :=
    ((hg.insertStateWithId t.source).insertStateWithId t.target).insertEvent t.event
  have hmem : ∀ {u}, u ∈ (g.insertTransition t).transitions → u = t ∨ u ∈ g'.transitions := by
    intro u hu
    rcases Std.ExtTreeSet.mem_insert.mp hu with heq | hu
    · exact .inl (Std.compare_eq_iff_eq.mp heq).symm
    · exact .inr hu
  refine { hg' with
    source_mem := fun u hu => ?_
    event_mem := fun u hu => ?_
    target_mem := fun u hu => ?_ }
  · rcases hmem hu with rfl | hu
    · exact IdentSet.mem_insert.mpr (.inr (IdentSet.mem_insert.mpr (.inl rfl)))
    · exact hg'.source_mem u hu
  · rcases hmem hu with rfl | hu
    · exact IdentSet.mem_insert.mpr (.inl rfl)
    · exact hg'.event_mem u hu
  · rcases hmem hu with rfl | hu
    · exact IdentSet.mem_insert.mpr (.inl rfl)
    · exact hg'.target_mem u hu

/-- Fewer transitions are no problem either. -/
theorem retainTransitions (keep : Transition → Bool) : (g.retainTransitions keep).WellFormed :=
  { hg with
    source_mem := fun t ht => hg.source_mem t (mem_transitions_of_retainTransitions ht)
    event_mem := fun t ht => hg.event_mem t (mem_transitions_of_retainTransitions ht)
    target_mem := fun t ht => hg.target_mem t (mem_transitions_of_retainTransitions ht) }

end WellFormed

/-! ## Names of events -/

/-- Copying the names of events changes nothing else. -/
theorem copyEventNames_eq (g other : Automaton) :
    ∃ names, g.copyEventNames other = { g with eventNames := names } := by
  rw [copyEventNames]
  generalize g.alphabet.toList = evs
  induction evs generalizing g with
  | nil => exact ⟨g.eventNames, rfl⟩
  | cons ev evs ih =>
    rw [List.foldl_cons]
    cases other.eventName? ev with
    | none => exact ih g
    | some name =>
      obtain ⟨names, hnames⟩ := ih (g.setEventName ev name)
      refine ⟨names, hnames.trans ?_⟩
      rw [setEventName]
      split <;> rfl

/-! ## A machine -/

/-- A machine that is started, and then finishes or fails. After a failure it is
repaired, or started again as it is. It is idle in its first state, which is marked,
and it works in the second one; in the third it has failed. -/
def machine : Automaton :=
  ((((((((Automaton.new "machine").insertTransition ⟨⟨1⟩, ⟨1⟩, ⟨2⟩⟩).insertTransition
    ⟨⟨2⟩, ⟨2⟩, ⟨1⟩⟩).insertTransition ⟨⟨2⟩, ⟨3⟩, ⟨3⟩⟩).insertTransition
    ⟨⟨3⟩, ⟨4⟩, ⟨1⟩⟩).insertTransition ⟨⟨3⟩, ⟨1⟩, ⟨2⟩⟩).setInitialState ⟨1⟩).setMarkedState ⟨1⟩)

theorem machine_wellFormed : machine.WellFormed :=
  (((((((WellFormed.new _).insertTransition _).insertTransition _).insertTransition
    _).insertTransition _).insertTransition _).setInitialState _).setMarkedState _

theorem machine_isDeterministic : machine.IsDeterministic := by decide

/-- A machine that is always repaired after a failure. As a specification it asks
that the machine be not started again before. -/
def repairedMachine : Automaton :=
  (((((((Automaton.new "repaired").insertTransition ⟨⟨1⟩, ⟨1⟩, ⟨2⟩⟩).insertTransition
    ⟨⟨2⟩, ⟨2⟩, ⟨1⟩⟩).insertTransition ⟨⟨2⟩, ⟨3⟩, ⟨3⟩⟩).insertTransition
    ⟨⟨3⟩, ⟨4⟩, ⟨1⟩⟩).setInitialState ⟨1⟩).setMarkedState ⟨1⟩)

theorem repairedMachine_wellFormed : repairedMachine.WellFormed :=
  ((((((WellFormed.new _).insertTransition _).insertTransition _).insertTransition
    _).insertTransition _).setInitialState _).setMarkedState _

theorem repairedMachine_isDeterministic : repairedMachine.IsDeterministic := by decide

/-- A machine that may fail while it is being started, and may have failed before
anybody looks. So it is not deterministic, and has two initial states. -/
def fragileMachine : Automaton := (machine.insertTransition ⟨⟨1⟩, ⟨1⟩, ⟨3⟩⟩).setInitialState ⟨3⟩

theorem fragileMachine_wellFormed : fragileMachine.WellFormed :=
  (machine_wellFormed.insertTransition _).setInitialState _

end OmegaControl.Automaton
