import OmegaControl.Proofs.Liveness.Observed

/-!
# The closed loop under patterns

If no two states of one class have a controllable event in common, `restrictObserved` leaves
what `restrictWithFeedback` leaves, and applying the patterns gives the same closed loop
(`applyFeedback_restrictObserved`). So the patterns are as good as the recorded feedback.

What the feedback map says about a state depends on its class alone, whatever the classes are
(`getElem?_restrictObserved`, `enabledUnder_congr`). That it enables what the recorded feedback
enables (`event_mem_enabled`) takes classes whose states do not compete for an event; the classes
`machineClasses` of the machine are of this kind.
-/

namespace OmegaControl

variable {g : Automaton} {controllable : EventSet} {plantMarking : StateSet} {classes : ObserverMap}

/-- What the patterns enable at the states that are left. An event that no pattern
speaks of is enabled. -/
def enabledUnder (rest : Automaton) (classes : ObserverMap) (patterns : ClassPatterns)
    (x : StateId) : EventSet :=
  rest.alphabet \ (patterns[ObservationClass.of classes x]?.getD ∅).disableAll

/-- What the restriction returns, in terms of what the loops have found and
recorded. -/
theorem value_restrictObserved : (restrictObserved g controllable plantMarking classes).value =
    let found := ((Rule.observed g controllable classes).enforceable g plantMarking).value
    let rest := g.restrictStates found.1
    (rest, .ofList (found.1.toList.map fun x => (x, enabledUnder rest classes found.2.total x))) := by
  rw [restrictObserved, Watched.value_bind]
  rfl

/-- The closed loop is well-formed, be it that feedback is given for states that are
none. -/
theorem Automaton.WellFormed.applyFeedback_observed (hwf : g.WellFormed) (controllable : EventSet)
    (plantMarking : StateSet) (classes : ObserverMap) :
    (applyFeedback (restrictObserved g controllable plantMarking classes).value.1
      (restrictObserved g controllable plantMarking classes).value.2).WellFormed := by
  rw [applyFeedback, value_restrictObserved]
  exact (hwf.restrictStates _).retainTransitions _

/-- What is left, as both rules find it. -/
abbrev observedStates (g : Automaton) (controllable : EventSet) (plantMarking : StateSet)
    (classes : ObserverMap) : StateSet :=
  ((Rule.observed g controllable classes).enforceable g plantMarking).value.1

/-- The patterns that are recorded in the end. -/
abbrev observedPatterns (g : Automaton) (controllable : EventSet) (plantMarking : StateSet)
    (classes : ObserverMap) : ClassPatterns :=
  ((Rule.observed g controllable classes).enforceable g plantMarking).value.2.total

/-- The feedback map tells what is enabled at the states that are left. -/
theorem getElem?_restrictObserved {x : StateId} {enabled : EventSet} :
    (restrictObserved g controllable plantMarking classes).value.2[x]? = some enabled ↔
      x ∈ observedStates g controllable plantMarking classes ∧
        enabled = enabledUnder (restrictObserved g controllable plantMarking classes).value.1 classes
          (observedPatterns g controllable plantMarking classes) x := by
  rw [value_restrictObserved]
  exact getElem?_ofList_states

/-- All states of a class get the same events. -/
theorem enabledUnder_congr {rest : Automaton} {patterns : ClassPatterns} {x y : StateId}
    (h : ObservationClass.of classes x = ObservationClass.of classes y) :
    enabledUnder rest classes patterns x = enabledUnder rest classes patterns y := by
  rw [enabledUnder, enabledUnder, h]

section

variable (hg : g.HasUniqueSuccessors) (hapart : g.ClassesApart controllable classes)
include hg hapart

/-- The same states are left as under full observation, with the same transitions
between them. -/
theorem restrictObserved_fst : (restrictObserved g controllable plantMarking classes).value.1 =
    (restricted g controllable plantMarking).1 := by
  rw [restricted_fst, value_restrictObserved]
  exact congrArg g.restrictStates (Rule.observed_agrees plantMarking hg hapart).1.symm

/-- The patterns disable what has been recorded. -/
theorem event_mem_patterns {t : Transition} (ht : t ∈ g.transitions) :
    t.event ∈ ((observedPatterns g controllable plantMarking classes)[
        ObservationClass.of classes t.source]?.getD ∅).disableAll ↔
      t.event ∈ (foundWithRecords g controllable plantMarking).2[t.source]?.getD ∅ := by
  have hagrees := (Rule.observed_agrees plantMarking hg hapart).2
  refine (hagrees.event_mem_disableAll hapart ht).trans ?_
  rw [foundWithRecords]
  cases ((Rule.feedback g controllable).enforceable g plantMarking).value.2.total[t.source]? <;> simp

/-- At the states that are left, the patterns enable what the recorded feedback enables. -/
theorem event_mem_enabled (hwf : g.WellFormed) {t : Transition} (ht : t ∈ g.transitions)
    {enabled : EventSet}
    (henabled : (restrictObserved g controllable plantMarking classes).value.2[t.source]? =
      some enabled) :
    t.event ∈ enabled ↔
      t.event ∉ (foundWithRecords g controllable plantMarking).2[t.source]?.getD ∅ := by
  obtain ⟨-, rfl⟩ := getElem?_restrictObserved.mp henabled
  rw [enabledUnder, IdentSet.mem_sdiff, event_mem_patterns hg hapart ht, restrictObserved_fst hg hapart,
    restricted_fst, Automaton.restrictStates, Automaton.alphabet_deleteStates]
  exact and_iff_right (hwf.event_mem t ht)

/-- The states that are left are those that the other restriction leaves. -/
theorem observedStates_eq : observedStates g controllable plantMarking classes =
    (restricted g controllable plantMarking).1.states := by
  rw [states_restricted]
  exact (Rule.observed_agrees plantMarking hg hapart).1.symm

/-- **The closed loop under patterns** is that under the recorded feedback. At a
state that is left the patterns may enable other events than the records, but none
on which it has a transition. -/
theorem applyFeedback_restrictObserved (hwf : g.WellFormed) :
    applyFeedback (restrictObserved g controllable plantMarking classes).value.1
        (restrictObserved g controllable plantMarking classes).value.2 =
      closedLoop g controllable plantMarking := by
  rw [closedLoop, applyFeedback, applyFeedback, restrictObserved_fst hg hapart]
  refine Automaton.retainTransitions_congr fun t ht => ?_
  obtain ⟨htg, hsource, -⟩ := (restricted_isPart hwf).mem_transitions.mp ht
  have hloop : ((restricted g controllable plantMarking).2[t.source]?.any (t.event ∈ ·)) = true ↔
      t ∈ (closedLoop g controllable plantMarking).transitions := by
    rw [closedLoop, applyFeedback, Automaton.mem_retainTransitions]
    exact (and_iff_right ht).symm
  rw [Bool.eq_iff_iff, hloop, mem_transitions_closedLoop hwf hg, Option.any_eq_true]
  have hstate : t.source ∈ observedStates g controllable plantMarking classes := by
    rwa [observedStates_eq hg hapart]
  have henabled := getElem?_restrictObserved.mpr ⟨hstate, rfl⟩
  constructor
  · rintro ⟨enabled, hget, hev⟩
    exact ⟨htg, hsource, (event_mem_enabled hg hapart hwf htg hget).mp (of_decide_eq_true hev)⟩
  · rintro ⟨-, -, hev⟩
    exact ⟨_, henabled, decide_eq_true ((event_mem_enabled hg hapart hwf htg henabled).mpr hev)⟩

end

/-- For the machine one need not tell its first state from its second. -/
def machineClasses : ObserverMap := ((∅ : ObserverMap).insert ⟨1⟩ ⟨1⟩).insert ⟨2⟩ ⟨1⟩

theorem machine_classesApart :
    Automaton.machine.ClassesApart (.ofList [⟨1⟩, ⟨4⟩]) machineClasses := by decide +kernel

end OmegaControl
