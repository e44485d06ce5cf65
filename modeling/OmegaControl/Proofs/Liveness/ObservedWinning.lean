import OmegaControl.Proofs.Liveness.Confinement

/-!
# What patterns can promise

A winning supervisor keeps the run among the states that are left, has a marked state ahead of
every one of them, and lets no cycle visit the plant marking without a marked state. Patterns
promise the last of these for every observer map, and give all states of a class the same events
(`observed_winning`). The first two they promise if no two states of one class have a controllable
event in common; then they also leave all the states that full observation leaves.

Without that condition both of them fail. The rule accepts a state under the pattern that stands
when it looks at it, even if what the state asks for was rejected together with the demands of
other states of its class, so nothing holds the pattern to it afterwards.

* The pattern grows, and in the end it disables all that the state lives on
  (`observed_not_winning`).
* The state through which another one was found had been taken away in an earlier round, so it is
  not kept, and an uncontrollable event leads there (`observed_leaves_kept`).
-/

namespace OmegaControl

variable {g : Automaton} {controllable : EventSet} {plantMarking : StateSet} {classes : ObserverMap}

section

variable (hg : g.HasUniqueSuccessors) (hapart : g.ClassesApart controllable classes)
include hg hapart

/-- The same states are left as under full observation, as both functions return them. -/
theorem watch_restrictToEnforceable_observed {σ : Type} {o : Observer σ} (ho : o.NeverCancels) :
    (o.watch (restrictToEnforceable g controllable plantMarking)).2 =
      .ok (restrictObserved g controllable plantMarking classes).value.1 := by
  rw [Observer.watch_eq_value ho, value_restrictToEnforceable, ← restricted_fst,
    restrictObserved_fst hg hapart]

/-- What is enabled at a state that is left does not lead away from these states: there the patterns
enable what the recorded feedback enables, and the certificate of the five loops keeps that inside. -/
theorem target_mem_observed (hwf : g.WellFormed) {t : Transition} {enabled : EventSet}
    (hx : t.source ∈ (restrictObserved g controllable plantMarking classes).value.1.states)
    (henabled : (restrictObserved g controllable plantMarking classes).value.2[t.source]? =
      some enabled)
    (ht : t ∈ g.transitions) (hev : t.event ∈ enabled) :
    t.target ∈ (restrictObserved g controllable plantMarking classes).value.1.states := by
  rw [event_mem_enabled hg hapart hwf ht henabled] at hev
  rw [restrictObserved_fst hg hapart] at hx ⊢
  obtain ⟨outer, inner, hcert⟩ := exists_certificate controllable plantMarking hg
  exact hcert.target_mem_kept ht hx hev

/-- From every state that is left the closed loop can go on to a marked state. -/
theorem marked_ahead_observed (hwf : g.WellFormed) {x : StateId}
    (hx : x ∈ (restrictObserved g controllable plantMarking classes).value.1.states) :
    ∃ ts, ts ≠ [] ∧ (observedLoop g controllable plantMarking classes).IsPath x ts ∧
      endOf x ts ∈ (observedLoop g controllable plantMarking classes).marked := by
  obtain ⟨outer, inner, hmeasure⟩ := exists_progressMeasure controllable plantMarking hwf hg
  rw [restrictObserved_fst hg hapart] at hx
  rw [observedLoop, applyFeedback_restrictObserved hg hapart hwf]
  exact hmeasure.marked_ahead hx

end

/-- **What the feedback under patterns promises.** For every observer map the states of a class get
the same events, and no cycle of the closed loop visits the plant marking without a marked state. If
no two states of one class have a controllable event in common, the feedback is a winning
supervisor on the states that are left under full observation. -/
theorem observed_winning {σ : Type} {o : Observer σ} (ho : o.NeverCancels) (hwf : g.WellFormed) :
    ∃ rest feedback,
      (o.watch (restrictObserved g controllable plantMarking classes)).2 = .ok (rest, feedback) ∧
      (∀ x ∈ rest.states, ∃ enabled, feedback[x]? = some enabled ∧
        ∀ y ∈ rest.states, ObservationClass.of classes y = ObservationClass.of classes x →
          feedback[y]? = some enabled) ∧
      (∀ x ts, (applyFeedback rest feedback).IsPath x ts → endOf x ts = x →
        (∃ t ∈ ts, t.target ∈ plantMarking) →
        ∃ t ∈ ts, t.target ∈ (applyFeedback rest feedback).marked) ∧
      (g.HasUniqueSuccessors → g.ClassesApart controllable classes →
        (o.watch (restrictToEnforceable g controllable plantMarking)).2 = .ok rest ∧
        ∀ x ∈ rest.states,
          (∀ enabled, feedback[x]? = some enabled → ∀ t ∈ g.transitions, t.source = x →
            t.event ∈ enabled → t.target ∈ rest.states) ∧
          ∃ ts, ts ≠ [] ∧ (applyFeedback rest feedback).IsPath x ts ∧
            endOf x ts ∈ (applyFeedback rest feedback).marked) := by
  refine ⟨_, _, Observer.watch_eq_value ho _, fun x hx => ?_, fun x ts hts hcycle hplant => ?_,
    fun hg hapart => ⟨watch_restrictToEnforceable_observed hg hapart ho, fun x hx => ⟨?_, ?_⟩⟩⟩
  · refine ⟨_, getElem?_restrictObserved.mpr ⟨mem_observedStates hx, rfl⟩, fun y hy hclass => ?_⟩
    exact getElem?_restrictObserved.mpr ⟨mem_observedStates hy, (enabledUnder_congr hclass).symm⟩
  · exact marked_of_cycle_observedLoop hwf hts hcycle hplant
  · rintro enabled henabled t ht rfl hev
    exact target_mem_observed hg hapart hwf hx henabled ht hev
  · exact marked_ahead_observed hg hapart hwf hx

/-- The machine may be started again after a failure, though its first state and its second look the
same: no event that can be disabled leaves both. -/
theorem observed_winning_machine :
    Observer.patient.NeverCancels ∧ Automaton.machine.WellFormed ∧
      Automaton.machine.HasUniqueSuccessors ∧
      Automaton.machine.ClassesApart (.ofList [⟨1⟩, ⟨4⟩]) machineClasses ∧ ∃ rest feedback,
      (Observer.patient.watch (restrictObserved Automaton.machine (.ofList [⟨1⟩, ⟨4⟩])
        (.singleton ⟨2⟩) machineClasses)).2 = .ok (rest, feedback) ∧
      (∀ x ∈ rest.states, ∃ enabled, feedback[x]? = some enabled ∧
        ∀ y ∈ rest.states, ObservationClass.of machineClasses y =
          ObservationClass.of machineClasses x → feedback[y]? = some enabled) ∧
      (∀ x ts, (applyFeedback rest feedback).IsPath x ts → endOf x ts = x →
        (∃ t ∈ ts, t.target ∈ (.singleton ⟨2⟩ : StateSet)) →
        ∃ t ∈ ts, t.target ∈ (applyFeedback rest feedback).marked) ∧
      (Observer.patient.watch (restrictToEnforceable Automaton.machine (.ofList [⟨1⟩, ⟨4⟩])
        (.singleton ⟨2⟩))).2 = .ok rest ∧
      ∀ x ∈ rest.states,
        (∀ enabled, feedback[x]? = some enabled → ∀ t ∈ Automaton.machine.transitions,
          t.source = x → t.event ∈ enabled → t.target ∈ rest.states) ∧
        ∃ ts, ts ≠ [] ∧ (applyFeedback rest feedback).IsPath x ts ∧
          endOf x ts ∈ (applyFeedback rest feedback).marked := by
  have hg := Automaton.machine_isDeterministic.hasUniqueSuccessors
  obtain ⟨rest, feedback, hrest, hclass, hcycle, hwinning⟩ :=
    @observed_winning Automaton.machine (.ofList [⟨1⟩, ⟨4⟩]) (.singleton ⟨2⟩) machineClasses _ _
      Observer.neverCancels_patient Automaton.machine_wellFormed
  exact ⟨Observer.neverCancels_patient, Automaton.machine_wellFormed, hg, machine_classesApart,
    rest, feedback, hrest, hclass, hcycle, hwinning hg machine_classesApart⟩

/-! ## States of one class at odds -/

/-- In its second state event 2 has to be disabled, as the loop there visits the
plant marking without a marked state. In its fourth state the same event is the only
way out. -/
def Automaton.standoff : Automaton :=
  (((((((((Automaton.new "standoff").insertTransition ⟨⟨1⟩, ⟨2⟩, ⟨2⟩⟩).insertTransition
    ⟨⟨1⟩, ⟨3⟩, ⟨4⟩⟩).insertTransition ⟨⟨2⟩, ⟨1⟩, ⟨3⟩⟩).insertTransition
    ⟨⟨2⟩, ⟨2⟩, ⟨2⟩⟩).insertTransition ⟨⟨3⟩, ⟨1⟩, ⟨1⟩⟩).insertTransition
    ⟨⟨4⟩, ⟨1⟩, ⟨4⟩⟩).insertTransition ⟨⟨4⟩, ⟨2⟩, ⟨3⟩⟩).setInitialState ⟨1⟩).setMarkedState ⟨1⟩

/-- All states from the first to the fourth look the same. -/
def standoffClasses : ObserverMap :=
  ((machineClasses.insert ⟨3⟩ ⟨1⟩).insert ⟨4⟩ ⟨1⟩)

/-- **The feedback under patterns need not be winning.** The fourth state is kept, though event
2 is disabled there and it does nothing but loop. -/
theorem observed_not_winning :
    Automaton.standoff.HasUniqueSuccessors ∧ ∃ rest feedback,
      (Observer.patient.watch (restrictObserved Automaton.standoff (.singleton ⟨2⟩)
        (.singleton ⟨2⟩) standoffClasses)).2 = .ok (rest, feedback) ∧
      ⟨4⟩ ∈ rest.states ∧ ¬∃ ts, ts ≠ [] ∧ (applyFeedback rest feedback).IsPath ⟨4⟩ ts ∧
        endOf ⟨4⟩ ts ∈ (applyFeedback rest feedback).marked := by
  have hloop : ∀ t ∈ (observedLoop Automaton.standoff (.singleton ⟨2⟩) (.singleton ⟨2⟩)
      standoffClasses).transitions.toList, t.source = ⟨4⟩ → t.target = ⟨4⟩ := by decide +kernel
  refine ⟨Automaton.IsDeterministic.hasUniqueSuccessors (by decide), _, _,
    Observer.watch_eq_value Observer.neverCancels_patient _, by decide +kernel, ?_⟩
  rintro ⟨ts, -, hts, hmarked⟩
  -- whatever the length of the path, it has not left the fourth state
  have hend : ∀ ts, (observedLoop Automaton.standoff (.singleton ⟨2⟩) (.singleton ⟨2⟩)
      standoffClasses).IsPath ⟨4⟩ ts → endOf ⟨4⟩ ts = ⟨4⟩ := by
    intro ts hts
    induction ts with
    | nil => rfl
    | cons t ts ih =>
      obtain ⟨ht, hsource, hts⟩ := hts
      have htarget := hloop t (Std.ExtTreeSet.mem_toList.mpr ht) hsource
      rw [endOf_cons, htarget]
      exact ih (htarget ▸ hts)
  rw [hend ts hts] at hmarked
  exact absurd hmarked (by decide +kernel)

/-- Its fourth state can go on by event 1, if at the second one event 2 is disabled,
which leads to a dead end. It can also go on by event 2 itself. -/
def Automaton.breakaway : Automaton :=
  (((((((Automaton.new "breakaway").insertTransition ⟨⟨1⟩, ⟨1⟩, ⟨4⟩⟩).insertTransition
    ⟨⟨2⟩, ⟨1⟩, ⟨1⟩⟩).insertTransition ⟨⟨2⟩, ⟨2⟩, ⟨3⟩⟩).insertTransition
    ⟨⟨4⟩, ⟨1⟩, ⟨2⟩⟩).insertTransition ⟨⟨4⟩, ⟨2⟩, ⟨1⟩⟩).setInitialState ⟨1⟩).setMarkedState ⟨4⟩

/-- **Nor need it keep the run among the states that are left.** In the last round the second state
is found again, and the fourth through it, but an earlier round has taken the second one away; so the
fourth is kept without it, and uncontrollable event 1 leads there. -/
theorem observed_leaves_kept :
    Automaton.breakaway.HasUniqueSuccessors ∧ ∃ rest feedback enabled,
      (Observer.patient.watch (restrictObserved Automaton.breakaway (.singleton ⟨2⟩)
        (.singleton ⟨4⟩) standoffClasses)).2 = .ok (rest, feedback) ∧
      ⟨4⟩ ∈ rest.states ∧ feedback[(⟨4⟩ : StateId)]? = some enabled ∧
      ∃ t ∈ Automaton.breakaway.transitions, t.source = ⟨4⟩ ∧ t.event ∉ (.singleton ⟨2⟩ : EventSet) ∧
        t.event ∈ enabled ∧ t.target ∉ rest.states := by
  refine ⟨Automaton.IsDeterministic.hasUniqueSuccessors (by decide), _, _, _,
    Observer.watch_eq_value Observer.neverCancels_patient _, by decide +kernel,
    getElem?_restrictObserved.mpr ⟨by decide +kernel, rfl⟩, ⟨⟨4⟩, ⟨1⟩, ⟨2⟩⟩, by decide +kernel, rfl,
    by decide +kernel, by decide +kernel, by decide +kernel⟩

end OmegaControl
