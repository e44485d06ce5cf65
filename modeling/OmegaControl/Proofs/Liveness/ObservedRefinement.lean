import OmegaControl.Proofs.Liveness.Cautious
import OmegaControl.Proofs.Liveness.ObservedLoop

/-!
# Partial observation refines full observation

Whatever the classes are, the patterns leave only states that are enforceable under
full observation, since they are a cautious rule. If each state is alone in its
class, no two states of a class have anything in common, so nothing is lost: the
same states are left, and the patterns disable what the recorded feedback disables
(`restrictObserved_refines`).

Between these two cases fewer states may be left, as what one state of a class asks
for binds all of them.
-/

namespace OmegaControl

variable {g : Automaton} {controllable : EventSet} {plantMarking : StateSet} {classes : ObserverMap}

/-- States that are told apart have no class in common. -/
theorem Automaton.ClassesApart.of_injOn (controllable : EventSet) (hwf : g.WellFormed)
    (hinj : Set.InjOn (ObservationClass.of classes) g.states.carrier) :
    g.ClassesApart controllable classes := fun s hs t ht _ _ hclass =>
  hinj (hwf.source_mem s hs) (hwf.source_mem t ht) hclass

/-- Patterns leave enforceable states only. -/
theorem states_restrictObserved_subset {x : StateId}
    (hx : x ∈ (restrictObserved g controllable plantMarking classes).value.1.states) :
    x ∈ g.enforceable controllable plantMarking := by
  rw [value_restrictObserved, Automaton.mem_states_restrictStates] at hx
  exact (Rule.cautious_observed g controllable classes).subset_enforceable hx.2

/-- **Partial observation refines full observation**: the patterns leave no more states, and
if the classes tell all states apart, the same ones with the same transitions enabled. -/
theorem restrictObserved_refines {σ : Type} {o : Observer σ} (ho : o.NeverCancels)
    (hwf : g.WellFormed) (hg : g.HasUniqueSuccessors) :
    ∃ all rest feedback seen patterns,
      (o.watch (restrictToEnforceable g controllable plantMarking)).2 = .ok all ∧
      (o.watch (restrictWithFeedback g controllable plantMarking)).2 = .ok (rest, feedback) ∧
      (o.watch (restrictObserved g controllable plantMarking classes)).2 = .ok (seen, patterns) ∧
      (∀ x ∈ seen.states, x ∈ all.states) ∧
      (Set.InjOn (ObservationClass.of classes) g.states.carrier →
        seen.states = all.states ∧
        (applyFeedback seen patterns).transitions = (applyFeedback rest feedback).transitions) := by
  refine ⟨_, _, _, _, _, Observer.watch_eq_value ho _, Observer.watch_eq_value ho _,
    Observer.watch_eq_value ho _, fun x hx => ?_, fun hinj => ?_⟩
  · exact states_restrictToEnforceable.mpr (states_restrictObserved_subset hx)
  · have hapart := Automaton.ClassesApart.of_injOn controllable hwf hinj
    constructor
    · rw [restrictObserved_fst hg hapart, restricted_fst, value_restrictToEnforceable]
    · exact congrArg Automaton.transitions (applyFeedback_restrictObserved hg hapart hwf)

/-- Every state of the machine in a class of its own. -/
def machineIdentity : ObserverMap := machineClasses.insert ⟨2⟩ ⟨2⟩

/-- At the machine, with a class of its own for each state: both ways to enforce the
marking keep the same states and transitions. -/
theorem restrictObserved_refines_machine :
    Observer.patient.NeverCancels ∧ Automaton.machine.WellFormed ∧
      Automaton.machine.HasUniqueSuccessors ∧
      Set.InjOn (ObservationClass.of machineIdentity) Automaton.machine.states.carrier ∧
      ∃ all rest feedback seen patterns,
        (Observer.patient.watch (restrictToEnforceable Automaton.machine (.ofList [⟨1⟩, ⟨4⟩])
          (.singleton ⟨2⟩))).2 = .ok all ∧
        (Observer.patient.watch (restrictWithFeedback Automaton.machine (.ofList [⟨1⟩, ⟨4⟩])
          (.singleton ⟨2⟩))).2 = .ok (rest, feedback) ∧
        (Observer.patient.watch (restrictObserved Automaton.machine (.ofList [⟨1⟩, ⟨4⟩])
          (.singleton ⟨2⟩) machineIdentity)).2 = .ok (seen, patterns) ∧
        (∀ x ∈ seen.states, x ∈ all.states) ∧
        seen.states = all.states ∧
        (applyFeedback seen patterns).transitions = (applyFeedback rest feedback).transitions := by
  have hinj : Set.InjOn (ObservationClass.of machineIdentity)
      Automaton.machine.states.carrier := by
    have hlist : ∀ x ∈ Automaton.machine.states.toList, ∀ y ∈ Automaton.machine.states.toList,
        ObservationClass.of machineIdentity x = ObservationClass.of machineIdentity y → x = y := by
      decide +kernel
    exact fun x hx y hy => hlist x (IdentSet.mem_toList.mpr hx) y (IdentSet.mem_toList.mpr hy)
  obtain ⟨all, rest, feedback, seen, patterns, hall, hrest, hseen, hsubset, hsame⟩ :=
    @restrictObserved_refines Automaton.machine (.ofList [⟨1⟩, ⟨4⟩]) (.singleton ⟨2⟩) machineIdentity
      _ _ Observer.neverCancels_patient Automaton.machine_wellFormed
      Automaton.machine_isDeterministic.hasUniqueSuccessors
  exact ⟨Observer.neverCancels_patient, Automaton.machine_wellFormed,
    Automaton.machine_isDeterministic.hasUniqueSuccessors, hinj, all, rest, feedback, seen,
    patterns, hall, hrest, hseen, hsubset, hsame hinj⟩

end OmegaControl
