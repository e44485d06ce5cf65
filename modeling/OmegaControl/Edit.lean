import OmegaControl.Controllability
import OmegaControl.Liveness.Observed
import OmegaControl.Normality

/-!
# Edits

An automaton is built and changed by edits. Each edit is one operation of the
store, and answers what the operation found out: whether something was new, was
there or is left, or which state was added. A script of edits, applied to an
automaton without states and events, gives every automaton there is to work with.

Restrictions that depend on a plant are edits of the candidate; making a candidate
normal is one of its observer as well. Those that report progress count as edits
when nobody cancels them.
-/

namespace OmegaControl

/-- A change of an automaton. -/
inductive Edit where
  | setName (name : String)
  | insertEvent (ev : EventId)
  | insertEvents (events : EventSet)
  | insertNamedEvent (ev : EventId) (name : String)
  | setEventName (ev : EventId) (name : String)
  | copyEventNames (other : Automaton)
  | insertState
  | insertInitialState
  | insertMarkedState
  | insertStateWithId (x : StateId)
  | deleteState (x : StateId)
  | deleteStates (xs : StateSet)
  | restrictStates (xs : StateSet)
  | clearStates
  | setInitialState (x : StateId)
  | clearInitialState (x : StateId)
  | setMarkedState (x : StateId)
  | clearMarkedState (x : StateId)
  | replaceMarking (xs : StateSet)
  | markAllStates
  | insertTransition (t : Transition)
  | eraseTransition (t : Transition)
  | retainTransitions (keep : Transition → Bool)
  | setStateNamesEnabled (enabled : Bool)
  | setStateName (x : StateId) (name : String)
  | accessible
  | coaccessible
  | trim
  | complete
  | omegaTrim
  | inverseProject (events : EventSet)
  | applyFeedback (feedback : FeedbackMap)
  | controllablePart (plant : Automaton) (controllable : EventSet)
  | normalPart (plant : Automaton) (permitted : EventSet) (observer : Automaton)
  | observeNormalPart (plant : Automaton) (permitted : EventSet) (cand : Automaton)
  | restrictToEnforceable (controllable : EventSet) (plantMarking : StateSet)
  | restrictWithFeedback (controllable : EventSet) (plantMarking : StateSet)
  | restrictObserved (controllable : EventSet) (plantMarking : StateSet) (classes : ObserverMap)

namespace Edit

/-- Keeps the transitions on some events. -/
def retainEvents (events : EventSet) : Edit := retainTransitions (·.event ∈ events)

/-- The states that an edit adds under numbers of the caller. -/
def namedStates : Edit → List StateId
  | insertStateWithId x | setInitialState x | setMarkedState x => [x]
  | insertTransition t => [t.source, t.target]
  | _ => []

/-- What an edit answers. -/
inductive Answer where
  /-- there is nothing to say -/
  | none
  /-- was it new, was it there, or is something left? -/
  | flag (b : Bool)
  /-- the state that was added -/
  | state (x : StateId)
  deriving DecidableEq

/-- The answer to a restriction: is a start left? -/
private def restricted (g : Automaton) : Answer × Automaton := (.flag g.hasInitial, g)

/-- The answer to adding a fresh state. -/
private def added (r : StateId × Automaton) : Answer × Automaton := (.state r.1, r.2)

/-- Carries out an edit. -/
def apply (g : Automaton) : Edit → Answer × Automaton
  | setName name => (.none, g.setName name)
  | insertEvent ev => (.flag (ev ∉ g.alphabet), g.insertEvent ev)
  | insertEvents events => (.none, g.insertEvents events)
  | insertNamedEvent ev name => (.none, g.insertNamedEvent ev name)
  | setEventName ev name => (.none, g.setEventName ev name)
  | copyEventNames other => (.none, g.copyEventNames other)
  | insertState => added g.insertState
  | insertInitialState => added g.insertInitialState
  | insertMarkedState => added g.insertMarkedState
  | insertStateWithId x => (.flag (x ∉ g.states), g.insertStateWithId x)
  | deleteState x => (.none, g.deleteState x)
  | deleteStates xs => (.none, g.deleteStates xs)
  | restrictStates xs => (.none, g.restrictStates xs)
  | clearStates => (.none, g.clearStates)
  | setInitialState x => (.none, g.setInitialState x)
  | clearInitialState x => (.none, g.clearInitialState x)
  | setMarkedState x => (.none, g.setMarkedState x)
  | clearMarkedState x => (.none, g.clearMarkedState x)
  | replaceMarking xs => (.none, g.replaceMarking xs)
  | markAllStates => (.none, g.markAllStates)
  | insertTransition t => (.flag (t ∉ g.transitions), g.insertTransition t)
  | eraseTransition t => (.flag (t ∈ g.transitions), g.eraseTransition t)
  | retainTransitions keep => (.none, g.retainTransitions keep)
  | setStateNamesEnabled enabled => (.none, g.setStateNamesEnabled enabled)
  | setStateName x name => (.none, g.setStateName x name)
  | accessible => restricted g.accessible
  | coaccessible => restricted g.coaccessible
  | trim => restricted g.trim
  | complete => restricted g.complete
  | omegaTrim => (.flag g.omegaTrim.acceptsSome, g.omegaTrim)
  | inverseProject events => (.none, g.inverseProject events)
  | applyFeedback feedback => (.none, OmegaControl.applyFeedback g feedback)
  | controllablePart plant controllable =>
    (.none, OmegaControl.controllablePart plant controllable g)
  | normalPart plant permitted observer =>
    (.none, (OmegaControl.normalPart plant permitted ⟨observer, g⟩).cand)
  | observeNormalPart plant permitted cand =>
    (.none, (OmegaControl.normalPart plant permitted ⟨g, cand⟩).observer)
  | restrictToEnforceable controllable plantMarking =>
    (.none, (OmegaControl.restrictToEnforceable g controllable plantMarking).value)
  | restrictWithFeedback controllable plantMarking =>
    (.none, (OmegaControl.restrictWithFeedback g controllable plantMarking).value.1)
  | restrictObserved controllable plantMarking classes =>
    (.none, (OmegaControl.restrictObserved g controllable plantMarking classes).value.1)

/-- Carries out a script of edits. -/
def applyAll (g : Automaton) (edits : List Edit) : Automaton :=
  edits.foldl (fun g e => (apply g e).2) g

end Edit

end OmegaControl
