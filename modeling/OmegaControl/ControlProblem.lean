import OmegaControl.Automaton.Trim
import OmegaControl.SynthesisError

/-!
# Control problems

A control problem consists of a plant, the events of it that a supervisor may
disable, and a specification; under partial observation also of the events that a
supervisor sees. It makes sense if plant and specification speak of the same
events, the given events are among them, and both automata are deterministic.

Each condition is one check. Checks are made one after another, so the first
condition that fails decides the error.
-/

namespace OmegaControl

/-- A plant and what is asked of it. -/
structure ControlProblem where
  plant : Automaton
  /-- the events that a supervisor may disable -/
  controllable : EventSet
  spec : Automaton

/-- A control problem for a supervisor that sees only some events. -/
structure ObservedProblem extends ControlProblem where
  /-- the events that a supervisor sees -/
  observable : EventSet

/-- The result of a check. -/
abbrev Check := Except SynthesisError Unit

/-- Do plant and specification have the same alphabet? -/
def checkAlphabets (plant spec : Automaton) : Check :=
  if plant.alphabet = spec.alphabet then .ok ()
  else .error (.alphabetMismatch (plant.alphabet \ spec.alphabet) (spec.alphabet \ plant.alphabet))

/-- Are the events given for a role events of the plant? -/
def checkEvents (role : String) (plant : Automaton) (events : EventSet) : Check :=
  if events ⊆ plant.alphabet then .ok ()
  else .error (.eventsNotInAlphabet role (events \ plant.alphabet))

/-- Are plant and specification deterministic? -/
def checkDeterministic (plant spec : Automaton) : Check :=
  if plant.IsDeterministic then
    if spec.IsDeterministic then .ok () else .error (.notDeterministic .specification)
  else
    .error (.notDeterministic (if spec.IsDeterministic then .plant else .both))

/-- Is the automaton omega-trim? -/
def checkOmegaTrim (g : Automaton) : Check :=
  if g.isOmegaTrim then .ok () else .error (.notOmegaTrim g.name)

/-- Does the control problem make sense? -/
def ControlProblem.check (p : ControlProblem) : Check := do
  checkAlphabets p.plant p.spec
  checkEvents "controllable" p.plant p.controllable
  checkDeterministic p.plant p.spec

/-- Does the control problem make sense under partial observation? -/
def ObservedProblem.check (p : ObservedProblem) : Check := do
  p.toControlProblem.check
  checkEvents "observable" p.plant p.observable

end OmegaControl
