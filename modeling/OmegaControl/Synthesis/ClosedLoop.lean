import OmegaControl.RelativeClosedness
import OmegaControl.Synthesis.Normal

/-!
# Solutions and closed loops

The operations that check their arguments. `supremal` and `normal` return a
solution of a control problem; `closedLoop` and `normalClosedLoop` return what is
left of it under a supervisor that enforces the marking, and verify that if asked
to. Results are named after the control problem.

A checked operation fails with the first error it meets. Being cancelled is one of
them.
-/

namespace OmegaControl

/-- A watched computation that may fail. -/
abbrev Checked := ExceptT SynthesisError Watched

/-- Runs a computation that may fail under an observer. -/
def Observer.watchChecked {σ α : Type} (o : Observer σ) (w : Checked α) :
    List Checkpoint × Except SynthesisError α :=
  match o.watch w.run with
  | (cs, .ok result) => (cs, result)
  | (cs, .error .cancelled) => (cs, .error .cancelled)

/-- Fails if a result does not have a property. -/
def verify (what : String) (holds : Bool) : Check :=
  if holds then .ok () else .error (.verificationFailed what)

/-- Is `cand` controllable and relatively closed with respect to `plant`? The two must
have one alphabet, be omega-trim and, unless one is empty, deterministic. -/
def checkOmegaControllable (plant : Automaton) (controllable : EventSet) (cand : Automaton) :
    Except SynthesisError Bool := do
  checkAlphabets plant cand
  checkOmegaTrim plant
  checkOmegaTrim cand
  if cand.isEmpty then return true
  if plant.isEmpty then return false
  checkDeterministic plant cand
  return isControllable plant controllable cand && isRelativelyClosed plant cand

namespace ControlProblem

/-- The name of a result: what it is, of which plant and specification. -/
def resultName (c : ControlProblem) (what : String) : String :=
  what ++ "((" ++ c.plant.name ++ "),(" ++ c.spec.name ++ "))"

/-- The largest solution. -/
def supremal (c : ControlProblem) (config : SynthesisConfig) : Checked Automaton := do
  c.check
  let g ← c.supremalUnchecked config
  pure (g.setName (c.resultName "SupBuechiCon"))

/-- Verifies that a closed loop is controllable and relatively closed. -/
def verifyClosedLoop (c : ControlProblem) (g : Automaton) : Check := do
  verify "controllability" (isControllable c.plant c.controllable g)
  verify "relative closedness" (isRelativelyClosed c.plant g)

/-- The closed loop under a supervisor that enforces the largest solution. -/
def closedLoop (c : ControlProblem) (config : SynthesisConfig) : Checked Automaton := do
  c.check
  let candidate ← c.supremalCandidate config
  let (g, feedback) ←
    restrictWithFeedback candidate.automaton c.controllable candidate.plantMarking
  let g := (applyFeedback g feedback).trim
  if config.verify then c.verifyClosedLoop g
  pure (g.setName (c.resultName "BuechiCon"))

end ControlProblem

namespace ObservedProblem

/-- A normal solution. -/
def normal (c : ObservedProblem) : Checked Automaton := do
  c.check
  let g ← c.normalUnchecked
  pure (g.setName (c.resultName "SupBuechiConNorm"))

/-- Verifies that a closed loop is controllable, relatively closed and normal. -/
def verifyClosedLoop (c : ObservedProblem) (g : Automaton) : Check := do
  c.toControlProblem.verifyClosedLoop g
  verify "prefix normality" (isNormal c.plant.trim.markAllStates c.observable g.markAllStates)

/-- The closed loop under a supervisor that sees only the observable events and
enforces a normal solution. -/
def normalClosedLoop (c : ObservedProblem) (config : SynthesisConfig) : Checked Automaton := do
  c.check
  let candidate ← c.normalCandidate
  let (g, feedback) ← restrictObserved candidate.automaton c.controllable candidate.plantMarking
    candidate.observerMap
  let g := (applyFeedback g feedback).omegaTrim
  if config.verify then c.verifyClosedLoop g
  pure (g.setName (c.resultName "BuechiConNorm"))

end ObservedProblem

end OmegaControl
