import OmegaControl.Automaton.Component
import OmegaControl.ControlProblem
import OmegaControl.Inclusion

/-!
# Relative closedness

A candidate is relatively closed with respect to a plant if it takes nothing away
from the infinite words that the plant accepts except by taking away finite words:
an infinite word all of whose finite parts the candidate generates is accepted by
both or by neither.

In the product of the two, a word that is accepted by one side only runs, from
some point on, through a component that holds marked states of that side and none
of the other. So the test looks for such a component, once for each side.
-/

namespace OmegaControl

namespace Automaton

/-- The product states whose pair passes a test. -/
def statesWhere (numbers : Composition) (p : StatePair → Bool) : StateSet :=
  IdentSet.ofList ((numbers.toList.filter fun (pair, _) => p pair).map (·.2))

/-- Is there a cycle through a state of `through` that avoids `around`? -/
def hasCycle (g : Automaton) (through around : StateSet) : Bool :=
  !(g.stronglyConnectedComponents
    { ignoreTrivial := true, avoid := around, require := some through }).isEmpty

end Automaton

/-- Is `cand` relatively closed with respect to `plant`? Both should be
deterministic. -/
def isRelativelyClosed (plant cand : Automaton) : Bool :=
  cand.isClosedSubset plant &&
    let (both, numbers) := cand.product plant
    let candMarked := Automaton.statesWhere numbers fun p => p.left ∈ cand.marked
    let plantMarked := Automaton.statesWhere numbers fun p => p.right ∈ plant.marked
    !both.hasCycle plantMarked candMarked && !both.hasCycle candMarked plantMarked

/-- Is `cand` relatively closed with respect to `plant`? The two must have one
alphabet, be omega-trim and, unless one is empty, deterministic. -/
def checkRelativelyClosed (plant cand : Automaton) : Except SynthesisError Bool := do
  checkAlphabets plant cand
  checkOmegaTrim cand
  checkOmegaTrim plant
  if cand.isEmpty then return true
  if plant.isEmpty then return false
  checkDeterministic plant cand
  return isRelativelyClosed plant cand

end OmegaControl
