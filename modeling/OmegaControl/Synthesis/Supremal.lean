import OmegaControl.Controllability
import OmegaControl.ControlledProduct
import OmegaControl.Liveness.Feedback

/-!
# Supremal solutions

The largest solution of a control problem is found by taking states away from the
product of plant and specification. Two things force a state out: some finite word
from it on cannot be kept within the product (`prunePrefixes`), or the marking
cannot be enforced from it (`restrictToEnforceable`). The two alternate until
neither takes anything away.

Every round either ends the loop or leaves fewer states, so the loop ends.
-/

namespace OmegaControl

/-- What is wanted of a synthesis. -/
structure SynthesisConfig where
  /-- name the states of a result after the states of plant and specification -/
  stateNames : Bool := true
  /-- verify closed loops before they are returned -/
  verify : Bool := false

/-- A solution, and what is needed to turn it into a closed loop. -/
structure Candidate where
  automaton : Automaton
  /-- the states in which the plant is marked -/
  plantMarking : StateSet
  /-- the states of the observer attached to states of the solution, if there is one -/
  observerMap : Std.ExtTreeMap StateId StateId

namespace ControlProblem

/-! ## Pruning -/

/-- Takes away what cannot be kept controllable, does not lead to a marked state, is
not reached or ends in a dead end. -/
def pruneOnce (c : ControlProblem) (g : Automaton) : Automaton :=
  (controllablePart c.plant c.controllable g).coaccessible.accessible.complete

/-- Prunes until nothing is taken away or nothing is left. -/
def prunePrefixes (c : ControlProblem) (g : Automaton) : Automaton :=
  let rest := c.pruneOnce g
  if rest.isEmpty then rest else if rest.size < g.size then c.prunePrefixes rest else rest
termination_by g.size

theorem size_controllablePart_le (plant : Automaton) (controllable : EventSet) (g : Automaton) :
    (controllablePart plant controllable g).size ≤ g.size := by
  rw [controllablePart]
  split
  · exact Nat.le_refl _
  · exact g.size_deleteStates_le _

theorem size_pruneOnce_le (c : ControlProblem) (g : Automaton) : (c.pruneOnce g).size ≤ g.size :=
  calc (c.pruneOnce g).size
      ≤ (controllablePart c.plant c.controllable g).coaccessible.accessible.size :=
        Automaton.size_complete_le _
    _ ≤ (controllablePart c.plant c.controllable g).coaccessible.size :=
        Automaton.size_accessible_le _
    _ ≤ (controllablePart c.plant c.controllable g).size := Automaton.size_coaccessible_le _
    _ ≤ g.size := size_controllablePart_le _ _ _

theorem size_prunePrefixes_le (c : ControlProblem) (g : Automaton) :
    (c.prunePrefixes g).size ≤ g.size := by
  fun_induction prunePrefixes c g with
  | case1 g rest _ => exact c.size_pruneOnce_le g
  | case2 g rest _ _ ih => exact Nat.le_trans ih (c.size_pruneOnce_le g)
  | case3 g rest _ _ => exact c.size_pruneOnce_le g

/-! ## The loop -/

/-- Prunes and restricts to enforceable states until no state is taken away; each
round reports how many of `total` states are gone. -/
def refine (c : ControlProblem) (plantMarking : StateSet) (total : Nat) (g : Automaton) :
    Watched Automaton := do
  Watched.checkpoint .driver (total - g.size) total
  if g.isEmpty then pure g
  else
    let live ← restrictToEnforceable (c.prunePrefixes g) c.controllable plantMarking
    if live.size < (c.prunePrefixes g).size then c.refine plantMarking total live else pure live
termination_by g.size
decreasing_by
  have := c.size_prunePrefixes_le g
  omega

/-- The name of a state of the product, by names of its components or else by their
numbers. -/
def stateNameOf (c : ControlProblem) (p : ProductState) : String :=
  (c.plant.stateName? p.plant).getD p.plant.text ++ "|" ++
    (c.spec.stateName? p.spec).getD p.spec.text ++ "|" ++ p.owedText

/-- Names the states that stand for states of the product. -/
def nameStates (c : ControlProblem) (composition : ProductComposition) (g : Automaton) :
    Automaton :=
  composition.toList.foldl (fun g (p, x) =>
    if x ∈ g.states then g.setStateName x (g.uniqueStateName (c.stateNameOf p)) else g) g

/-- The largest solution, with what is needed to turn it into a closed loop. -/
def supremalCandidate (c : ControlProblem) (config : SynthesisConfig) : Watched Candidate := do
  let product ← c.controlledProduct
  let g ← c.refine product.plantMarking product.automaton.size product.automaton
  let automaton :=
    if config.stateNames && c.plant.stateNamesEnabled && c.spec.stateNamesEnabled &&
        g.stateNamesEnabled then
      c.nameStates product.composition g
    else g.setStateNamesEnabled false
  pure { automaton, plantMarking := product.plantMarking, observerMap := ∅ }

/-- The largest solution of a control problem that is not checked. -/
def supremalUnchecked (c : ControlProblem) (config : SynthesisConfig) : Watched Automaton := do
  let candidate ← c.supremalCandidate config
  pure candidate.automaton

end ControlProblem

end OmegaControl
