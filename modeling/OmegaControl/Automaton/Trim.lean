import OmegaControl.Automaton.Basic
import OmegaControl.Fixpoint
import OmegaControl.Traversal

/-!
# Trimming

Three sets of states decide what an automaton can do: those reached from an
initial state, those from which a marked state can be reached, and the blocking
ones, from which every path dies in a dead end. Restricting to the first two and
deleting the third makes an automaton accessible, coaccessible and complete; one
that is all three is omega-trim: each finite run of it is the start of an
accepted infinite run.

Every operation comes as a set of states and as the restriction to it, so a
restriction never does more than delete states.
-/

namespace OmegaControl.Automaton

/-! ## Sets of states -/

/-- The states reached from an initial state. -/
def accessibleSet (g : Automaton) : StateSet :=
  IdentSet.ofList (Traversal.reachable g.successors g.initial.toList)

/-- The states from which a marked state can be reached. -/
def coaccessibleSet (g : Automaton) : StateSet := g.reversed.accessibleSet

/-- The states from which every path ends in a dead end: those that lead nowhere but
to such states, found round by round. -/
def blockingSet (g : Automaton) : StateSet :=
  let rows := g.rows
  saturate (fun dead =>
    IdentSet.ofList ((rows.filter fun (_, ts) => ts.all (·.target ∈ dead)).map (·.1))) ∅

/-! ## Restrictions -/

/-- Is some state initial? After a restriction this says that a start is left. -/
def hasInitial (g : Automaton) : Bool := !g.initial.isEmpty

/-- Restricts to the accessible states. -/
def accessible (g : Automaton) : Automaton := g.restrictStates g.accessibleSet

/-- Restricts to the coaccessible states. -/
def coaccessible (g : Automaton) : Automaton := g.restrictStates g.coaccessibleSet

/-- Deletes the blocking states. -/
def complete (g : Automaton) : Automaton := g.deleteStates g.blockingSet

/-- Restricts to the accessible and then to the coaccessible states. -/
def trim (g : Automaton) : Automaton := g.accessible.coaccessible

/-- Restricts to coaccessible states and deletes blocking ones, in turn, until
nothing changes. -/
def settle (g : Automaton) : Automaton :=
  let rest := g.coaccessible.complete
  if rest.size < g.size then settle rest else rest
termination_by g.size

/-- Restricts to the omega-trim part. -/
def omegaTrim (g : Automaton) : Automaton := g.accessible.settle

/-- Are there an initial and a marked state? After `omegaTrim` this says that an
infinite word is accepted. -/
def acceptsSome (g : Automaton) : Bool := g.hasInitial && !g.marked.isEmpty

/-! ## Tests -/

/-- Is every state accessible? -/
def isAccessible (g : Automaton) : Bool := g.accessibleSet.size == g.size

/-- Is every state coaccessible? -/
def isCoaccessible (g : Automaton) : Bool := g.coaccessibleSet.size == g.size

/-- Is no state blocking? -/
def isComplete (g : Automaton) : Bool := g.blockingSet.isEmpty

/-- Is every state accessible and coaccessible? -/
def isTrim (g : Automaton) : Bool := g.isAccessible && g.isCoaccessible

/-- Does every finite run start an accepted infinite run? -/
def isOmegaTrim (g : Automaton) : Bool := g.isAccessible && g.isCoaccessible && g.isComplete

/-! ## Deleting states makes no automaton larger -/

theorem size_deleteStates_le (g : Automaton) (dead : StateSet) :
    (g.deleteStates dead).size ≤ g.size := by
  rw [deleteStates]
  split
  · exact Nat.le_refl _
  · exact IdentSet.size_le_of_subset fun x hx => (IdentSet.mem_sdiff.1 hx).1

theorem size_accessible_le (g : Automaton) : g.accessible.size ≤ g.size :=
  size_deleteStates_le g _

theorem size_coaccessible_le (g : Automaton) : g.coaccessible.size ≤ g.size :=
  size_deleteStates_le g _

theorem size_complete_le (g : Automaton) : g.complete.size ≤ g.size :=
  size_deleteStates_le g _

end OmegaControl.Automaton
