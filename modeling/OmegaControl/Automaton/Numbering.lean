import OmegaControl.Automaton.Basic

/-!
# Numbered states

Constructions build an automaton whose states stand for values of another type:
pairs of states, sets of states. `insertStatesFor` adds one fresh state per value,
in the order of the list, and returns which state stands for which value.
`insertSteps` then adds the steps between values as transitions between the
states that stand for them.
-/

namespace OmegaControl.Automaton

variable {α : Type} [Ord α] [Std.TransOrd α]

/-- Adds a fresh state for each value of the list. -/
def insertStatesFor (g : Automaton) (values : List α) :
    Automaton × Std.ExtTreeMap α StateId :=
  values.foldl (fun (g, numbers) v =>
    let (x, g) := g.insertState
    (g, numbers.insert v x)) (g, ∅)

/-- Makes the states that stand for the given values initial. -/
def setInitialFor (g : Automaton) (numbers : Std.ExtTreeMap α StateId) (values : List α) :
    Automaton :=
  (values.filterMap (numbers[·]?)).foldl setInitialState g

/-- Adds the steps of all numbered values. -/
def insertSteps (g : Automaton) (numbers : Std.ExtTreeMap α StateId)
    (steps : α → List (EventId × α)) : Automaton :=
  (numbers.toList.flatMap fun (v, x) =>
    (steps v).filterMap fun (ev, w) => numbers[w]?.map fun y => ⟨x, ev, y⟩).foldl insertTransition g

end OmegaControl.Automaton
