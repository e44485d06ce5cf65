import OmegaControl.Liveness.Rule

/-!
# Control by full observation

A supervisor that sees every event knows the state, so it can decide at each state
by itself. A state can be driven into a target without leaving target and domain
if some transition enters the target and every uncontrollable one stays inside; the
controllable events that lead outside have to be disabled.

`Rule.restrict` only asks for the states. `Rule.feedback` also records what has to
be disabled; what is recorded first for a state stands.
-/

namespace OmegaControl

/-- The events that a supervisor enables, for each state. -/
abbrev FeedbackMap := Std.ExtTreeMap StateId EventSet

/-- Which events have to be disabled at a state with the given transitions, if it can
be driven into `target` without leaving `target` and `domain`. -/
def disabledToEnter (controllable : EventSet) (target domain : StateSet)
    (ts : List Transition) : Option EventSet :=
  let leaving := ts.filter fun t => t.target ∉ target ∧ t.target ∉ domain
  if ts.any (·.target ∈ target) && leaving.all (·.event ∈ controllable) then
    some (IdentSet.ofList (leaving.map (·.event)))
  else none

namespace Rule

/-- The rule that records nothing. -/
def restrict (g : Automaton) (controllable : EventSet) : Rule Unit :=
  let rows := g.rows
  { start := ()
    resolve := fun target domain s =>
      (IdentSet.ofList ((rows.filter fun (_, ts) =>
        (disabledToEnter controllable target domain ts).isSome).map (·.1)), s)
    beginRound := id
    endRound := id
    beginLevel := id
    endLevel := id }

/-- The rule that records for each state what to disable there. -/
def feedback (g : Automaton) (controllable : EventSet) :
    Rule (Records (Std.ExtTreeMap StateId EventSet)) :=
  let rows := g.rows
  recording ∅ (fun older newer => newer ∪ older) fun target domain s =>
    let resolved := rows.filterMap fun (x, ts) =>
      (disabledToEnter controllable target domain ts).map (x, ·)
    (IdentSet.ofList (resolved.map (·.1)), { s with round := .ofList resolved ∪ s.round })

end Rule

/-- Restricts an automaton to its enforceable states. -/
def restrictToEnforceable (g : Automaton) (controllable : EventSet) (plantMarking : StateSet) :
    Watched Automaton := do
  let (states, _) ← (Rule.restrict g controllable).enforceable g plantMarking
  pure (g.restrictStates states)

/-- Restricts an automaton to its enforceable states, and tells for each of them which
events a supervisor enables there: those that lead on and all uncontrollable ones,
except what has to be disabled. -/
def restrictWithFeedback (g : Automaton) (controllable : EventSet) (plantMarking : StateSet) :
    Watched (Automaton × FeedbackMap) := do
  let (states, records) ← (Rule.feedback g controllable).enforceable g plantMarking
  let rest := g.restrictStates states
  let enabled x := (rest.activeEvents x ∪ (rest.alphabet \ controllable)) \
    records.total[x]?.getD ∅
  pure (rest, .ofList (states.toList.map fun x => (x, enabled x)))

/-- Takes away the transitions on events that are not enabled where they start; where
nothing is said, no event is enabled. -/
def applyFeedback (g : Automaton) (feedback : FeedbackMap) : Automaton :=
  g.retainTransitions fun t => feedback[t.source]?.any (t.event ∈ ·)

end OmegaControl
