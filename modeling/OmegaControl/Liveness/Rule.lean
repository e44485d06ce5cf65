import OmegaControl.Automaton.Basic
import OmegaControl.Fixpoint
import OmegaControl.Progress

/-!
# Enforceable states

From which states of an automaton can a supervisor, without disabling an
uncontrollable event, see to it that marked states are visited infinitely often
whenever the states of a second set, the plant marking, are? Those states are a
nested fixpoint of one-step tests: five loops that grow or shrink a set of states
in turn, the innermost of which asks for the states that can be driven into a
target in one step without leaving target and domain.

How that question is answered, and what is recorded along with an answer, is a
`Rule`. The loops call back the rule when a round (an iteration of the fourth
loop) or a level (an iteration of the second) begins and when the loop around has
settled, so that it can keep its records up to date.
-/

namespace OmegaControl

/-- How the states are found that can be driven into a target in one step, with
records of type `σ` kept along the way. -/
structure Rule (σ : Type) where
  start : σ
  /-- the states that can be driven into the target without leaving target and domain -/
  resolve (target domain : StateSet) : σ → StateSet × σ
  beginRound : σ → σ
  endRound : σ → σ
  beginLevel : σ → σ
  endLevel : σ → σ

/-- A watched computation that keeps records. -/
abbrev Recorded (σ : Type) := StateT σ Watched

namespace Rule

variable {σ : Type}

/-- The states that can be driven into `target`, along any number of states that are
not in the plant marking, without leaving `domain`. -/
def attract (rule : Rule σ) (g : Automaton) (plantMarking target domain : StateSet) :
    Recorded σ StateSet :=
  ascend g.size (fun t s =>
    pure (rule.resolve (target ∪ (t \ plantMarking)) (domain \ plantMarking) s)) ∅

/-- The largest domain out of which every state can be driven into `target`. -/
def stay (rule : Rule σ) (g : Automaton) (plantMarking resolved target : StateSet) :
    Recorded σ StateSet := do
  let domain ← descend (fun domain => do
    Watched.checkpoint .fixpoint resolved.size g.size
    modify rule.beginRound
    rule.attract g plantMarking target domain) g.states
  modify rule.endRound
  pure domain

/-- The states from which `target` is reached after finitely many such domains. -/
def approach (rule : Rule σ) (g : Automaton) (plantMarking resolved target : StateSet) :
    Recorded σ StateSet :=
  ascend g.size (fun near => rule.stay g plantMarking resolved (target ∪ near)) ∅

/-- The states from which marked states can be visited over and over again, unless a
resolved state is reached. -/
def recur (rule : Rule σ) (g : Automaton) (plantMarking resolved : StateSet) :
    Recorded σ StateSet := do
  let states ← descend (fun states => do
    modify rule.beginLevel
    rule.approach g plantMarking resolved ((states ∩ g.marked) ∪ resolved)) g.states
  modify rule.endLevel
  pure states

/-- The enforceable states of an automaton, with the records of the rule. -/
def enforceable (rule : Rule σ) (g : Automaton) (plantMarking : StateSet) :
    Watched (StateSet × σ) :=
  (ascend g.size (rule.recur g plantMarking) ∅ : Recorded σ StateSet).run rule.start

end Rule

/-- Records that are collected per round, gathered per level and kept for good. -/
structure Records (μ : Type) where
  round : μ
  level : μ
  total : μ

/-- The rule that starts each round and each level with blank records, and adds what
was recorded to the records of the loop around with `join`. -/
def Rule.recording {μ : Type} (blank : μ) (join : μ → μ → μ)
    (resolve : StateSet → StateSet → Records μ → StateSet × Records μ) : Rule (Records μ) where
  start := ⟨blank, blank, blank⟩
  resolve := resolve
  beginRound s := { s with round := blank }
  endRound s := { s with level := join s.level s.round }
  beginLevel s := { s with level := blank }
  endLevel s := { s with total := join s.total s.level }

end OmegaControl
