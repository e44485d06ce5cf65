import OmegaControl.Synthesis.ClosedLoop

/-!
# Plants

A plant carries with it which of its events a supervisor may disable and which it
cannot see. At first no event is controllable and every event is observable. Only
events of the alphabet count, even if the alphabet changes later.

With a specification a plant makes a control problem, and the solutions of that
problem are plants again, with the same partition of the events.
-/

namespace OmegaControl

/-- An automaton with a partition of its events. -/
structure Plant where
  automaton : Automaton
  controllable : EventSet
  unobservable : EventSet
  deriving DecidableEq

namespace Plant

/-- The plant in which no event is controllable and every event is observable. -/
def ofAutomaton (g : Automaton) : Plant := ⟨g, ∅, ∅⟩

instance : Inhabited Plant := ⟨ofAutomaton default⟩

/-- The automaton `g` with the partition of `p`, as far as it concerns events of `g`. -/
def withPartitionOf (g : Automaton) (p : Plant) : Plant :=
  ⟨g, p.controllable ∩ g.alphabet, p.unobservable ∩ g.alphabet⟩

/-- The name of the automaton. -/
def name (p : Plant) : String := p.automaton.name

/-! ## Partition -/

/-- The controllable events of the alphabet. -/
def controllableEvents (p : Plant) : EventSet := p.controllable ∩ p.automaton.alphabet

/-- The observable events of the alphabet. -/
def observableEvents (p : Plant) : EventSet := p.automaton.alphabet \ p.unobservable

/-- Is `ev` a controllable event of the alphabet? -/
def isControllable (p : Plant) (ev : EventId) : Bool :=
  p.controllable.contains ev && p.automaton.alphabet.contains ev

/-- Is `ev` an observable event of the alphabet? -/
def isObservable (p : Plant) (ev : EventId) : Bool :=
  p.automaton.alphabet.contains ev && !p.unobservable.contains ev

/-- Makes an event of the alphabet controllable. -/
def setControllable (p : Plant) (ev : EventId) : Plant :=
  if ev ∈ p.automaton.alphabet then { p with controllable := p.controllable.insert ev } else p

/-- Makes an event not controllable. -/
def clearControllable (p : Plant) (ev : EventId) : Plant :=
  { p with controllable := p.controllable.erase ev }

/-- Makes the given events of the alphabet controllable and no others. -/
def setControllableEvents (p : Plant) (events : EventSet) : Plant :=
  { p with controllable := events ∩ p.automaton.alphabet }

/-- Makes an event of the alphabet unobservable. -/
def setUnobservable (p : Plant) (ev : EventId) : Plant :=
  if ev ∈ p.automaton.alphabet then { p with unobservable := p.unobservable.insert ev } else p

/-- Makes an event observable. -/
def setObservable (p : Plant) (ev : EventId) : Plant :=
  { p with unobservable := p.unobservable.erase ev }

/-! ## Control problems -/

/-- What a specification asks of the plant. -/
def problem (p : Plant) (spec : Automaton) : ControlProblem :=
  ⟨p.automaton, p.controllableEvents, spec⟩

/-- What a specification asks of the plant, of a supervisor that sees the observable
events. -/
def observedProblem (p : Plant) (spec : Automaton) : ObservedProblem :=
  ⟨p.problem spec, p.observableEvents⟩

/-- The largest solution, as a plant. -/
def supremal (p : Plant) (spec : Automaton) (config : SynthesisConfig) : Checked Plant := do
  pure (withPartitionOf (← (p.problem spec).supremal config) p)

/-- The closed loop that enforces the largest solution, as a plant. -/
def closedLoop (p : Plant) (spec : Automaton) (config : SynthesisConfig) : Checked Plant := do
  pure (withPartitionOf (← (p.problem spec).closedLoop config) p)

/-- A normal solution, as a plant. -/
def normal (p : Plant) (spec : Automaton) : Checked Plant := do
  pure (withPartitionOf (← (p.observedProblem spec).normal) p)

/-- The closed loop that enforces a normal solution, as a plant. -/
def normalClosedLoop (p : Plant) (spec : Automaton) (config : SynthesisConfig) : Checked Plant := do
  pure (withPartitionOf (← (p.observedProblem spec).normalClosedLoop config) p)

end Plant

end OmegaControl
