import OmegaControl.IdentSet.Basic

/-!
# Control patterns

Under partial observation a supervisor cannot tell all states apart, so what it
does has to suit every state it takes for the current one. A control pattern
collects what they ask for: events that must all be disabled, and sets of events
of which at least one must stay enabled. Patterns are joined by taking both
demands together; a pattern is conflicting if it disables all of a set of which
one event should stay.
-/

namespace OmegaControl

/-- What is asked of a supervisor. -/
structure ControlPattern where
  /-- events to disable -/
  disableAll : EventSet
  /-- sets of events of which one has to stay enabled -/
  enableOne : Std.ExtTreeSet EventSet
  deriving DecidableEq

namespace ControlPattern

/-- The pattern that asks for nothing. -/
def empty : ControlPattern := ⟨∅, ∅⟩

instance : EmptyCollection ControlPattern := ⟨empty⟩

instance : Inhabited ControlPattern := ⟨∅⟩

/-- Asks for `ev` to be disabled. -/
def disable (p : ControlPattern) (ev : EventId) : ControlPattern :=
  { p with disableAll := p.disableAll.insert ev }

/-- Asks for one of `events` to stay enabled. -/
def requireOneOf (p : ControlPattern) (events : EventSet) : ControlPattern :=
  { p with enableOne := p.enableOne.insert events }

/-- What both patterns ask for. -/
def join (p q : ControlPattern) : ControlPattern :=
  ⟨p.disableAll ∪ q.disableAll, p.enableOne ∪ q.enableOne⟩

/-- Does the pattern disable all of a set of which one event has to stay? -/
def isConflicting (p : ControlPattern) : Bool := p.enableOne.toList.any (·.subset p.disableAll)

/-- How a pattern is written. -/
def text (p : ControlPattern) : String :=
  "disable " ++ p.disableAll.text ++ " enable-one-of [" ++
    ", ".intercalate (p.enableOne.toList.map (·.text)) ++ "]"

end ControlPattern

end OmegaControl
