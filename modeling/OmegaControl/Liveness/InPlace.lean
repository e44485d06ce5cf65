import OmegaControl.Liveness.Feedback
import OmegaControl.Liveness.Observed

/-!
# Restricting in place

The restrictions to enforceable states are made in place, on an automaton that belongs to somebody
else. Whatever a procedure has done by the time it is cancelled stays done. So the order matters: the
states are found first, which only reads the automaton, and no checkpoint comes after that, so once the
automaton is touched the procedure goes through to its end.
-/

namespace OmegaControl

variable {σ τ α : Type}

/-- What a procedure works on: an automaton, the state of its observer, and what has been reported
to the observer, the latest report first. -/
structure Workplace (σ : Type) where
  automaton : Automaton
  observer : σ
  reported : List Checkpoint

/-- A procedure, which may be cancelled on the way. -/
abbrev Procedure (σ : Type) := ExceptT Cancelled (StateM (Workplace σ))

namespace Observer

/-- Reports to the observer while a computation goes on, until it has its value or is cancelled. -/
def follow (o : Observer σ) : Watched α → Procedure σ α
  | .done a => pure a
  | .report c rest => do
    let w ← get
    set { w with reported := c :: w.reported }
    match o.see w.observer c with
    | none => throw .cancelled
    | some s =>
      modify ({ · with observer := s })
      o.follow (rest ())

/-- Restricts the automaton to the states that a rule finds enforceable, and answers from what is left
and from the states with the records of the rule. -/
def restrictBy (o : Observer σ) (rule : Automaton → Rule τ) (plantMarking : StateSet)
    (answer : Automaton → StateSet × τ → α) : Procedure σ α := do
  let g := (← get).automaton
  let found ← o.follow ((rule g).enforceable g plantMarking)
  modify fun w => { w with automaton := w.automaton.restrictStates found.1 }
  pure (answer (← get).automaton found)

/-- Restricts the automaton to its enforceable states. -/
def restrictInPlace (o : Observer σ) (controllable : EventSet) (plantMarking : StateSet) :
    Procedure σ Unit :=
  o.restrictBy (Rule.restrict · controllable) plantMarking fun _ _ => ()

/-- Restricts the automaton to its enforceable states, and tells for each of them which events a
supervisor enables there. -/
def restrictWithFeedbackInPlace (o : Observer σ) (controllable : EventSet)
    (plantMarking : StateSet) : Procedure σ FeedbackMap :=
  o.restrictBy (Rule.feedback · controllable) plantMarking fun rest (states, records) =>
    let enabled x := (rest.activeEvents x ∪ (rest.alphabet \ controllable)) \
      records.total[x]?.getD ∅
    .ofList (states.toList.map fun x => (x, enabled x))

/-- Restricts the automaton to states that are enforceable by doing the same at all states of a class,
and tells for each of them which events a supervisor enables there. -/
def restrictObservedInPlace (o : Observer σ) (controllable : EventSet) (plantMarking : StateSet)
    (classes : ObserverMap) : Procedure σ FeedbackMap :=
  o.restrictBy (Rule.observed · controllable classes) plantMarking fun rest (states, records) =>
    let enabled x := rest.alphabet \
      (records.total[ObservationClass.of classes x]?.getD ∅).disableAll
    .ofList (states.toList.map fun x => (x, enabled x))

/-- Calls a procedure on an automaton: what the observer was told, the answer, and what has become of
the automaton. -/
def perform (o : Observer σ) (p : Procedure σ α) (g : Automaton) :
    List Checkpoint × Except Cancelled α × Automaton :=
  let (answer, w) := p.run.run ⟨g, o.start, []⟩
  (w.reported.reverse, answer, w.automaton)

end Observer

end OmegaControl
