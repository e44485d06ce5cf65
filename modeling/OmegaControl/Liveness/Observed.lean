import OmegaControl.ControlPattern
import OmegaControl.Liveness.Feedback

/-!
# Control by partial observation

A supervisor that sees only some events cannot tell the states of one observation
class apart, so it has to do the same at all of them. What the states of a class
ask for is collected in a control pattern. A class whose pattern has become
conflicting keeps its earlier pattern; a state is driven into the target if the
pattern of its class does so. Patterns are joined and never given up, so what was
promised to one state holds for the others later on.

The states found this way are enforceable, though there may be larger sets of
states that are.
-/

namespace OmegaControl

/-- The state of an observer that goes with a state of a candidate. -/
abbrev ObserverMap := Std.ExtTreeMap StateId StateId

/-- What a supervisor knows of a state. -/
inductive ObservationClass where
  /-- the states attached to one state of the observer -/
  | observed (z : StateId)
  /-- a state that is attached to none, alone -/
  | alone (x : StateId)
  deriving DecidableEq

namespace ObservationClass

/-- The class of a state. -/
def of (classes : ObserverMap) (x : StateId) : ObservationClass :=
  match classes[x]? with
  | some z => observed z
  | none => alone x

/-- Does the class consist of one state on its own account? -/
def isAlone : ObservationClass → Bool
  | observed _ => false
  | alone _ => true

/-- The state that names the class. -/
def name : ObservationClass → StateId
  | observed z => z
  | alone x => x

instance : Ord ObservationClass := ⟨compareLex (compareOn isAlone) (compareOn name)⟩

instance : Std.TransOrd ObservationClass :=
  inferInstanceAs (Std.TransCmp (compareLex (compareOn isAlone) (compareOn name)))

instance : Std.LawfulEqOrd ObservationClass where
  eq_of_compare {c d} h := by
    have h : compareLex (compareOn isAlone) (compareOn name) c d = .eq := h
    simp only [compareLex_eq_eq, compareOn, Std.LawfulEqCmp.compare_eq_iff_eq] at h
    cases c <;> cases d <;> simp_all [isAlone, name]

/-- How a class is written where kinds are spelled out. -/
def debugText : ObservationClass → String
  | observed z => "Observed(" ++ z.debugText ++ ")"
  | alone x => "Singleton(" ++ x.debugText ++ ")"

/-- Classes in ascending order, each once. -/
def sort (cs : List ObservationClass) : List ObservationClass := (Std.ExtTreeSet.ofList cs).toList

end ObservationClass

/-- One pattern for each class. -/
abbrev ClassPatterns := Std.ExtTreeMap ObservationClass ControlPattern

namespace ClassPatterns

/-- Adds what a pattern asks for to what is asked of a class already. -/
def demand (m : ClassPatterns) (c : ObservationClass) (p : ControlPattern) : ClassPatterns :=
  m.insert c ((m[c]?.getD ∅).join p)

/-- Adds all patterns of `newer` to those of `older`. -/
def join (older newer : ClassPatterns) : ClassPatterns :=
  newer.toList.foldl (fun m (c, p) => m.demand c p) older

end ClassPatterns

/-- Follows the transitions of a state in order: `disable` are the controllable events
that lead out of target and domain, `enable` those that enter the target. Nothing
if an uncontrollable event leads outside, or none enters the target. An event that
is to be disabled is not looked at again. -/
def askedOf (controllable : EventSet) (target domain : StateSet) (disable enable : EventSet) :
    List Transition → Option (EventSet × EventSet)
  | [] => if enable.isEmpty then none else some (disable, enable)
  | t :: ts =>
    if t.event ∈ disable then askedOf controllable target domain disable enable ts
    else if t.target ∈ target then
      askedOf controllable target domain disable (enable.insert t.event) ts
    else if t.target ∈ domain then askedOf controllable target domain disable enable ts
    else if t.event ∉ controllable then none
    else askedOf controllable target domain (disable.insert t.event) enable ts

/-- What has been promised to a class. -/
def Records.committed (s : Records ClassPatterns) (c : ObservationClass) : ControlPattern :=
  (s.round[c]?.getD ∅).join ((s.level[c]?.getD ∅).join (s.total[c]?.getD ∅))

/-- Adds what a state asks for to the candidate for its class. -/
def addAsked (controllable : EventSet) (classes : ObserverMap) (target domain : StateSet)
    (s : Records ClassPatterns) (m : ClassPatterns) (row : StateId × List Transition) :
    ClassPatterns :=
  match askedOf controllable target domain ∅ ∅ row.2 with
  | none => m
  | some (disable, enable) =>
    let c := ObservationClass.of classes row.1
    m.insert c ((m[c]?.getD (s.committed c)).join ⟨disable, (∅ : Std.ExtTreeSet _).insert enable⟩)

/-- For each class of which some state can enter the target: what has been promised to
it, and what its states ask for now. `rows` lists the states and their transitions. -/
def candidatePatterns (rows : List (StateId × List Transition)) (controllable : EventSet)
    (classes : ObserverMap) (target domain : StateSet) (s : Records ClassPatterns) :
    ClassPatterns :=
  rows.foldl (addAsked controllable classes target domain s) ∅

/-- Does a state with the given transitions enter the target, and stay inside target
and domain, under a pattern? -/
def entersUnder (target domain : StateSet) (ts : List Transition) (p : ControlPattern) : Bool :=
  let enabled := ts.filter (·.event ∉ p.disableAll)
  enabled.any (·.target ∈ target) && enabled.all fun t => t.target ∈ target ∨ t.target ∈ domain

/-- The rule that records a pattern for each observation class. -/
def Rule.observed (g : Automaton) (controllable : EventSet) (classes : ObserverMap) :
    Rule (Records ClassPatterns) :=
  let rows := g.rows
  recording ∅ ClassPatterns.join fun target domain s =>
    let candidates := candidatePatterns rows controllable classes target domain s
    let round := s.round.join (candidates.filter fun _ p => !p.isConflicting)
    let resolved := rows.filter fun (x, ts) =>
      round[ObservationClass.of classes x]?.any (entersUnder target domain ts)
    (IdentSet.ofList (resolved.map (·.1)), { s with round })

/-- Restricts an automaton to states that are enforceable by doing the same at all
states of a class, and tells for each of them which events a supervisor enables
there: all except what the pattern of the class disables. -/
def restrictObserved (g : Automaton) (controllable : EventSet) (plantMarking : StateSet)
    (classes : ObserverMap) : Watched (Automaton × FeedbackMap) := do
  let (states, records) ← (Rule.observed g controllable classes).enforceable g plantMarking
  let rest := g.restrictStates states
  let enabled x := rest.alphabet \
    (records.total[ObservationClass.of classes x]?.getD ∅).disableAll
  pure (rest, .ofList (states.toList.map fun x => (x, enabled x)))

end OmegaControl
