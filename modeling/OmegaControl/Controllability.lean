import OmegaControl.Inclusion

/-!
# Controllability

A supervisor cannot disable the events that are not controllable. A candidate for
the behaviour under supervision is controllable if, wherever it is in step with
the plant, it goes along with every uncontrollable event of the plant.

`violatingStates` finds the states of a candidate where it does not, and
`controllablePart` deletes as many states as are needed for it to do so. Both read
the marking of no automaton. The candidate should be a part of the plant in the
sense that each of its states goes with one state of the plant; then
`controllablePart` need not visit a state twice.
-/

namespace OmegaControl

/-- Does the right side lack an uncontrollable event of the left side? -/
def Joined.violates (controllable : EventSet) : Joined → Bool
  | .left t => t.event ∉ controllable
  | _ => false

/-! ## Testing -/

/-- The pairs that plant and candidate go on to from a pair, on events before the
first violation there. -/
def compliantTargets (plant : Automaton) (controllable : EventSet) (cand : Automaton)
    (p : StatePair) : List StatePair :=
  ((plant.joinAt cand p).takeWhile (!·.violates controllable)).filterMap (·.target?)

/-- The states of the candidate that disable an uncontrollable event of the plant. -/
def violatingStates (plant : Automaton) (controllable : EventSet) (cand : Automaton) : StateSet :=
  match initialPair? plant cand with
  | none => ∅
  | some start =>
    IdentSet.ofList (((Traversal.reachable (compliantTargets plant controllable cand) [start]).filter
      fun p => (plant.joinAt cand p).any (·.violates controllable)).map (·.right))

/-- Does no reachable state of the candidate disable an uncontrollable event of the
plant? -/
def isControllable (plant : Automaton) (controllable : EventSet) (cand : Automaton) : Bool :=
  (violatingStates plant controllable cand).isEmpty

/-! ## The controllable part

A depth-first search visits each state of the candidate once. A state is critical
if it disables an uncontrollable event or if an uncontrollable event leads from it
to a critical state. Some of that is known when the state is visited; for the rest
the search remembers the transitions into states that are not critical so far, and
follows them back when their target turns out to be. -/

namespace ControllablePart

/-- What the search knows. -/
structure Search where
  /-- pairs to visit, the next one first -/
  pending : List StatePair
  /-- states of the candidate that were visited -/
  visited : StateSet
  /-- states of the candidate that have to go -/
  critical : StateSet
  /-- transitions into states that were not critical when they were followed -/
  followed : List Transition

/-- Puts a pair on top of the pending ones, unless its state was visited. -/
def Search.push (s : Search) (p : StatePair) : Search :=
  if p.right ∈ s.visited then s else { s with pending := p :: s.pending }

@[simp] theorem visited_push (s : Search) (p : StatePair) : (s.push p).visited = s.visited := by
  rw [Search.push]
  split <;> rfl

/-- Follows the events of one pair in order, up to the first that makes the state of
the candidate critical; says whether there was one. -/
def follow (controllable : EventSet) (s : Search) : List Joined → Search × Bool
  | [] => (s, false)
  | .both l r :: js =>
    let s := s.push ⟨l.target, r.target⟩
    if r.target ∉ s.critical then follow controllable { s with followed := r :: s.followed } js
    else if l.event ∉ controllable then (s, true)
    else follow controllable s js
  | .left l :: js => if l.event ∉ controllable then (s, true) else follow controllable s js
  | .right _ :: js => follow controllable s js

/-- The state `x` and those that were not critical so far from which uncontrollable
followed transitions lead to it. -/
def forcedInto (controllable : EventSet) (s : Search) (x : StateId) : StateSet :=
  IdentSet.ofList (Traversal.reachable (fun y =>
    (s.followed.filter fun t =>
      t.target = y ∧ t.event ∉ controllable ∧ t.source ∉ s.critical).map (·.source)) [x])

/-- Visits a pair. -/
def visit (plant : Automaton) (controllable : EventSet) (cand : Automaton) (s : Search)
    (p : StatePair) : Search :=
  let (s, isCritical) := follow controllable s (plant.joinAt cand p)
  let s := if isCritical then
      { s with critical := s.critical ∪ forcedInto controllable s p.right }
    else s
  { s with visited := s.visited.insert p.right }

theorem visited_follow (controllable : EventSet) (s : Search) (js : List Joined) :
    (follow controllable s js).1.visited = s.visited := by
  fun_induction follow controllable s js <;> simp_all +zetaDelta

theorem visited_visit (plant : Automaton) (controllable : EventSet) (cand : Automaton) (s : Search)
    (p : StatePair) :
    (visit plant controllable cand s p).visited = s.visited.insert p.right := by
  have := visited_follow controllable s (plant.joinAt cand p)
  rw [visit]
  dsimp only
  split <;> rw [this]

/-- Visits pending pairs until each state has been visited. -/
def run (plant : Automaton) (controllable : EventSet) (cand : Automaton) (s : Search) : Search :=
  match _h : s.pending.dropWhile (·.right ∈ s.visited) with
  | [] => s
  | p :: rest => run plant controllable cand
      (visit plant controllable cand { s with pending := rest } p)
termination_by UInt32.size - s.visited.size
decreasing_by
  -- the state that is visited next has not been visited before
  have hp : p.right ∉ s.visited := by simpa using Traversal.not_of_dropWhile_eq_cons _h
  have hle := IdentSet.size_le (s.visited.insert p.right)
  have hsize := IdentSet.size_insert hp
  have hvisit : (visit plant controllable cand { s with pending := rest } p).visited =
      s.visited.insert p.right := visited_visit _ _ _ _ _
  rw [hvisit]
  omega

end ControllablePart

/-- The candidate without the states that disable an uncontrollable event of the
plant, or that an uncontrollable event leads to such a state, or that are not
reached. A candidate is left alone if it or the plant has no start. -/
def controllablePart (plant : Automaton) (controllable : EventSet) (cand : Automaton) : Automaton :=
  match initialPair? plant cand with
  | none => cand
  | some start =>
    let s := ControllablePart.run plant controllable cand ⟨[start], ∅, ∅, []⟩
    cand.restrictStates (s.visited \ s.critical)

end OmegaControl
