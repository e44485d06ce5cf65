import OmegaControl.Automaton.Trim
import OmegaControl.Inclusion
import OmegaControl.Projection

/-!
# Normality

A supervisor that sees only some of the events cannot tell two words apart that
look the same to it. A candidate is normal with respect to a plant if a word of
the plant that looks like a word of the candidate is itself a word of the
candidate.

`isNormal` tests this by building all words that look like words of the candidate.
`normalPart` makes a candidate normal. It runs the candidate side by side with the
plant and with an observer, an automaton whose states stand for what has been
seen: whenever a state of the candidate disables an event, the observer state
attached to it loses the event too, and then every state of the candidate attached
to that observer state loses it.
-/

namespace OmegaControl

/-- Is the language of finite words of `cand` normal with respect to that of `plant`
for somebody who sees the events of `observable`? `cand` should be a part of
`plant`, and both deterministic. -/
def isNormal (plant : Automaton) (observable : EventSet) (cand : Automaton) : Bool :=
  cand.initial.isEmpty ||
    let lookalikes := (cand.project observable).inverseProject plant.alphabet
    (lookalikes.product plant).1.isClosedSubset cand

/-- A state of the plant, of the candidate and of the observer that go together. -/
structure AttachedState where
  plant : StateId
  cand : StateId
  observer : StateId
  deriving DecidableEq

/-- A candidate and the observer attached to it. -/
structure ObservedCandidate where
  observer : Automaton
  cand : Automaton
  deriving DecidableEq

namespace NormalPart

/-- Walks through the transitions of plant, candidate and observer from attached
states, all ascending by event. Where the three have one event, their targets are
attached; the transitions of the candidate for which that does not happen are to be
dropped. -/
def match3 : List Transition → List Transition → List Transition →
    List AttachedState × List Transition
  | g :: gs, h :: hs, o :: os =>
    if g.event = h.event ∧ h.event = o.event then
      let (attached, dropped) := match3 gs hs os
      (⟨g.target, h.target, o.target⟩ :: attached, dropped)
    else if h.event.index < o.event.index then
      let (attached, dropped) := match3 (g :: gs) hs (o :: os)
      (attached, h :: dropped)
    else if o.event.index < h.event.index then match3 (g :: gs) (h :: hs) os
    else if g.event.index < h.event.index then match3 gs (h :: hs) (o :: os)
    else match3 (g :: gs) (h :: hs) os
  | _, hs, _ => ([], hs)
termination_by gs hs os => gs.length + hs.length + os.length

/-- One pass over a candidate. -/
structure Pass where
  current : ObservedCandidate
  /-- attached states to visit, the next ones first -/
  pending : List AttachedState
  /-- states of the candidate that were visited -/
  visited : StateSet
  /-- states of the candidate that disable more than they may -/
  critical : StateSet

/-- Visits attached states: takes from the observer what the candidate disables, and
from the candidate what the observer disables. A state of the candidate that
disables an event outside `permitted` is critical instead. -/
def visit (plant : Automaton) (permitted : EventSet) (s : Pass) (p : AttachedState) : Pass :=
  let { observer, cand } := s.current
  let visited := s.visited.insert p.cand
  let disabled := plant.activeEvents p.plant \ cand.activeEvents p.cand
  if disabled ⊆ permitted then
    let hidden := (observer.transitionsFrom p.observer).filter (·.event ∈ disabled)
    let observer := hidden.foldl Automaton.eraseTransition observer
    let (attached, dropped) := match3 (plant.transitionsFrom p.plant)
      (cand.transitionsFrom p.cand) (observer.transitionsFrom p.observer)
    { s with
      current := ⟨observer, dropped.foldl Automaton.eraseTransition cand⟩
      pending := (attached.filter (·.cand ∉ visited)).reverse ++ s.pending
      visited }
  else { s with visited, critical := s.critical.insert p.cand }

theorem visited_visit (plant : Automaton) (permitted : EventSet) (s : Pass) (p : AttachedState) :
    (visit plant permitted s p).visited = s.visited.insert p.cand := by
  rw [visit]
  dsimp only
  split <;> rfl

/-- Visits pending states until each state of the candidate has been visited. -/
def walk (plant : Automaton) (permitted : EventSet) (s : Pass) : Pass :=
  match _h : s.pending.dropWhile (·.cand ∈ s.visited) with
  | [] => s
  | p :: rest => walk plant permitted (visit plant permitted { s with pending := rest } p)
termination_by UInt32.size - s.visited.size
decreasing_by
  -- the state that is visited next has not been visited before
  have hp : p.cand ∉ s.visited := by simpa using Traversal.not_of_dropWhile_eq_cons _h
  have hle := IdentSet.size_le (s.visited.insert p.cand)
  have hsize := IdentSet.size_insert hp
  have hvisit : (visit plant permitted { s with pending := rest } p).visited =
      s.visited.insert p.cand := visited_visit _ _ _ _
  rw [hvisit]
  omega

/-- One pass from attached initial states: a walk, after which the critical states
are deleted. -/
def pass (plant : Automaton) (permitted : EventSet) (start : AttachedState)
    (c : ObservedCandidate) : ObservedCandidate :=
  let s := walk plant permitted ⟨c, [start], ∅, ∅⟩
  { s.current with cand := s.current.cand.deleteStates s.critical }

/-- The number of transitions of candidate and observer. -/
def transitionCount (c : ObservedCandidate) : Nat :=
  c.observer.transitionCount + c.cand.transitionCount

/-- Repeats passes until no transition is taken away, or no start is left. -/
def run (plant : Automaton) (permitted : EventSet) (start : StateId) (c : ObservedCandidate) :
    ObservedCandidate :=
  match c.cand.initialState?, c.observer.initialState? with
  | some x, some z =>
    let next := pass plant permitted ⟨start, x, z⟩ c
    if transitionCount next < transitionCount c then run plant permitted start next else next
  | _, _ => c
termination_by transitionCount c

end NormalPart

/-- Takes states and transitions from a candidate, and transitions from its
observer, until the candidate disables only events of `permitted` and does so
alike wherever the observer is in one state; then restricts it to its accessible
states. The observer should generate all that looks like the candidate. If the
plant has no start, nothing happens. -/
def normalPart (plant : Automaton) (permitted : EventSet) (c : ObservedCandidate) :
    ObservedCandidate :=
  match plant.initialState? with
  | none => c
  | some start =>
    let c := NormalPart.run plant permitted start c
    { c with cand := c.cand.accessible }

end OmegaControl
