import OmegaControl.Automaton.Numbering
import OmegaControl.IdentSet.Subset

/-!
# Projection

Projecting an automaton onto some of its events makes the others silent. What is
left of it is made deterministic by the subset construction: a state of the
projection stands for the set of states the automaton can be in after what has
been observed. The sets are closed under silent steps and never empty; they are
numbered in the order in which a breadth-first walk meets them.

The inverse operation adds events that change nothing: `inverseProject` gives
every state a loop on each event that is new to the alphabet.
-/

namespace OmegaControl.Automaton

/-- The states reached from `s` on events outside `events`. -/
def silentClosure (g : Automaton) (events : EventSet) (s : StateSet) : StateSet :=
  IdentSet.ofList (Traversal.reachable
    (fun x => ((g.transitionsFrom x).filter (·.event ∉ events)).map (·.target)) s.toList)

/-- The states that some state of `s` leads to on `ev`. -/
def stepSet (g : Automaton) (s : StateSet) (ev : EventId) : StateSet :=
  IdentSet.ofList (s.toList.flatMap fun x => (g.transitionsOn x ev).map (·.target))

/-- Where an observer of `events` that believes the state to be in `s` can find
itself after one more event. -/
def observedSteps (g : Automaton) (events : EventSet) (s : IdentSet.SubsetOf g.states) :
    List (EventId × IdentSet.SubsetOf g.states) :=
  events.toList.filterMap fun ev =>
    let next := g.stepSet s.1 ev
    if next.isEmpty then none else some (ev, .ofSet g.states (g.silentClosure events next))

/-- What an observer of `events` believes at the start; nothing if there is no start. -/
def observedStart (g : Automaton) (events : EventSet) : List (IdentSet.SubsetOf g.states) :=
  if g.initial.isEmpty then [] else [.ofSet g.states (g.silentClosure events g.initial)]

/-- What an observer of `events` can come to believe, in the order of discovery. -/
def beliefs (g : Automaton) (events : EventSet) : List (IdentSet.SubsetOf g.states) :=
  Traversal.discover .breadthFirst (fun s => (g.observedSteps events s).map (·.2))
    (g.observedStart events)

/-- The projection onto `events` and, for each of its states, the set of states of
`g` that it stands for. -/
def projectWithMap (g : Automaton) (events : EventSet) :
    Automaton × Std.ExtTreeMap StateId StateSet :=
  let events := g.alphabet ∩ events
  let start := g.observedStart events
  let blank := (((new ("Project(" ++ g.name ++ ")")).insertEvents events).copyEventNames
    g).setStateNamesEnabled false
  let (p, numbers) := blank.insertStatesFor (g.beliefs events)
  let p := (p.setInitialFor numbers start).insertSteps numbers (g.observedSteps events)
  let marked := numbers.toList.filter fun (s, _) => !s.1.disjoint g.marked
  (marked.foldl (fun p (_, x) => p.setMarkedState x) p,
    numbers.toList.foldl (fun m (s, x) => m.insert x s.1) ∅)

/-- The projection onto `events`. -/
def project (g : Automaton) (events : EventSet) : Automaton := (g.projectWithMap events).1

/-- Extends the alphabet to `events`; every state gets a loop on each new event. -/
def inverseProject (g : Automaton) (events : EventSet) : Automaton :=
  let fresh := events \ g.alphabet
  (g.states.toList.flatMap fun x => fresh.toList.map fun ev => ⟨x, ev, x⟩).foldl
    insertTransition (g.insertEvents fresh)

end OmegaControl.Automaton
