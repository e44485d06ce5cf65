import OmegaControl.Automaton.Numbering
import OmegaControl.Traversal

/-!
# Synchronous product

The product of two automata runs both at once: it takes a step on an event if
both can take one. Its states are the pairs of states met on the way, numbered in
the order in which a depth-first walk meets them; `Composition` tells which number
a pair got. A state of the product is marked if both its components are.

The construction has three parts that can be read apart: which pairs are met
(`jointPairs`), which steps they take (`jointSteps`), and which marks and names
their states get (`finishPair`).
-/

namespace OmegaControl

/-- A state of the left and a state of the right component. -/
structure StatePair where
  left : StateId
  right : StateId
  deriving DecidableEq

namespace StatePair

instance : Ord StatePair := ⟨compareLex (compareOn left) (compareOn right)⟩

instance : Std.TransOrd StatePair :=
  inferInstanceAs (Std.TransCmp (compareLex (compareOn left) (compareOn right)))

instance : Std.LawfulEqOrd StatePair where
  eq_of_compare {p q} h := by
    have h : compareLex (compareOn left) (compareOn right) p q = .eq := h
    simp only [compareLex_eq_eq, compareOn, Std.LawfulEqCmp.compare_eq_iff_eq] at h
    cases p
    cases q
    simp_all

instance : Bounded StatePair :=
  Bounded.ofInjective (fun p => (p.left, p.right)) fun p q h => by
    cases p
    cases q
    simp_all

end StatePair

/-- The state of a product that stands for a pair. -/
abbrev Composition := Std.ExtTreeMap StatePair StateId

namespace Automaton

/-- The steps that `g₁` and `g₂` can take together from a pair, with the events
they are taken on. -/
def jointSteps (g₁ g₂ : Automaton) (p : StatePair) : List (EventId × StatePair) :=
  (g₁.transitionsFrom p.left).flatMap fun t₁ =>
    (g₂.transitionsOn p.right t₁.event).map fun t₂ => (t₁.event, ⟨t₁.target, t₂.target⟩)

/-- The pairs of initial states. -/
def initialPairs (g₁ g₂ : Automaton) : List StatePair :=
  g₁.initial.toList.flatMap fun x₁ => g₂.initial.toList.map fun x₂ => ⟨x₁, x₂⟩

/-- The pairs that the two automata reach together, in the order of their discovery. -/
def jointPairs (g₁ g₂ : Automaton) : List StatePair :=
  Traversal.discover .depthFirst (fun p => (g₁.jointSteps g₂ p).map (·.2)) (g₁.initialPairs g₂)

/-- The empty product: shared events with the names they have on the left. -/
def emptyProduct (g₁ g₂ : Automaton) : Automaton :=
  (((new ("Product(" ++ g₁.name ++ "," ++ g₂.name ++ ")")).insertEvents
    (g₁.alphabet ∩ g₂.alphabet)).copyEventNames g₁).setStateNamesEnabled
    (g₁.stateNamesEnabled && g₂.stateNamesEnabled)

/-- Marks and names the state of one pair as its components are. -/
def finishPair (g₁ g₂ g : Automaton) (p : StatePair) (x : StateId) : Automaton :=
  let g := if p.left ∈ g₁.marked ∧ p.right ∈ g₂.marked then g.setMarkedState x else g
  match g₁.stateName? p.left, g₂.stateName? p.right with
  | some n₁, some n₂ => g.setStateName x (g.uniqueStateName (n₁ ++ "|" ++ n₂))
  | _, _ => g

/-- The synchronous product of two automata over their shared events, with the
states that stand for the pairs. -/
def product (g₁ g₂ : Automaton) : Automaton × Composition :=
  let (g, numbers) := (g₁.emptyProduct g₂).insertStatesFor (g₁.jointPairs g₂)
  let g := (g.setInitialFor numbers (g₁.initialPairs g₂)).insertSteps numbers (g₁.jointSteps g₂)
  (numbers.toList.foldl (fun g (p, x) => g₁.finishPair g₂ g p x) g, numbers)

end Automaton

end OmegaControl
