import OmegaControl.Product

/-!
# Inclusion of generated words

For deterministic automata, every finite word of `g₁` is a word of `g₂` if,
whenever both are in step, `g₁` has no event that `g₂` lacks. The two are in step
in the pairs of states that a common word leads to (`pairsInStep`).
-/

namespace OmegaControl

/-- The pair of initial states of two automata, if both have one. -/
def initialPair? (g₁ g₂ : Automaton) : Option StatePair :=
  match g₁.initialState?, g₂.initialState? with
  | some x₁, some x₂ => some ⟨x₁, x₂⟩
  | _, _ => none

namespace Automaton

/-- What two automata can do from a pair of states, event by event. -/
def joinAt (g₁ g₂ : Automaton) (p : StatePair) : List Joined :=
  joinByEvent (g₁.transitionsFrom p.left) (g₂.transitionsFrom p.right)

end Automaton

/-- The pair of targets, if both sides have the event. -/
def Joined.target? : Joined → Option StatePair
  | .both l r => some ⟨l.target, r.target⟩
  | .left _ => none
  | .right _ => none

/-- Is the event on the left side only? -/
def Joined.isLeft : Joined → Bool
  | .left _ => true
  | _ => false

namespace Automaton

/-- The pairs of states that common words lead to from any of the given pairs. -/
def pairsInStep (g₁ g₂ : Automaton) (starts : List StatePair) : List StatePair :=
  Traversal.reachable (fun p => (g₁.joinAt g₂ p).filterMap (·.target?)) starts

/-- Is every finite word that `g₁` generates generated by `g₂`? Both should be
deterministic. -/
def isClosedSubset (g₁ g₂ : Automaton) : Bool :=
  match g₂.initialState? with
  | none => g₁.initial.isEmpty
  | some x₂ =>
    (g₁.pairsInStep g₂ (g₁.initial.toList.map (⟨·, x₂⟩))).all fun p =>
      (g₁.joinAt g₂ p).all (!·.isLeft)

end Automaton

end OmegaControl
