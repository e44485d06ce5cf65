import OmegaControl.Liveness.Observed
import OmegaControl.Normality
import OmegaControl.Synthesis.Supremal

/-!
# Normal solutions

A supervisor that sees only some events needs a solution that it can tell from
what it sees. To every state of the product the state of an observer is attached,
which stands for all that has been seen so far. Then states are taken away as for
a supremal solution, except that pruning keeps the candidate normal too, together
with its observer, and that states are enforced by doing the same wherever the
observer is in one state.
-/

namespace OmegaControl

/-! ## What making a candidate normal does to it -/

namespace NormalPart

/-- Whatever is taken from a candidate or its observer on the way to a normal part, a transition of
either or states of the candidate, `R` is kept. -/
structure KeptByReduction (R : ObservedCandidate → Prop) : Prop where
  eraseObserver : ∀ (c : ObservedCandidate) (t : Transition), R c →
    R { c with observer := c.observer.eraseTransition t }
  eraseCand : ∀ (c : ObservedCandidate) (t : Transition), R c →
    R { c with cand := c.cand.eraseTransition t }
  deleteStates : ∀ (c : ObservedCandidate) (dead : StateSet), R c →
    R { c with cand := c.cand.deleteStates dead }

namespace KeptByReduction

variable {R : ObservedCandidate → Prop} (h : KeptByReduction R) {c : ObservedCandidate}
include h

/-- Transitions of the observer are erased one by one, and each time the property is
kept. -/
theorem eraseAllObserver (hc : R c) (ts : List Transition) :
    R { c with observer := ts.foldl Automaton.eraseTransition c.observer } := by
  induction ts generalizing c with
  | nil => exact hc
  | cons t ts ih => exact ih (h.eraseObserver c t hc)

/-- So are transitions of the candidate. -/
theorem eraseAllCand (hc : R c) (ts : List Transition) :
    R { c with cand := ts.foldl Automaton.eraseTransition c.cand } := by
  induction ts generalizing c with
  | nil => exact hc
  | cons t ts ih => exact ih (h.eraseCand c t hc)

variable (plant : Automaton) (permitted : EventSet)

/-- A visit only erases transitions, those of the observer first. -/
theorem visit {s : Pass} (hs : R s.current) (p : AttachedState) :
    R (visit plant permitted s p).current := by
  rw [NormalPart.visit]
  dsimp only
  split
  next => exact h.eraseAllCand (h.eraseAllObserver hs _) _
  next => exact hs

/-- A walk is one visit after another. -/
theorem walk {s : Pass} (hs : R s.current) : R (walk plant permitted s).current := by
  fun_induction NormalPart.walk plant permitted s with
  | case1 s => exact hs
  | case2 s p rest _ ih => exact ih (h.visit plant permitted (s := { s with pending := rest }) hs p)

/-- A pass is a walk, after which critical states are deleted. -/
theorem pass (hc : R c) (start : AttachedState) :
    R (pass plant permitted start c) :=
  h.deleteStates _ _ (h.walk plant permitted (s := ⟨c, [start], ∅, ∅⟩) hc)

/-- A run is one pass after another. -/
theorem run (hc : R c) (start : StateId) :
    R (run plant permitted start c) := by
  fun_induction NormalPart.run plant permitted start c with
  | case1 c x z _ _ next _ ih => exact ih (h.pass plant permitted hc ⟨start, x, z⟩)
  | case2 c x z _ _ next _ => exact h.pass plant permitted hc ⟨start, x, z⟩
  | case3 => exact hc

/-- **A normal part** has what reductions keep. -/
theorem normalPart (hc : R c) : R (normalPart plant permitted c) := by
  rw [OmegaControl.normalPart]
  split
  next => exact hc
  next start _ => exact h.deleteStates _ _ (h.run plant permitted hc start)

end KeptByReduction

/-- The size does not grow, so the loops that are tested by it come to an end. -/
theorem keptByReduction_size_le (n : Nat) : KeptByReduction (·.cand.size ≤ n) where
  eraseObserver _ _ h := h
  eraseCand _ _ h := h
  deleteStates _ _ h := Nat.le_trans (Automaton.size_deleteStates_le _ _) h

theorem size_pass_le (plant : Automaton) (permitted : EventSet) (start : AttachedState)
    (c : ObservedCandidate) : (pass plant permitted start c).cand.size ≤ c.cand.size :=
  (keptByReduction_size_le _).pass plant permitted (Nat.le_refl _) start

theorem size_run_le (plant : Automaton) (permitted : EventSet) (start : StateId)
    (c : ObservedCandidate) : (run plant permitted start c).cand.size ≤ c.cand.size :=
  (keptByReduction_size_le _).run plant permitted (Nat.le_refl _) start

end NormalPart

theorem size_normalPart_le (plant : Automaton) (permitted : EventSet) (c : ObservedCandidate) :
    (normalPart plant permitted c).cand.size ≤ c.cand.size :=
  (NormalPart.keptByReduction_size_le _).normalPart plant permitted (Nat.le_refl _)

namespace ObservedProblem

/-! ## Pruning -/

/-- Takes away what cannot be kept controllable and normal, does not lead to a marked
state, is not reached or ends in a dead end. -/
def pruneOnce (c : ObservedProblem) (g : ObservedCandidate) : ObservedCandidate :=
  let kept := (controllablePart c.plant c.controllable g.cand).accessible.coaccessible
  let g := normalPart c.plant c.observable { g with cand := kept }
  { g with cand := g.cand.coaccessible.accessible.complete }

/-- Prunes until no state is taken away or none is left. -/
def prunePrefixes (c : ObservedProblem) (g : ObservedCandidate) : ObservedCandidate :=
  let rest := c.pruneOnce g
  if rest.cand.isEmpty then rest
  else if rest.cand.size < g.cand.size then c.prunePrefixes rest
  else rest
termination_by g.cand.size

theorem size_pruneOnce_le (c : ObservedProblem) (g : ObservedCandidate) :
    (c.pruneOnce g).cand.size ≤ g.cand.size := by
  have hkept : (controllablePart c.plant c.controllable g.cand).accessible.coaccessible.size ≤
      g.cand.size :=
    Nat.le_trans (Automaton.size_coaccessible_le _) (Nat.le_trans (Automaton.size_accessible_le _)
      (ControlProblem.size_controllablePart_le _ _ _))
  exact Nat.le_trans (Automaton.size_complete_le _) (Nat.le_trans (Automaton.size_accessible_le _)
    (Nat.le_trans (Automaton.size_coaccessible_le _)
      (Nat.le_trans (size_normalPart_le _ _ _) hkept)))

/-- Whatever pruning ends with has no more states than it has started with, which is
what the loop around it needs to end. -/
theorem size_prunePrefixes_le (c : ObservedProblem) (g : ObservedCandidate) :
    (c.prunePrefixes g).cand.size ≤ g.cand.size := by
  fun_induction prunePrefixes c g with
  | case1 g rest _ => exact c.size_pruneOnce_le g
  | case2 g rest _ _ ih => exact Nat.le_trans ih (c.size_pruneOnce_le g)
  | case3 g rest _ _ => exact c.size_pruneOnce_le g

/-! ## The loop -/

/-- Prunes and restricts to enforceable states until no state is taken away; each
round reports how many of `total` states are gone. `classes` attaches states of
the observer. -/
def refine (c : ObservedProblem) (plantMarking : StateSet) (classes : ObserverMap) (total : Nat)
    (g : ObservedCandidate) : Watched Automaton := do
  Watched.checkpoint .driver (total - g.cand.size) total
  if g.cand.isEmpty then pure g.cand
  else
    let pruned := c.prunePrefixes g
    let (live, _) ← restrictObserved pruned.cand c.controllable plantMarking
      (classes.filter fun x _ => x ∈ pruned.cand.states)
    if live.size < pruned.cand.size then
      c.refine plantMarking classes total { pruned with cand := live }
    else pure live
termination_by g.cand.size
decreasing_by
  have hpruned : pruned.cand.size ≤ g.cand.size := c.size_prunePrefixes_le g
  change live.size < g.cand.size
  omega

/-- All that looks like a word of `g`, over the alphabet of `g`: the observer of `g`. -/
def observerOf (c : ObservedProblem) (g : Automaton) : Automaton :=
  (g.markAllStates.project c.observable).inverseProject g.alphabet

/-- A normal solution, with what is needed to turn it into a closed loop. -/
def normalCandidate (c : ObservedProblem) : Watched Candidate := do
  let product ← c.controlledProduct
  let g := product.automaton.omegaTrim.setStateNamesEnabled false
  let observer := c.observerOf g
  let (attached, numbers) := g.product observer
  let cand := (attached.setName g.name).setStateNamesEnabled false
  let plantMarking := IdentSet.ofList
    ((numbers.toList.filter fun (p, _) => p.left ∈ product.plantMarking).map (·.2))
  let classes : ObserverMap := .ofList (numbers.toList.map fun (p, y) => (y, p.right))
  let automaton ← c.refine plantMarking classes cand.size { observer, cand }
  pure { automaton, plantMarking, observerMap := classes.filter fun x _ => x ∈ automaton.states }

/-- A normal solution of a control problem that is not checked. -/
def normalUnchecked (c : ObservedProblem) : Watched Automaton := do
  let candidate ← c.normalCandidate
  pure candidate.automaton

end ObservedProblem

end OmegaControl
