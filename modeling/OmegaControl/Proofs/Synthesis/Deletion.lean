import OmegaControl.Synthesis.Supremal

/-!
# What deletions keep

From the product on, all that happens to a candidate is that states are deleted. So
what every deletion keeps, whichever states it takes away, is kept by pruning, by
the restriction to enforceable states and by the loop.

This is used for what does not depend on which states are deleted: that the alphabet
is the one of the plant, that there are no more states than before, that states are
named if names are kept. Which states are deleted, and which are not,
is a matter of each step on its own.
-/

namespace OmegaControl

/-- Whatever states are deleted, `R` is kept. -/
def KeptByDeletion (R : Automaton → Prop) : Prop :=
  ∀ (g : Automaton) (dead : StateSet), R g → R (g.deleteStates dead)

namespace KeptByDeletion

variable {R : Automaton → Prop} (h : KeptByDeletion R) {g : Automaton}
include h

/-- Making a candidate controllable deletes states. -/
theorem controllablePart (hg : R g) (plant : Automaton) (controllable : EventSet) :
    R (controllablePart plant controllable g) := by
  rw [OmegaControl.controllablePart]
  split
  · exact hg
  · exact h _ _ hg

variable (c : ControlProblem)

/-- So do the steps of which one round of pruning consists. -/
theorem pruneOnce (hg : R g) : R (c.pruneOnce g) :=
  h _ _ (h _ _ (h _ _ (h.controllablePart hg _ _)))

/-- Pruning repeats these steps. -/
theorem prunePrefixes (hg : R g) : R (c.prunePrefixes g) := by
  fun_induction ControlProblem.prunePrefixes c g with
  | case1 g rest _ => exact h.pruneOnce c hg
  | case2 g rest _ _ ih => exact ih (h.pruneOnce c hg)
  | case3 g rest _ _ => exact h.pruneOnce c hg

/-- Restricting to enforceable states deletes the others. -/
theorem restrictToEnforceable (hg : R g) (controllable : EventSet) (plantMarking : StateSet) :
    R (restrictToEnforceable g controllable plantMarking).value := by
  rw [OmegaControl.restrictToEnforceable, Watched.value_bind]
  exact h _ _ hg

/-- **The loop** keeps what deletions keep. -/
theorem refine (hg : R g) (plantMarking : StateSet) (total : Nat) :
    R (c.refine plantMarking total g).value := by
  fun_induction ControlProblem.refine c plantMarking total g with
  | case1 g ih =>
    rw [Watched.value_bind]
    split
    · exact hg
    · have hlive := h.restrictToEnforceable (h.prunePrefixes c hg) c.controllable plantMarking
      rw [Watched.value_bind]
      split
      next hsmaller => exact ih _ hsmaller hlive
      next => exact hlive

end KeptByDeletion

end OmegaControl
