import OmegaControl.IdentSet.Basic

/-!
# Fixpoint iteration on sets of states

`ascend` and `descend` iterate a step on sets of states and accumulate: `ascend`
joins each result to the iterate, `descend` intersects it. So the iterate only
grows, or only shrinks, whatever the step does, and comparing sizes tells whether
it has settled. Both also stop at the bound beyond which nothing can change: all
states, given by their number, or none.

The step runs in an arbitrary monad, which lets it keep records and report its
progress. `saturate` is `ascend` for a pure step without a bound.
-/

namespace OmegaControl

/-- Joins the results of `step` to `s` until its size settles or is `full`. -/
def ascend {m : Type → Type} [Monad m] (full : Nat) (step : StateSet → m StateSet)
    (s : StateSet) : m StateSet := do
  let t ← step s
  if s.size < (s ∪ t).size ∧ (s ∪ t).size ≠ full then ascend full step (s ∪ t)
  else pure (s ∪ t)
termination_by UInt32.size - s.size
decreasing_by
  have := IdentSet.size_le (s ∪ t)
  omega

/-- Intersects `s` with the results of `step` until its size settles or is zero. -/
def descend {m : Type → Type} [Monad m] (step : StateSet → m StateSet) (s : StateSet) :
    m StateSet := do
  let t ← step s
  if (s ∩ t).size < s.size ∧ (s ∩ t).isEmpty = false then descend step (s ∩ t)
  else pure (s ∩ t)
termination_by s.size

/-- Joins the results of `step` to `s` until nothing is added. -/
def saturate (step : StateSet → StateSet) (s : StateSet) : StateSet :=
  if s.size < (s ∪ step s).size then saturate step (s ∪ step s) else s
termination_by UInt32.size - s.size
decreasing_by
  have := IdentSet.size_le (s ∪ step s)
  omega

end OmegaControl
