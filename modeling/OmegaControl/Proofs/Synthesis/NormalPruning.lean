import OmegaControl.Proofs.Liveness.ObservedRefinement
import OmegaControl.Proofs.Reaching
import OmegaControl.Proofs.Synthesis.NormalPart
import OmegaControl.Proofs.Synthesis.Pruning
import OmegaControl.Synthesis.Normal

/-!
# What pruning for an observer leaves

Pruning takes states and transitions from a candidate, and transitions from its observer, but
what ends its loops is that no *state* is taken away any more. So the last round may still have
dropped transitions, and what it leaves may differ from what it was tested on.

This does no harm. All that the last round drops is controllable, and the states of its result
conform, since finding a normal part goes on until no transition is taken away either
(`pruned_pruneOnce`). Together with the restriction to states that are enforceable, this makes
up all that the loop promises (`refine_spec`).
-/

namespace OmegaControl

open NormalPart

namespace ObservedProblem

variable {c : ObservedProblem} {p : ObservedCandidate} {label : StateId → ProductState}
  {cls : StateId → StateId}

/-- Nothing is left to prune: every state complies, is reached and conforms, and marked states
are ahead of it. -/
structure Pruned (c : ObservedProblem) (label : StateId → ProductState) (cls : StateId → StateId)
    (p : ObservedCandidate) : Prop where
  complies : ∀ x ∈ p.cand.states,
    CompliesWithin c.plant c.controllable p.cand (fun x => (label x).plant) Set.univ x
  reached : p.cand.AllReached
  conforms : ∀ x ∈ p.cand.states,
    Conforms c.plant c.observable (fun x => (label x).plant) cls p x
  marked_ahead : ∀ x ∈ p.cand.states, ∃ us, us ≠ [] ∧ p.cand.IsPath x us ∧ endOf x us ∈ p.cand.marked

/-- What is left of the candidate in one round of the loop, after the prefixes are
pruned and the marking is enforced by patterns. -/
def livePart (c : ObservedProblem) (plantMarking : StateSet) (classes : ObserverMap)
    (p : ObservedCandidate) : Automaton :=
  (restrictObserved (c.prunePrefixes p).cand c.controllable plantMarking
    (classes.filter fun x _ => x ∈ (c.prunePrefixes p).cand.states)).value.1

/-- All states are left when patterns are enforced. This is how the loop ends, and
it is why the closed loop has all the states of the solution before it is trimmed. -/
def Enforced (c : ObservedProblem) (plantMarking : StateSet) (classes : ObserverMap) (g : Automaton) :
    Prop :=
  ∀ x ∈ g.states, x ∈ (restrictObserved g c.controllable plantMarking
    (classes.filter fun x _ => x ∈ g.states)).value.1.states

/-- Nothing is left to prune if nothing is left. -/
theorem pruned_of_isEmpty (hempty : p.cand.isEmpty = true) : c.Pruned label cls p := by
  have hnone : ∀ {x}, x ∉ p.cand.states := fun {x} => IdentSet.isEmpty_iff.mp hempty x
  exact ⟨fun _ hx => absurd hx hnone, fun _ hx => absurd hx hnone, fun _ hx => absurd hx hnone,
    fun _ hx => absurd hx hnone⟩

section

variable (ha : Attached c.plant (fun x => (label x).plant) cls p)
include ha

/-! ## One round -/

/-- What is kept before a normal part is taken. -/
theorem reduct_kept : Reduct { p with
      cand := (controllablePart c.plant c.controllable p.cand).accessible.coaccessible } p ∧
    (controllablePart c.plant c.controllable p.cand).accessible.coaccessible.AllReached := by
  obtain ⟨hpart, hwf⟩ := ha.wellFormed.isPart_controllablePart c.plant c.controllable
  generalize controllablePart c.plant c.controllable p.cand = g at hpart hwf
  have haccessible := (hwf.isPart_restrictStates g.accessibleSet).trans hpart
  have hwf' := hwf.restrictStates g.accessibleSet
  have hcoaccessible :=
    (hwf'.isPart_restrictStates g.accessible.coaccessibleSet).trans haccessible
  refine ⟨.of_isPart hcoaccessible (hwf'.restrictStates _), ?_⟩
  exact hwf.allReached_accessible.coaccessible hwf'

/-- If no state is taken away before a normal part is taken, every state complies.
The three parts delete one after another, so none of them has deleted anything, and
then the controllable part is the candidate itself. -/
theorem complies_of_size_le (hsize : p.cand.size ≤
      (controllablePart c.plant c.controllable p.cand).accessible.coaccessible.size) :
    (controllablePart c.plant c.controllable p.cand).accessible.coaccessible = p.cand ∧
      ∀ x ∈ p.cand.states,
        CompliesWithin c.plant c.controllable p.cand (fun x => (label x).plant) Set.univ x := by
  have hcoaccessible := Automaton.size_coaccessible_le
    (controllablePart c.plant c.controllable p.cand).accessible
  have haccessible := Automaton.size_accessible_le (controllablePart c.plant c.controllable p.cand)
  have heq : controllablePart c.plant c.controllable p.cand = p.cand := by
    have hle : p.cand.size ≤ (controllablePart c.plant c.controllable p.cand).size := by omega
    rw [controllablePart] at hle ⊢
    split at hle
    · rfl
    · exact Automaton.eq_of_size_le_restrictStates hle
  rw [heq] at hsize hcoaccessible ⊢
  have hreached : p.cand.accessible = p.cand := Automaton.eq_of_size_le_restrictStates (by
    change p.cand.size ≤ p.cand.accessible.size
    omega)
  rw [hreached] at hsize ⊢
  refine ⟨Automaton.eq_of_size_le_restrictStates hsize, fun x hx => ?_⟩
  obtain ⟨x₀, hx₀, -⟩ := Automaton.mem_accessibleSet.mp (Automaton.mem_of_restrictStates_eq hreached hx)
  exact complies_of_controllablePart_eq ha.isDeterministic.hasUniqueSuccessors ha.along.reached
    ha.plant_isDeterministic.hasUniqueSuccessors
    ((initialPair?_eq_some_iff ha.plant_isDeterministic ha.isDeterministic).mpr
      ⟨ha.start x₀ hx₀, hx₀⟩) ha.wellFormed heq hx

/-- **One round** takes a normal part of what is kept, and then only states. If it takes away
no state at all, what it leaves complies, since what it drops is controllable. -/
theorem exists_normal_pruneOnce : ∃ q, Reduct q p ∧ q.cand.AllReached ∧
    (∀ x ∈ q.cand.states, Conforms c.plant c.observable (fun x => (label x).plant) cls q x) ∧
    c.pruneOnce p = { q with cand := q.cand.coaccessible.accessible.complete } ∧
    (Noticed cls p → p.cand.size ≤ (c.pruneOnce p).cand.size → ∀ x ∈ q.cand.states,
      CompliesWithin c.plant c.controllable q.cand (fun x => (label x).plant) Set.univ x) := by
  obtain ⟨hkept, hreached⟩ := reduct_kept (c := c) ha
  have hattached := ha.of_reduct hkept
  obtain ⟨hnormal, hconforms⟩ := normalPart_conforms hattached c.observable
  have hallReached := allReached_normalPart hattached c.observable hreached
  refine ⟨_, hnormal.trans hkept, hallReached, fun x hx => ?_, rfl, fun hnoticed hsize => ?_⟩
  · obtain ⟨s, x₀, hx₀, ts, hts, -, rfl⟩ := hallReached x hx
    exact hconforms x₀ hx₀ ts hts
  · have hlarge : p.cand.size ≤ (normalPart c.plant c.observable { p with
        cand := (controllablePart c.plant c.controllable p.cand).accessible.coaccessible }).cand.size :=
      hsize.trans ((Automaton.size_complete_le _).trans ((Automaton.size_accessible_le _).trans
        (Automaton.size_coaccessible_le _)))
    obtain ⟨heq, hcomplies⟩ := complies_of_size_le ha (hlarge.trans (size_normalPart_le _ _ _))
    rw [heq] at hlarge ⊢
    exact (normalPart_keeps ha (isKept_compliesObserved c.plant c.observable c.controllable _ cls)
      ⟨hcomplies, fun t ht _ => hnoticed t ht⟩ hlarge).complies

/-! ## All rounds -/

/-- A round leaves something out, and the observer still goes along with what is
left. -/
theorem reduct_pruneOnce : Reduct (c.pruneOnce p) p ∧ Noticed cls (c.pruneOnce p) := by
  obtain ⟨q, hq, -, hconforms, heq, -⟩ := exists_normal_pruneOnce (c := c) ha
  have hcoaccessible := hq.wellFormed.isPart_restrictStates q.cand.coaccessibleSet
  have hwf := hq.wellFormed.restrictStates q.cand.coaccessibleSet
  have haccessible :=
    (hwf.isPart_restrictStates q.cand.coaccessible.accessibleSet).trans hcoaccessible
  have hwf := hwf.restrictStates q.cand.coaccessible.accessibleSet
  have hcomplete :=
    (hwf.isPart_deleteStates q.cand.coaccessible.accessible.blockingSet).trans haccessible
  have hwf := hwf.deleteStates q.cand.coaccessible.accessible.blockingSet
  have hnoticed : Noticed cls q := fun t ht =>
    (hconforms t.source (hq.wellFormed.source_mem t ht)).observed t ht rfl
  rw [heq]
  exact ⟨(Reduct.of_isPart hcomplete hwf).trans hq, hnoticed.of_isPart hcomplete⟩

/-- A round that takes no state away leaves nothing to prune. -/
theorem pruned_pruneOnce (hnoticed : Noticed cls p)
    (hsize : p.cand.size ≤ (c.pruneOnce p).cand.size) : c.Pruned label cls (c.pruneOnce p) := by
  obtain ⟨q, hq, hreached, hconforms, heq, hcomplies⟩ := exists_normal_pruneOnce (c := c) ha
  have hcomplies := hcomplies hnoticed hsize
  have hle : q.cand.size ≤ p.cand.size := IdentSet.size_le_of_subset hq.cand.states_subset
  rw [heq] at hsize ⊢
  obtain ⟨hcoaccessible, haccessible, hcomplete⟩ :=
    Automaton.eq_of_size_le_trimmed (hle.trans hsize)
  rw [hcoaccessible, haccessible, hcomplete]
  exact ⟨hcomplies, hreached, hconforms,
    fun x hx => Automaton.marked_ahead_of_eq hq.wellFormed hcoaccessible hcomplete hx⟩

/-- The rounds end with nothing left to prune. -/
theorem prunePrefixes_spec (hnoticed : Noticed cls p) :
    Reduct (c.prunePrefixes p) p ∧ Noticed cls (c.prunePrefixes p) ∧
      c.Pruned label cls (c.prunePrefixes p) := by
  fun_induction prunePrefixes c p with
  | case1 p rest hempty =>
    obtain ⟨hr, hn⟩ := reduct_pruneOnce (c := c) ha
    exact ⟨hr, hn, pruned_of_isEmpty hempty⟩
  | case2 p rest _ _ ih =>
    obtain ⟨hr, hn⟩ := reduct_pruneOnce (c := c) ha
    obtain ⟨hr', hn', hpruned⟩ := ih (ha.of_reduct hr) hn
    exact ⟨hr'.trans hr, hn', hpruned⟩
  | case3 p rest _ hsize =>
    obtain ⟨hr, hn⟩ := reduct_pruneOnce (c := c) ha
    exact ⟨hr, hn, pruned_pruneOnce ha hnoticed (Nat.le_of_not_lt hsize)⟩

/-! ## The loop -/

omit ha in
/-- Enforcing patterns takes states away. If it takes none, everything is as before. -/
theorem isPart_livePart (hwf : (c.prunePrefixes p).cand.WellFormed) (plantMarking : StateSet)
    (classes : ObserverMap) :
    (c.livePart plantMarking classes p).IsPart (c.prunePrefixes p).cand ∧
      (c.livePart plantMarking classes p).WellFormed ∧
      ((c.prunePrefixes p).cand.size ≤ (c.livePart plantMarking classes p).size →
        c.livePart plantMarking classes p = (c.prunePrefixes p).cand) := by
  rw [livePart, value_restrictObserved]
  exact ⟨hwf.isPart_restrictStates _, hwf.restrictStates _, Automaton.eq_of_size_le_restrictStates⟩

omit ha in
/-- One round of the loop. -/
theorem value_refine (plantMarking : StateSet) (classes : ObserverMap) (total : ℕ) :
    (c.refine plantMarking classes total p).value =
      if p.cand.isEmpty then p.cand
      else if (c.livePart plantMarking classes p).size < (c.prunePrefixes p).cand.size then
        (c.refine plantMarking classes total
          { c.prunePrefixes p with cand := c.livePart plantMarking classes p }).value
      else c.livePart plantMarking classes p := by
  rw [refine, Watched.value_bind]
  split
  next => rfl
  next =>
    dsimp only
    rw [Watched.value_bind, livePart]
    generalize (restrictObserved (c.prunePrefixes p).cand c.controllable plantMarking
      (classes.filter fun x _ => x ∈ (c.prunePrefixes p).cand.states)).value = out
    split <;> rfl

/-- **The loop** does not end before nothing is left to prune and patterns leave all
states. In the last round the restriction has taken no state away, so what was said
of the pruned candidate is true of what is returned. -/
theorem refine_spec (plantMarking : StateSet) (classes : ObserverMap) (total : ℕ)
    (hnoticed : Noticed cls p) :
    ∃ q, (c.refine plantMarking classes total p).value = q.cand ∧ Reduct q p ∧
      c.Pruned label cls q ∧ c.Enforced plantMarking classes q.cand := by
  -- on the size: a round that goes on has deleted a state
  induction hsize : p.cand.size using Nat.strong_induction_on generalizing p with
  | _ n ih =>
    subst hsize
    rw [value_refine]
    split
    next hempty =>
      exact ⟨p, rfl, .refl ha.wellFormed, pruned_of_isEmpty hempty,
        fun x hx => absurd hx (IdentSet.isEmpty_iff.mp hempty x)⟩
    next =>
      obtain ⟨hr, hn, hpruned⟩ := prunePrefixes_spec (c := c) ha hnoticed
      obtain ⟨hpart, hwf, heq⟩ := isPart_livePart hr.wellFormed plantMarking classes
      have hle := c.size_prunePrefixes_le p
      split
      next hsmaller =>
        have hlive := Reduct.of_isPart hpart hwf
        obtain ⟨q, heq, hq, hpruned, henforced⟩ := ih _ (hsmaller.trans_le hle)
          (ha.of_reduct (hlive.trans hr)) (hn.of_isPart hpart) rfl
        exact ⟨q, heq, hq.trans (hlive.trans hr), hpruned, henforced⟩
      next hsame =>
        -- the fixpoint has deleted nothing, so all that pruning left is live
        have heq := heq (Nat.le_of_not_lt hsame)
        refine ⟨c.prunePrefixes p, heq, hr, hpruned, fun x hx => ?_⟩
        rw [← heq, livePart] at hx
        exact hx

end

end ObservedProblem

end OmegaControl
