import OmegaControl.Proofs.Controllability
import OmegaControl.Proofs.Inclusion
import OmegaControl.Proofs.Product
import OmegaControl.Proofs.Synthesis.ControllablePart
import OmegaControl.Synthesis.ClosedLoop

/-!
# When verification succeeds

The tests for controllability and relative closedness look at plant and candidate in
step, in the pairs of states that common words lead to. If the candidate moves along
with the plant (`Accompanied`), the plant goes along with each of its words
(`Accompanied.reaches`), so each of its states goes with one state of the plant.

* If every state complies, the candidate is controllable
  (`Accompanied.isControllable`).
* If each cycle that visits marked states of one side visits marked states of the
  other, the candidate is relatively closed (`Accompanied.isRelativelyClosed`).

These are the directions that are needed to see that verification succeeds. What the
tests decide in general is shown where they are taken up on their own.
-/

namespace OmegaControl

/-- The candidate moves along with the plant, from the start on. So a word that
leads to a state of the candidate leads to the state of the plant that goes with it. -/
structure Accompanied (plant cand : Automaton) (plantState : StateId → StateId) : Prop where
  plant_wellFormed : plant.WellFormed
  plant_isDeterministic : plant.IsDeterministic
  isDeterministic : cand.IsDeterministic
  wellFormed : cand.WellFormed
  /-- every transition is one of the plant as well -/
  along : GoesAlong plant cand plantState
  /-- and so is every start -/
  start : ∀ x ∈ cand.initial, plantState x ∈ plant.initial

namespace Accompanied

variable {plant cand : Automaton} {plantState : StateId → StateId} {controllable : EventSet}
  (h : Accompanied plant cand plantState)
include h

/-- The target of the plant is that of the candidate, as the plant is deterministic. -/
theorem target_eq {ev : EventId} {x y z : StateId}
    (hplant : ⟨plantState x, ev, y⟩ ∈ plant.transitions) (hcand : ⟨x, ev, z⟩ ∈ cand.transitions) :
    y = plantState z :=
  congrArg (·.target) (h.plant_isDeterministic.hasUniqueSuccessors _ hplant _ (h.along _ hcand)
    rfl rfl)

/-- The plant goes along with every word. -/
theorem reaches {s : List EventId} {x : StateId} (hs : cand.Reaches s x) :
    plant.Reaches s (plantState x) := by
  induction s using List.reverseRecOn generalizing x with
  | nil => exact Automaton.reaches_nil.mpr (h.start x (Automaton.reaches_nil.mp hs))
  | append_singleton s ev ih =>
    obtain ⟨y, hy, ht⟩ := Automaton.reaches_concat.mp hs
    exact (ih hy).concat (h.along ⟨y, ev, x⟩ ht)

/-- **Controllability**: the test succeeds if every state complies. No pair that it
meets has an uncontrollable event of the plant that the candidate lacks. -/
theorem isControllable (hcomplies : ∀ x ∈ cand.states,
      CompliesWithin plant controllable cand plantState Set.univ x) :
    isControllable plant controllable cand = true := by
  refine (isControllable_iff_not_disables h.plant_isDeterministic h.isDeterministic).mpr ?_
  rintro s y x hy hx ev ⟨hev, ⟨z, ht⟩, hnone⟩
  obtain rfl := h.plant_isDeterministic.reaches_unique hy (h.reaches hx)
  obtain ⟨r, hr, hsource, rfl, -⟩ :=
    hcomplies x (hx.mem_states h.wellFormed) ⟨plantState x, ev, z⟩ ht rfl hev
  exact hnone r.target (Automaton.mk_mem_transitions hr hsource)

/-! ## Relative closedness

Both are run in step, and cycles of the pairs are looked for. A pair is known by its
candidate, so there are at most as many of them as the candidate has states. -/

/-- The candidate generates only words that the plant generates. -/
theorem isClosedSubset : cand.isClosedSubset plant = true := by
  refine Automaton.isClosedSubset_of_subset h.isDeterministic h.plant_isDeterministic fun s hs => ?_
  obtain ⟨x, hx⟩ := Automaton.mem_words_iff.mp hs
  exact (h.reaches hx).mem_words

/-- The pairs that the product holds are those of a state of the candidate and the
state of the plant that goes with it. -/
theorem right_eq_of_mem_jointPairs {p : StatePair} (hp : p ∈ cand.jointPairs plant) :
    p.right = plantState p.left ∧ p.left ∈ cand.states := by
  obtain ⟨s, hcand, hplant⟩ := Automaton.exists_reaches_of_mem_jointPairs hp
  exact ⟨h.plant_isDeterministic.reaches_unique hplant (h.reaches hcand), hcand.mem_states h.wellFormed⟩

/-- Each state of the candidate is in one pair of the product at most. -/
theorem length_jointPairs_le : (cand.jointPairs plant).length ≤ cand.size := by
  refine IdentSet.length_le_size (R := fun p x => p.right = plantState x ∧ p.left = x)
    Traversal.discover_nodup (fun p hp => ?_) fun p _ q _ x hp hq => ?_
  · obtain ⟨hright, hstate⟩ := h.right_eq_of_mem_jointPairs hp
    exact ⟨p.left, hstate, hright, rfl⟩
  · cases p
    cases q
    simp_all

/-- **Relative closedness**: the test succeeds if no cycle visits marked states of
one side only. -/
theorem isRelativelyClosed (hsize : cand.size < UInt32.size)
    (hplant : ∀ x ∈ cand.states, plantState x ∈ plant.marked → ∀ ts, ts ≠ [] → cand.IsPath x ts →
      endOf x ts = x → ∃ t ∈ ts, t.target ∈ cand.marked)
    (hcand : ∀ x ∈ cand.states, x ∈ cand.marked → ∀ ts, ts ≠ [] → cand.IsPath x ts →
      endOf x ts = x → ∃ t ∈ ts, plantState t.target ∈ plant.marked) :
    isRelativelyClosed plant cand = true := by
  have hproduct := Automaton.isProduct_product h.wellFormed h.plant_wellFormed
    (Nat.lt_of_le_of_lt h.length_jointPairs_le hsize)
  rw [OmegaControl.isRelativelyClosed, h.isClosedSubset, Bool.true_and]
  generalize cand.product plant = out at hproduct
  obtain ⟨both, numbers⟩ := out
  dsimp only at hproduct ⊢
  -- a cycle through the marking of the plant, around that of the candidate
  have hplantCycle : both.hasCycle (Automaton.statesWhere numbers fun p => p.right ∈ plant.marked)
      (Automaton.statesWhere numbers fun p => p.left ∈ cand.marked) = false := by
    refine Bool.eq_false_iff.mpr fun hcycle => ?_
    obtain ⟨p, hp, hmarked, us, hne, hus, hend, havoid⟩ := hproduct.exists_cycle hcycle
    obtain ⟨hright, hstate⟩ := h.right_eq_of_mem_jointPairs hp
    obtain ⟨u, hu, htarget⟩ :=
      hplant p.left hstate (hright ▸ of_decide_eq_true hmarked) us hne hus hend
    obtain ⟨q, -, hleft, hout⟩ := havoid u hu
    exact of_decide_eq_false hout (hleft ▸ htarget)
  -- and the other way round
  have hcandCycle : both.hasCycle (Automaton.statesWhere numbers fun p => p.left ∈ cand.marked)
      (Automaton.statesWhere numbers fun p => p.right ∈ plant.marked) = false := by
    refine Bool.eq_false_iff.mpr fun hcycle => ?_
    obtain ⟨p, hp, hmarked, us, hne, hus, hend, havoid⟩ := hproduct.exists_cycle hcycle
    obtain ⟨-, hstate⟩ := h.right_eq_of_mem_jointPairs hp
    obtain ⟨u, hu, htarget⟩ := hcand p.left hstate (of_decide_eq_true hmarked) us hne hus hend
    obtain ⟨q, hq, hleft, hout⟩ := havoid u hu
    refine of_decide_eq_false hout ?_
    rw [(h.right_eq_of_mem_jointPairs hq).1, hleft]
    exact htarget
  rw [hplantCycle, hcandCycle]
  rfl

end Accompanied

end OmegaControl
