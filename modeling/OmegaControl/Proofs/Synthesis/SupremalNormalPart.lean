import OmegaControl.Proofs.Synthesis.NormalPasses
import OmegaControl.Proofs.Synthesis.ObserverProduct

/-!
# The supremal normal part

To take the normal part of an automaton that stays within a plant, the product with
its observer is built, of which states may be deleted before
(`Automaton.withObserver`). The observer mirrors the product, so the words of the
normal part are the largest prefix-normal set of words of what was left, and they
pass the test for normality (`normalPart_isGreatest`). The passes over the two end,
however many states are deleted.

That states may be deleted before is how normal parts are used: the loop of a
synthesis deletes states, and takes the normal part of what is left with the
observer that it has built at the start.
-/

namespace OmegaControl

open Automaton NormalPart

/-- The product of an automaton with the observer of its `observable` events, except for the states
of `dead`, and this observer. -/
def Automaton.withObserver (g : Automaton) (observable alphabet : EventSet) (dead : StateSet) :
    ObservedCandidate where
  observer := (g.project observable).inverseProject alphabet
  cand := (g.product ((g.project observable).inverseProject alphabet)).1.deleteStates dead

variable {plant g : Automaton} {observable : EventSet}

/-- It is a part of a product that its observer mirrors. -/
theorem Automaton.StaysWithin.exists_mirrors (h : g.StaysWithin plant) (hg : g.WellFormed)
    (hdet : g.IsDeterministic) (hwf : plant.WellFormed) (hplant : plant.IsDeterministic)
    (halphabet : g.alphabet = plant.alphabet) (hfits : g.ObserverFits observable plant.alphabet) :
    ∃ plantState cls o a, Mirrors plant observable plantState cls o a ∧
      a.alphabet = plant.alphabet ∧ a.size < UInt32.size ∧
      ∀ dead, g.withObserver observable plant.alphabet dead = ⟨o, a.deleteStates dead⟩ := by
  obtain ⟨plantState, hreaches⟩ := h.exists_reaches
  have hsub : g.alphabet ⊆ plant.alphabet := fun _ hev => halphabet ▸ hev
  have ho := observes_inverseProject observable plant.alphabet hg hsub hfits.beliefs
  have hevents := alphabet_inverseProject hg hsub hfits.beliefs
  obtain ⟨belief, value, hproduct⟩ := exists_observerProduct hg Iff.rfl ho hfits.pairs
  exact ⟨_, _, _, _, hproduct.mirrors hdet hwf hplant hreaches,
    (hproduct.alphabet_eq (hevents.trans halphabet.symm)).trans halphabet,
    Nat.lt_of_le_of_lt hproduct.size_le hfits.pairs, fun _ => rfl⟩

/-- **The supremal prefix-normal part**: whatever states of the product with the observer are
deleted, the words of the normal part are the largest prefix-normal set of words of what is left, it
passes the test for normality, and the passes that lead to it end. -/
theorem normalPart_isGreatest (hwf : plant.WellFormed) (hplant : plant.IsDeterministic)
    (hg : g.WellFormed) (hdet : g.IsDeterministic) (halphabet : g.alphabet = plant.alphabet)
    (hwithin : g.StaysWithin plant) (hfits : g.ObserverFits observable plant.alphabet)
    (dead : StateSet) :
    IsGreatest {K | PrefixNormal plant observable K ∧
        K ⊆ (g.withObserver observable plant.alphabet dead).cand.words}
      (normalPart plant observable (g.withObserver observable plant.alphabet dead)).cand.words ∧
    isNormal plant observable
      (normalPart plant observable (g.withObserver observable plant.alphabet dead)).cand = true ∧
    ∀ start, plant.initialState? = some start →
      ∃ n ≤ transitionCount (g.withObserver observable plant.alphabet dead) + 1, ∃ last,
      Passes plant observable start n (g.withObserver observable plant.alphabet dead) last ∧
      normalPart plant observable (g.withObserver observable plant.alphabet dead) =
        { last with cand := last.cand.accessible } := by
  obtain ⟨plantState, cls, o, a, h, hevents, hsize, heq⟩ :=
    hwithin.exists_mirrors hg hdet hwf hplant halphabet hfits
  have hpart := h.wellFormed.isPart_deleteStates dead
  have hd : Reduct ⟨o, a.deleteStates dead⟩ ⟨o, a⟩ := .deleteStates h.wellFormed dead
  obtain ⟨hr, hconforms⟩ := h.conforms_normalPart hd
  rw [heq]
  refine ⟨h.isGreatest_normalPart hd (h.noticed.of_isPart hpart),
    h.isNormal hr (h.normalWithin hr hconforms) hevents hsize, fun start hstart => ?_⟩
  obtain ⟨n, hn, hpasses⟩ := run_passes plant observable start ⟨o, a.deleteStates dead⟩
  refine ⟨n, hn, _, hpasses, ?_⟩
  rw [normalPart, hstart]

/-- If failures are not seen, and the machine must not stay as it is after one, it must not be
started. -/
theorem normalPart_unseenFailures_isGreatest :
    repairedMachine.alphabet = machine.alphabet ∧
    repairedMachine.ObserverFits (.ofList [⟨1⟩, ⟨2⟩, ⟨4⟩]) machine.alphabet ∧
    IsGreatest {K | PrefixNormal machine (.ofList [⟨1⟩, ⟨2⟩, ⟨4⟩]) K ∧ K ⊆ (repairedMachine.withObserver
        (.ofList [⟨1⟩, ⟨2⟩, ⟨4⟩]) machine.alphabet (.ofList [⟨3⟩])).cand.words}
      (normalPart machine (.ofList [⟨1⟩, ⟨2⟩, ⟨4⟩]) (repairedMachine.withObserver
        (.ofList [⟨1⟩, ⟨2⟩, ⟨4⟩]) machine.alphabet (.ofList [⟨3⟩]))).cand.words ∧
    (normalPart machine (.ofList [⟨1⟩, ⟨2⟩, ⟨4⟩]) (repairedMachine.withObserver
      (.ofList [⟨1⟩, ⟨2⟩, ⟨4⟩]) machine.alphabet (.ofList [⟨3⟩]))).cand.states = .ofList [⟨1⟩] := by
  have halphabet : repairedMachine.alphabet = machine.alphabet := by decide +kernel
  have hfits : repairedMachine.ObserverFits (.ofList [⟨1⟩, ⟨2⟩, ⟨4⟩]) machine.alphabet :=
    observerFits_of_size_le repairedMachine_wellFormed (fun _ hev => halphabet ▸ hev)
      (by decide +kernel : repairedMachine.size ≤ 3) (by decide)
  exact ⟨halphabet, hfits, (normalPart_isGreatest machine_wellFormed machine_isDeterministic
    repairedMachine_wellFormed repairedMachine_isDeterministic halphabet repairedMachine_staysWithin
    hfits (.ofList [⟨3⟩])).1, by decide +kernel⟩

end OmegaControl
