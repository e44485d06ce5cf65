import OmegaControl.Proofs.Synthesis.Alphabet
import OmegaControl.Proofs.Synthesis.ClosedLoop

/-!
# Solutions for other specifications

A solution stays a solution if the specification is exchanged, as long as the new
one accepts its words. So the supremal solution is an interior operator on
specifications: used as the specification itself, it is its own supremal solution,
and of two specifications, the one that accepts less of what the plant accepts has
the smaller one (`supremal_idempotent_and_monotone`).

As to solutions this takes a few lines, since the union of all solutions is the only
thing that is known of the result. More has to be said of the second synthesis
itself: that it does not fail, and that there are numbers for its product. The
product of the plant with a solution owes what the solution says is owed, so it has
no more states to number than the solution has (`Supremal.fits`).
-/

namespace OmegaControl.ControlProblem

/-! ## A solution as the specification
 -/

namespace Supremal

variable {c : ControlProblem} {label : StateId → ProductState} {plantMarking : StateSet}
  {res : Automaton} (hres : c.Supremal res label plantMarking)
include hres

/-- A run of plant and solution is, as to the plant and what is owed, that of the
solution. A state of the solution stands for one of the product it was made from,
and both products step alike. -/
theorem mirrored (hc : c.WellPosed) {p q : ProductState} {s : List EventId}
    (hs : (⟨c.plant, c.controllable, res⟩ : ControlProblem).Leads p s q)
    (hspec : p.spec ∈ res.states) (hplant : p.plant = (label p.spec).plant)
    (howed : p.plantOwed = (label p.spec).plantOwed) :
    q.spec ∈ res.states ∧ q = ⟨(label q.spec).plant, q.spec, (label q.spec).plantOwed⟩ := by
  induction s generalizing p with
  | nil =>
    obtain rfl := hs
    cases p
    simp_all
  | cons ev s ih =>
    obtain ⟨p', hstep, hs⟩ := hs
    obtain ⟨-, htarget, hlabel⟩ := (hres.represents.mem_transitions _).mp hstep.spec_mem
    refine ih hs htarget ?_ ?_
    · exact hc.plant_isDeterministic.hasUniqueSuccessors _ hstep.plant_mem _ hlabel.plant_mem
        hplant rfl |> congrArg Transition.target
    · -- both products have paid the same debts, so they owe the same next
      rw [hstep.owed_eq, hlabel.owed_eq, ControlledProduct.owedNext, ControlledProduct.owedNext,
        howed, hplant]
      cases hlast : (label p.spec).plantOwed with
      | true => rfl
      | false =>
        have hmarked : p.spec ∈ res.marked ↔ (label p.spec).spec ∈ c.spec.marked := by
          rw [hres.represents.mem_marked]
          simp [ControlledProduct.isMarked, hspec, hlast]
        exact decide_eq_decide.mpr hmarked

/-- There are numbers for the product of plant and solution: the states of the
product that are met are told apart by their state of the solution. -/
theorem fits (hc : c.WellPosed) (hfits : c.Fits) :
    (⟨c.plant, c.controllable, res⟩ : ControlProblem).Fits := by
  refine ⟨res.states.toList.map fun y => ⟨(label y).plant, y, (label y).plantOwed⟩, ?_, ?_⟩
  · rw [List.length_map, IdentSet.length_toList]
    exact hres.size_lt hfits
  · rintro q ⟨p, s, hp, hs⟩
    obtain ⟨hspec, hstart⟩ := (hres.represents.mem_initial _).mp hp.spec_mem
    have hplant := hc.plant_isDeterministic.initial_unique hp.plant_mem hstart.plant_mem
    obtain ⟨hmem, heq⟩ := hres.mirrored hc hs hspec hplant (hp.owed.trans hstart.owed.symm)
    exact List.mem_map.mpr ⟨q.spec, IdentSet.mem_toList.mpr hmem, heq.symm⟩

/-- With a solution for a specification the control problem makes sense. -/
theorem check_eq_ok (hc : c.WellPosed) (halphabet : res.alphabet = c.plant.alphabet) :
    (⟨c.plant, c.controllable, res⟩ : ControlProblem).check = .ok () :=
  check_eq_ok_iff.mpr ⟨halphabet.symm, hc.controllable_subset, hc.plant_isDeterministic,
    hres.represents.isDeterministic hc⟩

end Supremal

/-! ## Solutions and specifications
 -/

variable {plant spec spec' : Automaton} {controllable : EventSet} {E : Set (ℕ → EventId)}

/-- Only that the specification accepts a solution depends on the specification. -/
theorem IsSolution.of_subset (hE : (⟨plant, controllable, spec⟩ : ControlProblem).IsSolution E)
    (hsubset : E ⊆ spec'.acceptedWords) :
    (⟨plant, controllable, spec'⟩ : ControlProblem).IsSolution E :=
  ⟨hE.subset_plant, hsubset, hE.complies, hE.eq_closure⟩

/-- Nothing but solutions is a solution within the union of all solutions. The union
is within what the specification accepts, and each solution is within the union. -/
theorem isSolution_iff_of_acceptedWords_eq {res : Automaton}
    (hres : res.acceptedWords =
      ⋃₀ {E | (⟨plant, controllable, spec⟩ : ControlProblem).IsSolution E}) :
    (⟨plant, controllable, res⟩ : ControlProblem).IsSolution E ↔
      (⟨plant, controllable, spec⟩ : ControlProblem).IsSolution E := by
  constructor
  · intro hE
    refine hE.of_subset fun w hw => ?_
    obtain ⟨E', hE', hw⟩ : w ∈ Set.sUnion _ := hres ▸ hE.subset_spec hw
    exact hE'.subset_spec hw
  · exact fun hE => hE.of_subset (hres ▸ Set.subset_sUnion_of_mem hE)

/-- If a specification accepts less of what the plant accepts, its solutions are solutions. -/
theorem sUnion_isSolution_subset
    (hle : ∀ w ∈ plant.acceptedWords, w ∈ spec'.acceptedWords → w ∈ spec.acceptedWords) :
    ⋃₀ {E | (⟨plant, controllable, spec'⟩ : ControlProblem).IsSolution E} ⊆
      ⋃₀ {E | (⟨plant, controllable, spec⟩ : ControlProblem).IsSolution E} :=
  Set.sUnion_subset_sUnion fun _ hE =>
    hE.of_subset fun w hw => hle w (hE.subset_plant hw) (hE.subset_spec hw)

/-- **An interior operator**: the supremal solution for the supremal solution is the same, and
a specification that accepts less of what the plant accepts has a smaller one. -/
theorem supremal_idempotent_and_monotone {σ : Type} {o : Observer σ} (ho : o.NeverCancels)
    (hplant : plant.WellFormed) (hspec : spec.WellFormed)
    (hcheck : (⟨plant, controllable, spec⟩ : ControlProblem).check = .ok ())
    (hfits : (⟨plant, controllable, spec⟩ : ControlProblem).Fits) (config : SynthesisConfig) :
    ∃ res, (o.watchChecked (supremal ⟨plant, controllable, spec⟩ config)).2 = .ok res ∧
      (∃ again, (o.watchChecked (supremal ⟨plant, controllable, res⟩ config)).2 = .ok again ∧
        again.words = res.words ∧ again.acceptedWords = res.acceptedWords) ∧
      ∀ spec' : Automaton, spec'.WellFormed →
        (⟨plant, controllable, spec'⟩ : ControlProblem).check = .ok () →
        (⟨plant, controllable, spec'⟩ : ControlProblem).Fits →
        (∀ w ∈ plant.acceptedWords, w ∈ spec'.acceptedWords → w ∈ spec.acceptedWords) →
        ∃ res', (o.watchChecked (supremal ⟨plant, controllable, spec'⟩ config)).2 = .ok res' ∧
          res'.words ⊆ res.words ∧ res'.acceptedWords ⊆ res.acceptedWords := by
  have hc := WellPosed.of_check hplant hspec hcheck
  obtain ⟨res, label, plantMarking, hok, hres, halphabet⟩ :=
    exists_supremal_of_alphabet ho hc hcheck hfits config
  have haccepted := hres.acceptedWords_eq hc
  refine ⟨res, hok, ?_, fun spec' hspec' hcheck' hfits' hle => ?_⟩
  · -- the result is a specification of its own, and has the same solutions as
    -- `spec`
    have hcheck' := hres.check_eq_ok hc halphabet
    have hc' := WellPosed.of_check hplant hres.represents.wellFormed hcheck'
    obtain ⟨again, label', plantMarking', hok', hagain⟩ :=
      exists_supremal ho hc' hcheck' (hres.fits hc hfits) config
    have haccepted' := hagain.acceptedWords_eq hc'
    simp only [isSolution_iff_of_acceptedWords_eq haccepted] at haccepted'
    have hsame := haccepted'.trans haccepted.symm
    refine ⟨again, hok', ?_, hsame⟩
    rw [hagain.words_eq hc', hres.words_eq hc, hsame]
  · -- every solution for the narrower specification is one for the wider
    have hc' := WellPosed.of_check hplant hspec' hcheck'
    obtain ⟨res', label', plantMarking', hok', hres'⟩ :=
      exists_supremal ho hc' hcheck' hfits' config
    have hsubset : res'.acceptedWords ⊆ res.acceptedWords := by
      rw [hres'.acceptedWords_eq hc', haccepted]
      exact sUnion_isSolution_subset hle
    refine ⟨res', hok', ?_, hsubset⟩
    rw [hres'.words_eq hc', hres.words_eq hc]
    exact beginnings_mono hsubset

/-- For the machine the specification that asks for nothing more than the plant does has the
larger solution. -/
theorem supremal_idempotent_and_monotone_machine :
    Observer.patient.NeverCancels ∧ Automaton.machine.WellFormed ∧
      (⟨.machine, .ofList [⟨1⟩, ⟨4⟩], .machine⟩ : ControlProblem).check = .ok () ∧
      (⟨.machine, .ofList [⟨1⟩, ⟨4⟩], .machine⟩ : ControlProblem).Fits ∧
      ∃ res, (Observer.patient.watchChecked
          (supremal ⟨.machine, .ofList [⟨1⟩, ⟨4⟩], .machine⟩ {})).2 = .ok res ∧
        (∃ again, (Observer.patient.watchChecked
            (supremal ⟨.machine, .ofList [⟨1⟩, ⟨4⟩], res⟩ {})).2 = .ok again ∧
          again.words = res.words ∧ again.acceptedWords = res.acceptedWords) ∧
        ∃ res', (Observer.patient.watchChecked (supremal machineProblem {})).2 = .ok res' ∧
          res'.words ⊆ res.words ∧ res'.acceptedWords ⊆ res.acceptedWords := by
  have hcheck : (⟨.machine, .ofList [⟨1⟩, ⟨4⟩], .machine⟩ : ControlProblem).check = .ok () :=
    check_eq_ok_iff.mpr ⟨rfl, by decide +kernel, Automaton.machine_isDeterministic,
      Automaton.machine_isDeterministic⟩
  have hfits : (⟨.machine, .ofList [⟨1⟩, ⟨4⟩], .machine⟩ : ControlProblem).Fits :=
    fits_of_size_lt Automaton.machine_wellFormed Automaton.machine_wellFormed (by decide +kernel)
  obtain ⟨res, hok, hagain, hmonotone⟩ :=
    supremal_idempotent_and_monotone Observer.neverCancels_patient Automaton.machine_wellFormed
      Automaton.machine_wellFormed hcheck hfits {}
  exact ⟨Observer.neverCancels_patient, Automaton.machine_wellFormed, hcheck, hfits, res, hok,
    hagain, hmonotone .repairedMachine Automaton.repairedMachine_wellFormed machineProblem_check
      machineProblem_fits fun _ hw _ => hw⟩

end OmegaControl.ControlProblem
