import OmegaControl.Proofs.Synthesis.Deletion
import OmegaControl.Proofs.Synthesis.Supremal

/-!
# The alphabet of a solution

A solution has the alphabet of the plant. The product starts with it and only adds
transitions on events of it, and all that happens afterwards is that states are
deleted.

Events that never occur in a solution stay in its alphabet. This matters where the
result is compared with the plant again, since the checks ask for equal alphabets.
-/

namespace OmegaControl

open ControlledProduct

variable {c : ControlProblem}

/-! ## The product

Inserting a transition also inserts its event, so it has to be seen that the event
was there before: the steps of the product are on events of the plant. -/

namespace ControlledProduct

/-- The product starts with the events of the plant. -/
theorem alphabet_blank (plant spec : Automaton) : (blank plant spec).alphabet = plant.alphabet := by
  obtain ⟨names, hnames⟩ := Automaton.copyEventNames_eq ((Automaton.new
    ("BuechiConProduct(" ++ plant.name ++ "," ++ spec.name ++ ")")).insertEvents plant.alphabet) plant
  rw [blank, hnames]
  refine IdentSet.ext fun ev => ?_
  exact IdentSet.mem_union.trans (or_iff_right IdentSet.not_mem_empty)

namespace Construction

/-- A state that is met brings no events along. -/
theorem alphabet_meet (spec : Automaton) (s : Construction) (p : ProductState) :
    (s.meet spec p).2.automaton.alphabet = s.automaton.alphabet := by
  rw [meet]
  split
  · rfl
  · dsimp only
    split <;> rfl

/-- Steps on events that are known bring none along, either. -/
theorem alphabet_insertSteps (spec : Automaton) (x : StateId) (s : Construction)
    (steps : List (EventId × ProductState))
    (hsteps : ∀ ev q, (ev, q) ∈ steps → ev ∈ s.automaton.alphabet) :
    (s.insertSteps spec x steps).automaton.alphabet = s.automaton.alphabet := by
  induction steps generalizing s with
  | nil => rfl
  | cons step steps ih =>
    obtain ⟨ev, q⟩ := step
    have hinsert : ((s.meet spec q).2.automaton.insertTransition
        ⟨x, ev, (s.meet spec q).1⟩).alphabet = s.automaton.alphabet := by
      have hmem : ev ∈ (s.meet spec q).2.automaton.alphabet := by
        rw [alphabet_meet]
        exact hsteps ev q List.mem_cons_self
      refine IdentSet.ext fun ev' => IdentSet.mem_insert.trans ?_
      rw [← alphabet_meet spec s q]
      exact or_iff_right_of_imp fun h => h ▸ hmem
    refine (ih _ fun ev q h => ?_).trans hinsert
    rw [hinsert]
    exact hsteps ev q (List.mem_cons_of_mem _ h)

/-- So nothing changes when a state is taken up, nor in the whole walk. -/
theorem alphabet_takeUp (hc : c.WellPosed) {s : Construction}
    (hs : s.automaton.alphabet = c.plant.alphabet) (p : ProductState) :
    (s.takeUp c p).automaton.alphabet = c.plant.alphabet := by
  refine takeUp_cases (P := (·.automaton.alphabet = c.plant.alphabet)) c s p hs (fun _ => hs) ?_
  intro x steps _ hsteps
  refine (alphabet_insertSteps _ _ _ _ fun ev q hstep => ?_).trans hs
  have hstep := (ControlProblem.mem_sharedSteps hc.deterministic).mp (hsteps _ hstep)
  rw [hs]
  exact hc.plant_wellFormed.event_mem ⟨p.plant, ev, q.plant⟩ hstep.plant_mem

end Construction

theorem alphabet_build (hc : c.WellPosed) (done : ℕ) {s : Construction}
    (hs : s.automaton.alphabet = c.plant.alphabet) :
    (build c done s).value.automaton.alphabet = c.plant.alphabet := by
  fun_induction build c done s with
  | case1 => exact hs
  | case2 done s p pending hpending ih =>
    rw [Watched.value_bind]
    exact ih (Construction.alphabet_takeUp (s := { s with pending }) hc hs p)

end ControlledProduct

namespace ControlProblem

/-- The product has the alphabet of the plant, also if it has no states. -/
theorem alphabet_controlledProduct (hc : c.WellPosed) :
    c.controlledProduct.value.automaton.alphabet = c.plant.alphabet := by
  have hblank := alphabet_blank c.plant c.spec
  rw [controlledProduct]
  split
  · exact hblank
  · rw [Watched.value_bind]
    exact (Automaton.alphabet_deleteStates ..).trans (alphabet_build hc 0 hblank)

/-! ## Deletions

Deleting states leaves the alphabet alone, however often it is done. -/

/-- To have a given alphabet is kept by deletions. -/
theorem keptByDeletion_alphabet (events : EventSet) : KeptByDeletion (·.alphabet = events) :=
  fun _ _ hg => (Automaton.alphabet_deleteStates ..).trans hg

/-- **A solution has the alphabet of the plant.** -/
theorem alphabet_supremalCandidate (hc : c.WellPosed) (hfits : c.Fits) (config : SynthesisConfig) :
    (c.supremalCandidate config).value.automaton.alphabet = c.plant.alphabet := by
  obtain ⟨label, hrep, -⟩ := controlledProduct_spec hc hfits
  have hwf := (refine_spec c.controlledProduct.value.plantMarking hc hrep
    c.controlledProduct.value.automaton.size).1.wellFormed
  obtain ⟨-, names, enabled, heq⟩ := c.automaton_supremalCandidate config hwf rfl
  rw [heq]
  exact (keptByDeletion_alphabet _).refine c (alphabet_controlledProduct hc) ..

/-- What a synthesis returns that nobody cancels, with its alphabet. -/
theorem exists_supremal_of_alphabet {σ : Type} {o : Observer σ} (ho : o.NeverCancels)
    (hc : c.WellPosed) (hcheck : c.check = .ok ()) (hfits : c.Fits) (config : SynthesisConfig) :
    ∃ res label plantMarking, (o.watchChecked (c.supremal config)).2 = .ok res ∧
      c.Supremal res label plantMarking ∧ res.alphabet = c.plant.alphabet := by
  obtain ⟨label, hg⟩ := supremal_supremalCandidate hc hfits config
  exact ⟨_, label, _, (Checked.watchChecked_eq_result ho _).trans (result_supremal hcheck config),
    hg.setName _, alphabet_supremalCandidate hc hfits config⟩

end ControlProblem

end OmegaControl
