import OmegaControl.Proofs.StateNames
import OmegaControl.Proofs.Synthesis.Deletion
import OmegaControl.Proofs.Synthesis.Supremal

/-!
# Names of the states of a solution

A state of a solution is named after the state of the product that it stands for,
and every state stands for one: so it is while the product is built
(`Construction.Numbered`), and deletions take none of it away. So in the end all
states have names, and the names are different whatever plant and specification call
their states (`stateNames_unique`).

States are named at the end, when the candidate is known, and not while the product
is built. So all that has to be followed through the synthesis is that there are no
names yet, that names are kept, and that every state has a number (`Nameable`).

None of this depends on how many numbers there are. If they run out, a state may
stand for several states of the product; it is named after each of them in turn, and
the last name stays.
-/

namespace OmegaControl

open ControlledProduct

variable {c : ControlProblem} {g g₀ : Automaton} {p q : ProductState} {x y : StateId}

/-! ## The product as it is built
 -/

namespace ControlledProduct.Construction

variable {s : Construction}

/-- Every state has a number, and there are no names yet. -/
structure Numbered (g₀ : Automaton) (s : Construction) : Prop where
  sameNames : s.automaton.SameNames g₀
  exists_number : ∀ x ∈ s.automaton.states, ∃ p : ProductState, s.composition[p]? = some x

/-- Adding a state gives it no name. -/
theorem sameNames_addState (spec g : Automaton) (p : ProductState) (y : StateId) :
    (addState spec g p y).SameNames g := by
  rw [addState]
  split <;> exact ⟨rfl, rfl⟩

/-- Meeting a state of the product gives it a number, unless it has one, and numbers
are never changed. -/
theorem Numbered.meet (hs : s.Numbered g₀) (spec : Automaton) (p : ProductState) :
    (s.meet spec p).2.Numbered g₀ ∧
      (s.meet spec p).2.composition[p]? = some (s.meet spec p).1 ∧
      ∀ (q : ProductState) (x : StateId), s.composition[q]? = some x →
        (s.meet spec p).2.composition[q]? = some x := by
  cases hp : s.composition[p]? with
  | some y =>
    rw [meet_eq_of_some hp]
    exact ⟨hs, hp, fun _ _ => id⟩
  | none =>
    rw [meet_eq_of_none hp]
    have hself : (s.composition.insert p s.automaton.freshState)[p]? = some s.automaton.freshState :=
      getElem?_insert_iff.mpr (.inl ⟨rfl, rfl⟩)
    refine ⟨⟨(sameNames_addState ..).trans hs.sameNames, fun x hx => ?_⟩, hself,
      fun _ _ => getElem?_insert_of_some hp⟩
    rcases mem_states_addState.mp hx with rfl | hx
    · exact ⟨p, hself⟩
    · obtain ⟨q, hq⟩ := hs.exists_number x hx
      exact ⟨q, getElem?_insert_of_some hp hq⟩

/-- Transitions are added between states with numbers. -/
theorem Numbered.insertSteps (hs : s.Numbered g₀) (hx : s.composition[q]? = some x)
    (spec : Automaton) (steps : List (EventId × ProductState)) :
    (s.insertSteps spec x steps).Numbered g₀ := by
  induction steps generalizing s with
  | nil => exact hs
  | cons step steps ih =>
    obtain ⟨ev, p⟩ := step
    obtain ⟨hmeet, hp, hkept⟩ := hs.meet spec p
    refine ih ⟨⟨hmeet.sameNames.stateNames, hmeet.sameNames.enabled⟩, fun z hz => ?_⟩ (hkept q x hx)
    -- the transition runs between states with numbers
    rcases IdentSet.mem_insert.mp hz with rfl | hz
    · exact ⟨p, hp⟩
    · rcases IdentSet.mem_insert.mp hz with rfl | hz
      · exact ⟨q, hkept q _ hx⟩
      · exact hmeet.exists_number z hz

/-- Taking up a state adds the transitions to what can be reached from it. -/
theorem Numbered.takeUp (hs : s.Numbered g₀) (c : ControlProblem) (p : ProductState) :
    (s.takeUp c p).Numbered g₀ :=
  takeUp_cases c s p hs (fun _ => ⟨hs.sameNames, hs.exists_number⟩)
    fun _ steps hx _ => hs.insertSteps hx c.spec steps

end ControlledProduct.Construction

/-- No two states have the same name, names are kept, and every state has a number.
Then every state can be given a name, and each name that is given differs from those
before. -/
structure Nameable (composition : ProductComposition) (g : Automaton) : Prop where
  distinct : g.HasDistinctNames
  enabled : g.stateNamesEnabled = true
  exists_number : ∀ x ∈ g.states, ∃ p : ProductState, composition[p]? = some x

/-- No state is renamed when others are deleted. -/
theorem stateNames_deleteStates {dead : StateSet} {n : String}
    (hx : (g.deleteStates dead).stateName? x = some n) : g.stateName? x = some n := by
  rw [Automaton.deleteStates] at hx
  split at hx
  next => exact hx
  next =>
    rw [Automaton.stateName?, Std.ExtTreeMap.getElem?_filter', Option.filter_eq_some_iff] at hx
    exact hx.1

/-- Names are kept as before. -/
theorem enabled_deleteStates (g : Automaton) (dead : StateSet) :
    (g.deleteStates dead).stateNamesEnabled = g.stateNamesEnabled := by
  rw [Automaton.deleteStates]
  split <;> rfl

/-- Deletions leave states that can be named. -/
theorem keptByDeletion_nameable (composition : ProductComposition) :
    KeptByDeletion (Nameable composition) := by
  intro g dead hg
  refine ⟨fun x y n hx hy => ?_, (enabled_deleteStates g dead).trans hg.enabled, fun x hx => ?_⟩
  · exact hg.distinct x y n (stateNames_deleteStates hx) (stateNames_deleteStates hy)
  · exact hg.exists_number x (Automaton.mem_states_deleteStates.mp hx).1

namespace ControlProblem

/-- The product starts without names, and will keep names. -/
theorem sameNames_blank (plant spec : Automaton) :
    (blank plant spec).stateNames = ∅ ∧ (blank plant spec).stateNamesEnabled = true := by
  obtain ⟨names, hnames⟩ := Automaton.copyEventNames_eq ((Automaton.new
    ("BuechiConProduct(" ++ plant.name ++ "," ++ spec.name ++ ")")).insertEvents plant.alphabet) plant
  rw [blank, hnames]
  exact ⟨rfl, rfl⟩

/-- The states of the product can be named. Each of them is recorded with the state
of the product it stands for, during the walk as well as after critical states are
deleted. -/
theorem nameable_controlledProduct (c : ControlProblem) :
    Nameable c.controlledProduct.value.composition c.controlledProduct.value.automaton := by
  obtain ⟨hnames, henabled⟩ := sameNames_blank c.plant c.spec
  rw [controlledProduct]
  split
  next =>
    refine ⟨Automaton.hasDistinctNames_of_eq_empty hnames, henabled, fun x hx => ?_⟩
    exact absurd hx not_mem_states_blank
  next start _ =>
    rw [Watched.value_bind]
    -- before the first pair is taken up, only the initial state is there, and it
    -- has its number
    have hstart : Construction.Numbered (blank c.plant c.spec)
        ⟨(blank c.plant c.spec).insertInitialState.2, (∅ : ProductComposition).insert
          ⟨start.left, start.right, true⟩ (blank c.plant c.spec).insertInitialState.1, ∅,
          [⟨start.left, start.right, true⟩]⟩ := by
      refine ⟨⟨rfl, rfl⟩, fun x hx => ?_⟩
      rcases IdentSet.mem_insert.mp hx with rfl | hx
      · exact ⟨_, getElem?_insert_iff.mpr (.inl ⟨rfl, rfl⟩)⟩
      · exact absurd hx not_mem_states_blank
    obtain ⟨hs, -⟩ := build_induction 0 (fun s p pending _ (hs : s.Numbered _) =>
      Construction.Numbered.takeUp (s := { s with pending }) ⟨hs.sameNames, hs.exists_number⟩ c p) hstart
    generalize (build c 0 _).value = s at hs
    have hnameable : Nameable s.composition s.automaton :=
      ⟨Automaton.hasDistinctNames_of_eq_empty (hs.sameNames.stateNames.trans hnames),
        hs.sameNames.enabled.trans henabled, hs.exists_number⟩
    -- deleting critical states leaves names alone, and the record keeps the states
    -- that are left
    obtain ⟨hdistinct, henabled, hnumber⟩ := keptByDeletion_nameable _ _ s.critical hnameable
    refine ⟨hdistinct, henabled, fun x hx => ?_⟩
    obtain ⟨p, hp⟩ := hnumber x hx
    exact ⟨p, getElem?_composition_ofConstruction.mpr ⟨hp, hx⟩⟩

/-! ## The result
 -/

/-- Whether a state is there does not change while states are named. -/
theorem nameStates_eq_foldl (c : ControlProblem) (composition : ProductComposition) (g : Automaton) :
    c.nameStates composition g = (composition.toList.filter (·.2 ∈ g.states)).foldl
      (fun g b => g.setStateName b.2 (g.uniqueStateName (c.stateNameOf b.1))) g := by
  rw [nameStates]
  generalize composition.toList = bs
  induction bs generalizing g with
  | nil => rfl
  | cons b bs ih =>
    rw [List.foldl_cons, List.filter_cons, ih]
    dsimp only
    split
    next hb =>
      rw [Automaton.states_setStateName, if_pos (decide_eq_true hb), List.foldl_cons]
    next hb => rw [if_neg (by simpa using hb)]

/-- **Names for the states of a candidate**: each gets one of its own. -/
theorem isNamed_nameStates (c : ControlProblem) {composition : ProductComposition}
    (hg : Nameable composition g) : (c.nameStates composition g).IsNamed := by
  have hf : Automaton.Names
      (fun g (b : ProductState × StateId) => g.setStateName b.2 (g.uniqueStateName (c.stateNameOf b.1)))
      (·.2) fun _ => True :=
    ⟨fun _ _ => Automaton.enabled_setStateName .., fun _ _ _ => ⟨_, rfl⟩,
      fun _ _ hnot => absurd trivial hnot⟩
  rw [nameStates_eq_foldl]
  obtain ⟨hdistinct, hnamed⟩ := hf.foldl hg.distinct (composition.toList.filter (·.2 ∈ g.states))
  refine ⟨hdistinct, fun x hx => (hnamed x).mpr (.inr ⟨hg.enabled, ?_⟩)⟩
  have hx : x ∈ g.states := by
    rwa [← List.foldlRecOn (motive := fun (h : Automaton) => h.states = g.states) _ _ rfl
      fun h hh b _ => (Automaton.states_setStateName ..).trans hh]
  obtain ⟨p, hp⟩ := hg.exists_number x hx
  refine ⟨(p, x), List.mem_filter.mpr ⟨?_, decide_eq_true hx⟩, rfl, trivial⟩
  exact Std.ExtTreeMap.mem_toList_iff_getElem?_eq_some.mpr hp

/-- So it is for the candidate of a synthesis that is asked for names. -/
theorem isNamed_supremalCandidate {config : SynthesisConfig} (hconfig : config.stateNames = true)
    (hplant : c.plant.stateNamesEnabled = true) (hspec : c.spec.stateNamesEnabled = true) :
    (c.supremalCandidate config).value.automaton.IsNamed := by
  have hg := (keptByDeletion_nameable _).refine c c.nameable_controlledProduct
    c.controlledProduct.value.plantMarking c.controlledProduct.value.automaton.size
  rw [supremalCandidate, Watched.value_bind, Watched.value_bind, hconfig, hplant, hspec, hg.enabled]
  exact c.isNamed_nameStates hg

/-- What is returned is the candidate, under a name of its own. -/
theorem isNamed_of_result {config : SynthesisConfig} {res : Automaton}
    (hconfig : config.stateNames = true) (hplant : c.plant.stateNamesEnabled = true)
    (hspec : c.spec.stateNamesEnabled = true) (hres : Checked.result (c.supremal config) = .ok res) :
    res.IsNamed := by
  have hcheck : c.check = .ok () := by
    rw [supremal, Checked.result_bind, Checked.result_liftExcept] at hres
    cases hcheck : c.check with
    | ok => rfl
    | error e =>
      rw [hcheck] at hres
      cases hres
  rw [result_supremal hcheck] at hres
  obtain rfl := Except.ok.inj hres
  obtain ⟨hdistinct, hnamed⟩ := isNamed_supremalCandidate hconfig hplant hspec
  exact ⟨hdistinct, hnamed⟩

/-- **Generated names are unique.** Whatever plant and specification call their states, every state
of a solution has a name of its own; a solution is returned if the arguments pass the check and
nobody cancels. The states of a product have different names, and one of them has a name if both
sides keep names and both components of a pair that it stands for have one; as long as numbers last
there is one such pair. A name that is taken gives way to its first variant that is free, and there is
one. -/
theorem stateNames_unique :
    (∀ (c : ControlProblem) (config : SynthesisConfig), config.stateNames = true →
      c.plant.stateNamesEnabled = true → c.spec.stateNamesEnabled = true →
      ∀ {σ : Type} (o : Observer σ),
        (∀ res, (o.watchChecked (c.supremal config)).2 = .ok res → res.IsNamed) ∧
        (o.NeverCancels → c.check = .ok () →
          ∃ res, (o.watchChecked (c.supremal config)).2 = .ok res)) ∧
    (∀ g₁ g₂ : Automaton, (g₁.product g₂).1.HasDistinctNames ∧
      (∀ x, ((g₁.product g₂).1.stateName? x).isSome = true ↔
        g₁.stateNamesEnabled = true ∧ g₂.stateNamesEnabled = true ∧
          ∃ p : StatePair, (g₁.product g₂).2[p]? = some x ∧
            (g₁.stateName? p.left).isSome = true ∧ (g₂.stateName? p.right).isSome = true) ∧
      ((g₁.jointPairs g₂).length < UInt32.size → ∀ (p : StatePair) (x : StateId),
        (g₁.product g₂).2[p]? = some x → (((g₁.product g₂).1.stateName? x).isSome = true ↔
          g₁.stateNamesEnabled = true ∧ g₂.stateNamesEnabled = true ∧
            (g₁.stateName? p.left).isSome = true ∧ (g₂.stateName? p.right).isSome = true))) ∧
    (∀ (g : Automaton) (name : String),
      (∀ x, g.stateName? x ≠ some (g.uniqueStateName name)) ∧
      ((∀ x, g.stateName? x ≠ some name) → g.uniqueStateName name = name) ∧
      ((∃ x, g.stateName? x = some name) → ∃ i, 1 ≤ i ∧
        g.uniqueStateName name = Automaton.variant name (.ofNat i) ∧
          ∀ j, 1 ≤ j → j < i → ∃ x, g.stateName? x = some (Automaton.variant name (.ofNat j)))) := by
  refine ⟨fun c config hconfig hplant hspec _ o => ⟨fun res hres => ?_, fun ho hcheck => ?_⟩,
    fun g₁ g₂ => ?_, fun g name => g.uniqueStateName_spec name⟩
  · exact isNamed_of_result hconfig hplant hspec (Checked.result_eq_of_watchChecked hres)
  · exact ⟨_, (Checked.watchChecked_eq_result ho _).trans (result_supremal hcheck config)⟩
  · obtain ⟨hdistinct, hnamed⟩ := Automaton.names_product g₁ g₂
    refine ⟨hdistinct, hnamed, fun hsize p x hp => (hnamed x).trans ?_⟩
    refine and_congr_right fun _ => and_congr_right fun _ => ⟨?_, fun h => ⟨p, hp, h⟩⟩
    rintro ⟨q, hq, h⟩
    rwa [Automaton.eq_of_number_product hsize hp hq]

/-- The machine has two states whose names, joined with those of the specification, read the same. -/
def ambiguousProblem : ControlProblem :=
  { machineProblem with
    plant := (Automaton.machine.setStateName ⟨1⟩ "up|idle").setStateName ⟨2⟩ "up"
    spec := (Automaton.repairedMachine.setStateName ⟨1⟩ "ready").setStateName ⟨2⟩ "idle|ready" }

/-- Both of them get a name. -/
theorem stateNames_unique_ambiguous :
    ∃ res, (Observer.patient.watchChecked (ambiguousProblem.supremal {})).2 = .ok res ∧
      res.IsNamed := by
  have hcheck : ambiguousProblem.check = .ok () := check_eq_ok_iff.mpr
    ⟨by decide +kernel, by decide +kernel, by decide +kernel, by decide +kernel⟩
  have hconfig : ({} : SynthesisConfig).stateNames = true := rfl
  have hplant : ambiguousProblem.plant.stateNamesEnabled = true := by decide +kernel
  have hspec : ambiguousProblem.spec.stateNamesEnabled = true := by decide +kernel
  obtain ⟨hnamed, hresult⟩ := stateNames_unique.1 ambiguousProblem {} hconfig hplant hspec
    Observer.patient
  obtain ⟨res, hres⟩ := hresult Observer.neverCancels_patient hcheck
  exact ⟨res, hres, hnamed res hres⟩

end ControlProblem

end OmegaControl
