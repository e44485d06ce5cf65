import OmegaControl.Proofs.Synthesis.ControlledProduct

/-!
# What survives in the product

Which states of the product survive depends on the order in which they are taken up:
a state that leads to a violation is only deleted if this is known when its turn
comes. What holds in any order is said by `PrunedProduct`. No state survives that is
a violation itself, every state survives that can be reached without passing one
that leads to a violation, and what survives is reached, with all steps of the
product in between (`controlledProduct_prunes`).

Along an infinite run of what survives, marked states are visited infinitely often
if and only if the markings of both components are (`controlledProduct_marks_both`).

Here the product is described from the outside, by the numbers that are returned
along with it, and without a word about the walk. Both results ask for deterministic
components and for enough numbers; the alphabets may differ.
-/

namespace OmegaControl

namespace ControlProblem

open ControlledProduct

variable {c : ControlProblem} {p q : ProductState} {ev : EventId}

/-! ## Violations

These are notions of the product alone, and none of the construction. -/

/-- The plant goes on with an uncontrollable event, and the specification does not. -/
def Violates (c : ControlProblem) (p : ProductState) : Prop :=
  ∃ ev ∉ c.controllable, (∃ x, ⟨p.plant, ev, x⟩ ∈ c.plant.transitions) ∧
    ∀ y, ⟨p.spec, ev, y⟩ ∉ c.spec.transitions

/-- Uncontrollable events, if any, lead to a violation. Nobody can prevent it then. -/
def LeadsToViolation (c : ControlProblem) (p : ProductState) : Prop :=
  ∃ s q, (∀ ev ∈ s, ev ∉ c.controllable) ∧ c.Leads p s q ∧ c.Violates q

/-- The state can be reached from the start by a run none of whose states leads to a
violation. -/
inductive SafelyReachable (c : ControlProblem) : ProductState → Prop
  | start {p : ProductState} (hp : c.IsStart p) (hsafe : ¬c.LeadsToViolation p) : c.SafelyReachable p
  | step {p q : ProductState} {ev : EventId} (hp : c.SafelyReachable p) (hstep : c.Step p ev q)
      (hsafe : ¬c.LeadsToViolation q) : c.SafelyReachable q

/-- An uncontrollable event that is refused is a violation. -/
theorem violates_of_mem_refusedEvents (hc : c.Deterministic) (hev : ev ∉ c.controllable)
    (h : ev ∈ refusedEvents c p) : c.Violates p := ⟨ev, hev, (mem_refusedEvents hc).mp h⟩

/-- What is forced out leads to a violation, by the events that force it out. -/
theorem Forced.leadsToViolation (hc : c.Deterministic) (h : c.Forced p) : c.LeadsToViolation p := by
  induction h with
  | @refused p ev hev hrefused =>
    exact ⟨[], p, fun _ h => absurd h List.not_mem_nil, rfl,
      violates_of_mem_refusedEvents hc hev hrefused⟩
  | @step p q ev hev hstep _ ih =>
    obtain ⟨s, r, hs, hr, hviolates⟩ := ih
    exact ⟨ev :: s, r, List.forall_mem_cons.mpr ⟨hev, hs⟩, ⟨q, hstep, hr⟩, hviolates⟩

end ControlProblem

open ControlProblem

/-! ## What survives

One structure holds all parts of the statement, and each part is shown from the
invariant of the walk. -/

/-- The states of the result stand, one for one, for the states of the product that survive. These
can be reached in the product, none is a violation, and all are among them that can be reached
safely. The result has all steps between them and no others, each of its states is reached in it,
and its markings are those of the product and of the plant. -/
structure PrunedProduct (c : ControlProblem) (res : ControlledProduct) : Prop where
  /-- every state stands for a state of the product -/
  mem_states : ∀ x, x ∈ res.automaton.states ↔ ∃ p : ProductState, res.composition[p]? = some x
  /-- and for one only -/
  injective : ∀ {p q : ProductState} {x : StateId},
    res.composition[p]? = some x → res.composition[q]? = some x → p = q
  /-- which can be reached -/
  reachable : ∀ p ∈ res.composition, c.Reachable p
  /-- and is no violation -/
  not_violates : ∀ p ∈ res.composition, ¬c.Violates p
  /-- what can be reached safely survives -/
  survives : ∀ p, c.SafelyReachable p → p ∈ res.composition
  /-- the start is initial if it survives -/
  mem_initial : ∀ x, x ∈ res.automaton.initial ↔
    ∃ p : ProductState, res.composition[p]? = some x ∧ c.IsStart p
  /-- all steps in between, and no others -/
  mem_transitions : ∀ x ev y, ⟨x, ev, y⟩ ∈ res.automaton.transitions ↔ ∃ p q : ProductState,
    res.composition[p]? = some x ∧ res.composition[q]? = some y ∧ c.Step p ev q
  /-- the marking of the product -/
  mem_marked : ∀ x, x ∈ res.automaton.marked ↔ ∃ p : ProductState,
    res.composition[p]? = some x ∧ ControlledProduct.isMarked c.spec p = true
  /-- each state is reached -/
  allReached : res.automaton.AllReached
  /-- the marking of the plant -/
  mem_plantMarking : ∀ x, x ∈ res.plantMarking ↔ ∃ p : ProductState,
    res.composition[p]? = some x ∧ p.plant ∈ c.plant.marked

namespace ControlledProduct.Construction.Finished

variable {c : ControlProblem} {s : Construction} {p : ProductState} {x : StateId}

/-- A state that can be reached safely is met, and not critical. The induction is
along the safe run. -/
theorem met_of_safelyReachable (hs : s.Finished c) (hc : c.Deterministic)
    (hp : c.SafelyReachable p) : ∃ x, s.composition[p]? = some x ∧ x ∉ s.critical := by
  have hcritical : ∀ {p x}, ¬c.LeadsToViolation p → s.composition[p]? = some x → x ∉ s.critical := by
    intro p x hsafe hx hmem
    obtain ⟨q, hq, hforced⟩ := hs.sound.forced_of_critical x hmem
    exact hsafe (hs.sound.injective hx hq ▸ hforced.leadsToViolation hc)
  induction hp with
  | start hp hsafe =>
    obtain ⟨x, hx⟩ := hs.sound.start_met _ hp
    exact ⟨x, hx, hcritical hsafe hx⟩
  | step _ hstep hsafe ih =>
    -- the state before it was followed, so this one is met, too
    obtain ⟨x, hx, hnot⟩ := ih
    obtain ⟨-, y, -, hy, -⟩ := (hs.followed _ x hx).resolve_left hnot _ _ hstep
    exact ⟨y, hy, hcritical hsafe hy⟩

/-- The numbers of the states that survive are those that they had. -/
theorem getElem?_eq_some_iff (hs : s.Finished c) :
    (ofConstruction c.plant s).composition[p]? = some x ↔
      s.composition[p]? = some x ∧ x ∉ s.critical := by
  rw [getElem?_composition_ofConstruction]
  refine and_congr_right fun hx => Automaton.mem_states_deleteStates.trans (and_iff_right ?_)
  exact (hs.sound.mem_states x).mpr ⟨p, hx⟩

/-- **Deleting the critical states** leaves the product that is pruned. What is left
has been followed, so of its steps only those into critical states are missing. -/
theorem prunedProduct (hs : s.Finished c) (hc : c.Deterministic) :
    PrunedProduct c (ofConstruction c.plant s) := by
  have hwf := hs.sound.wellFormed
  have hmem : ∀ p, p ∈ (ofConstruction c.plant s).composition →
      ∃ x, s.composition[p]? = some x ∧ x ∉ s.critical := by
    intro p hp
    obtain ⟨x, hx⟩ := Option.isSome_iff_exists.mp (Std.ExtTreeMap.mem_iff_isSome_getElem?.mp hp)
    exact ⟨x, hs.getElem?_eq_some_iff.mp hx⟩
  -- deletion leaves the states that are not critical, so each part is read off the
  -- finished construction
  refine ⟨fun x => ?_, fun hp hq => ?_, fun p hp => ?_, fun p hp hviolates => ?_, fun p hp => ?_,
    fun x => ?_, fun x ev y => ?_, fun x => ?_, ?_, fun x => mem_plantMarking_ofConstruction⟩
  · simp only [hs.getElem?_eq_some_iff, exists_and_right]
    exact Automaton.mem_states_deleteStates.trans (and_congr_left' (hs.sound.mem_states x))
  · exact hs.sound.injective (hs.getElem?_eq_some_iff.mp hp).1 (hs.getElem?_eq_some_iff.mp hq).1
  · obtain ⟨x, hx, -⟩ := hmem p hp
    exact hs.sound.reachable p (Std.ExtTreeMap.mem_iff_isSome_getElem?.mpr (hx ▸ rfl))
  · obtain ⟨x, hx, hnot⟩ := hmem p hp
    obtain ⟨ev, hev, hrefused⟩ := hviolates
    exact hev ((hs.complies p x hx).resolve_left hnot ev ((mem_refusedEvents hc).mpr hrefused))
  · obtain ⟨x, hx⟩ := hs.met_of_safelyReachable hc hp
    exact Std.ExtTreeMap.mem_iff_isSome_getElem?.mpr (hs.getElem?_eq_some_iff.mpr hx ▸ rfl)
  · refine (Automaton.mem_initial_deleteStates hwf).trans ?_
    simp only [hs.sound.mem_initial, hs.getElem?_eq_some_iff]
    exact ⟨fun ⟨⟨p, hp, hstart⟩, hx⟩ => ⟨p, ⟨hp, hx⟩, hstart⟩,
      fun ⟨p, ⟨hp, hx⟩, hstart⟩ => ⟨⟨p, hp, hstart⟩, hx⟩⟩
  · refine (Automaton.mem_transitions_deleteStates hwf).trans ?_
    simp only [hs.getElem?_eq_some_iff]
    constructor
    · rintro ⟨ht, hx, hy⟩
      obtain ⟨p, q, hp, hq, hstep⟩ := hs.sound.step_of_mem _ ht
      exact ⟨p, q, ⟨hp, hx⟩, ⟨hq, hy⟩, hstep⟩
    · rintro ⟨p, q, ⟨hp, hx⟩, ⟨hq, hy⟩, hstep⟩
      refine ⟨?_, hx, hy⟩
      -- the step was followed when its source was taken up, since the source is not
      -- critical
      obtain ⟨x', y', hx', hy', hlast⟩ := (hs.followed p x hp).resolve_left hx ev q hstep
      obtain rfl := Option.some.inj (hp.symm.trans hx')
      obtain rfl := Option.some.inj (hq.symm.trans hy')
      exact hlast.resolve_left hy
  · refine (Automaton.mem_marked_deleteStates hwf).trans ?_
    simp only [hs.sound.mem_marked, hs.getElem?_eq_some_iff]
    exact ⟨fun ⟨⟨p, hp, hmarked⟩, hx⟩ => ⟨p, ⟨hp, hx⟩, hmarked⟩,
      fun ⟨p, ⟨hp, hx⟩, hmarked⟩ => ⟨⟨p, hp, hmarked⟩, hx⟩⟩
  · exact hs.allReached.deleteStates hwf fun t ht _ => hs.critical_not_left t ht

end ControlledProduct.Construction.Finished

namespace ControlProblem

open ControlledProduct

variable {c : ControlProblem}

/-- Without a start, nothing is reachable, and the product without states is what it
should be: there is no state to compare and no step to be missed. -/
theorem prunedProduct_blank (hnone : ∀ p, ¬c.IsStart p) :
    PrunedProduct c ⟨blank c.plant c.spec, ∅, ∅⟩ := by
  have hstart : ∀ p, ¬c.SafelyReachable p := by
    intro p hp
    induction hp with
    | start hp => exact hnone _ hp
    | step _ _ _ ih => exact ih
  have hout : ∀ {p : ProductState} {x : StateId}, (∅ : ProductComposition)[p]? ≠ some x := by
    intro p x hx
    rw [Std.ExtTreeMap.getElem?_empty] at hx
    cases hx
  have hempty : ∀ {x : StateId}, x ∉ (∅ : StateSet) := IdentSet.not_mem_empty
  obtain ⟨name, alphabet, names, hblank⟩ := blank_eq c.plant c.spec
  rw [hblank]
  refine ⟨fun x => ?_, fun hp => absurd hp hout, fun p hp => absurd hp Std.ExtTreeMap.not_mem_empty,
    fun p hp => absurd hp Std.ExtTreeMap.not_mem_empty, fun p hp => absurd hp (hstart p), fun x => ?_,
    fun x ev y => ?_, fun x => ?_, fun x hx => absurd hx hempty, fun x => ?_⟩
  · exact ⟨fun hx => absurd hx hempty, fun ⟨p, hp⟩ => absurd hp hout⟩
  · exact ⟨fun hx => absurd hx hempty, fun ⟨p, hp, _⟩ => absurd hp hout⟩
  · exact ⟨fun ht => absurd ht Std.ExtTreeSet.not_mem_empty, fun ⟨p, _, hp, _⟩ => absurd hp hout⟩
  · exact ⟨fun hx => absurd hx hempty, fun ⟨p, hp, _⟩ => absurd hp hout⟩
  · exact ⟨fun hx => absurd hx hempty, fun ⟨p, hp, _⟩ => absurd hp hout⟩

theorem prunedProduct_controlledProduct (hc : c.Deterministic) (hfits : c.Fits) :
    PrunedProduct c c.controlledProduct.value := by
  rcases controlledProduct_cases hc hfits with ⟨hvalue, hnone⟩ | ⟨s, hvalue, hs⟩
  · exact hvalue ▸ prunedProduct_blank hnone
  · exact hvalue ▸ hs.prunedProduct hc

/-- **Pruning on the fly** loses nothing controllable and keeps no direct violation:
a construction that nobody cancels returns the product without some states that lead
to a violation. -/
theorem controlledProduct_prunes {σ : Type} {o : Observer σ} (ho : o.NeverCancels)
    (hc : c.Deterministic) (hfits : c.Fits) :
    ∃ res, (o.watch c.controlledProduct).2 = .ok res ∧ PrunedProduct c res :=
  ⟨_, Observer.watch_eq_value ho _, prunedProduct_controlledProduct hc hfits⟩

/-- If the machine can be kept from failing, but not from being started again after a failure, no
state survives in which it has failed. -/
theorem controlledProduct_prunes_failures :
    Observer.patient.NeverCancels ∧
      (⟨.machine, .ofList [⟨3⟩, ⟨4⟩], .repairedMachine⟩ : ControlProblem).Deterministic ∧
      (⟨.machine, .ofList [⟨3⟩, ⟨4⟩], .repairedMachine⟩ : ControlProblem).Fits ∧
      ∃ res, (Observer.patient.watch (⟨.machine, .ofList [⟨3⟩, ⟨4⟩], .repairedMachine⟩ :
          ControlProblem).controlledProduct).2 = .ok res ∧
        PrunedProduct ⟨.machine, .ofList [⟨3⟩, ⟨4⟩], .repairedMachine⟩ res ∧
        ∀ owed, (⟨⟨3⟩, ⟨3⟩, owed⟩ : ProductState) ∉ res.composition := by
  have hc : (⟨.machine, .ofList [⟨3⟩, ⟨4⟩], .repairedMachine⟩ : ControlProblem).Deterministic :=
    ⟨Automaton.machine_isDeterministic, Automaton.repairedMachine_isDeterministic⟩
  have hfits : (⟨.machine, .ofList [⟨3⟩, ⟨4⟩], .repairedMachine⟩ : ControlProblem).Fits :=
    fits_of_size_lt Automaton.machine_wellFormed Automaton.repairedMachine_wellFormed
      (by decide +kernel)
  obtain ⟨res, hok, h⟩ := controlledProduct_prunes Observer.neverCancels_patient hc hfits
  refine ⟨Observer.neverCancels_patient, hc, hfits, res, hok, h, fun owed hmem => ?_⟩
  have hplant : (⟨⟨3⟩, ⟨1⟩, ⟨2⟩⟩ : Transition) ∈ Automaton.machine.transitions := by decide +kernel
  have hnone : ∀ t ∈ Automaton.repairedMachine.transitions.toList,
      ¬(t.source = ⟨3⟩ ∧ t.event = ⟨1⟩) := by decide +kernel
  refine h.not_violates _ hmem ⟨⟨1⟩, by decide +kernel, ⟨⟨2⟩, hplant⟩, fun y hy => ?_⟩
  exact hnone _ (Std.ExtTreeSet.mem_toList.mpr hy) ⟨rfl, rfl⟩

end ControlProblem

/-! ## Infinite runs of what survives

The states on a path are looked up among the numbers, which makes it a run of the
product. -/

namespace PrunedProduct

variable {c : ControlProblem} {res : ControlledProduct} {w : ℕ → EventId} {xs : ℕ → StateId}
  {ps : ℕ → ProductState} (h : PrunedProduct c res)
include h

/-- The states on an infinite path stand for states of the product. -/
theorem exists_composition (hr : res.automaton.Reads w xs) :
    ∃ ps : ℕ → ProductState, ∀ n, res.composition[ps n]? = some (xs n) := by
  have hall : ∀ n, ∃ p : ProductState, res.composition[p]? = some (xs n) := by
    intro n
    obtain ⟨p, -, hp, -⟩ := (h.mem_transitions _ _ _).mp (hr n)
    exact ⟨p, hp⟩
  choose ps hps using hall
  exact ⟨ps, hps⟩

/-- So they make up an infinite run of the product. -/
theorem reads (hr : res.automaton.Reads w xs) (hps : ∀ n, res.composition[ps n]? = some (xs n)) :
    c.Reads w ps := by
  intro n
  obtain ⟨p, q, hp, hq, hstep⟩ := (h.mem_transitions _ _ _).mp (hr n)
  rwa [h.injective hp (hps n), h.injective hq (hps (n + 1))] at hstep

/-- A state on the path is marked if the state of the product is, for which it
stands. -/
theorem mem_marked_iff (hps : ∀ n, res.composition[ps n]? = some (xs n)) (n : ℕ) :
    xs n ∈ res.automaton.marked ↔ ControlledProduct.isMarked c.spec (ps n) = true := by
  rw [h.mem_marked]
  constructor
  · rintro ⟨p, hp, hmarked⟩
    rwa [h.injective hp (hps n)] at hmarked
  · exact fun hmarked => ⟨ps n, hps n, hmarked⟩

/-- One marking stands for two, as it does in the product. -/
theorem infinitelyOften_marked_iff (hr : res.automaton.Reads w xs)
    (hps : ∀ n, res.composition[ps n]? = some (xs n)) :
    (InfinitelyOften fun n => xs n ∈ res.automaton.marked) ↔
      (InfinitelyOften fun n => (ps n).plant ∈ c.plant.marked) ∧
        InfinitelyOften fun n => (ps n).spec ∈ c.spec.marked := by
  rw [← infinitelyOften_isMarked_iff (h.reads hr hps)]
  simp only [h.mem_marked_iff hps]

end PrunedProduct

namespace ControlProblem

variable {c : ControlProblem}

/-- **One marking recognises both**: an infinite path of the product visits marked states infinitely
often if and only if the states of the plant that it passes are marked infinitely often, and those of
the specification are, too. -/
theorem controlledProduct_marks_both {σ : Type} {o : Observer σ} (ho : o.NeverCancels)
    (hc : c.Deterministic) (hfits : c.Fits) :
    ∃ res, (o.watch c.controlledProduct).2 = .ok res ∧
      ∀ w xs, xs 0 ∈ res.automaton.initial → res.automaton.Reads w xs →
        ∃ ps : ℕ → ProductState, (∀ n, res.composition[ps n]? = some (xs n)) ∧
          (∀ ps' : ℕ → ProductState, (∀ n, res.composition[ps' n]? = some (xs n)) → ps' = ps) ∧
          ((InfinitelyOften fun n => xs n ∈ res.automaton.marked) ↔
            (InfinitelyOften fun n => (ps n).plant ∈ c.plant.marked) ∧
              InfinitelyOften fun n => (ps n).spec ∈ c.spec.marked) := by
  have h := prunedProduct_controlledProduct hc hfits
  refine ⟨_, Observer.watch_eq_value ho _, fun w xs _ hr => ?_⟩
  obtain ⟨ps, hps⟩ := h.exists_composition hr
  refine ⟨ps, hps, fun ps' hps' => ?_, h.infinitelyOften_marked_iff hr hps⟩
  exact funext fun n => h.injective (hps' n) (hps n)

/-- In the product of the machine and its specification, too. -/
theorem controlledProduct_marks_both_machine :
    Observer.patient.NeverCancels ∧ machineProblem.Deterministic ∧ machineProblem.Fits ∧
      ∃ res, (Observer.patient.watch machineProblem.controlledProduct).2 = .ok res ∧
        ∀ w xs, xs 0 ∈ res.automaton.initial → res.automaton.Reads w xs →
          ∃ ps : ℕ → ProductState, (∀ n, res.composition[ps n]? = some (xs n)) ∧
            ((InfinitelyOften fun n => xs n ∈ res.automaton.marked) ↔
              (InfinitelyOften fun n => (ps n).plant ∈ Automaton.machine.marked) ∧
                InfinitelyOften fun n => (ps n).spec ∈ Automaton.repairedMachine.marked) := by
  have hc : machineProblem.Deterministic :=
    ⟨Automaton.machine_isDeterministic, Automaton.repairedMachine_isDeterministic⟩
  obtain ⟨res, hok, hall⟩ :=
    controlledProduct_marks_both Observer.neverCancels_patient hc machineProblem_fits
  refine ⟨Observer.neverCancels_patient, hc, machineProblem_fits, res, hok, fun w xs hx hr => ?_⟩
  obtain ⟨ps, hps, -, hiff⟩ := hall w xs hx hr
  exact ⟨ps, hps, hiff⟩

end ControlProblem

end OmegaControl
