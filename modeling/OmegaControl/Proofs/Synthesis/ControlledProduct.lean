import Mathlib.Data.List.Induction
import OmegaControl.Proofs.Synthesis.CriticalStates

/-!
# The product without its critical states

What is left of the product when the critical states are deleted represents a part
of it, and no state is lost that a run reaches without passing a state that is
forced out (`ControlProblem.controlledProduct_spec`).

Of the walk only two things are used: what it has built is sound, and each state
that it has met is critical or has been followed. Each state of the automaton is
given the state of the product it stands for as a label; as numbers are injective
there is just one.
-/

namespace OmegaControl.ControlProblem

open ControlledProduct

variable {c : ControlProblem} {s : Construction} {label : StateId → ProductState}

/-- States can be given the states of the product that they stand for. -/
theorem exists_label (hs : s.Sound c) :
    ∃ label : StateId → ProductState, ∀ p x, s.composition[p]? = some x → label x = p := by
  classical
  refine ⟨fun x => if h : ∃ p : ProductState, s.composition[p]? = some x then h.choose
    else ⟨x, x, true⟩, fun p x hx => ?_⟩
  have h : ∃ p : ProductState, s.composition[p]? = some x := ⟨p, hx⟩
  dsimp only
  rw [dif_pos h]
  exact hs.injective h.choose_spec hx

/-- The states that are not critical represent a part of the product. That all steps
between them are there is due to the walk, which has followed each of them; a step
that it has left out leads to a critical state, and that one is gone. -/
theorem represents_ofConstruction (hs : s.Sound c)
    (hdone : ∀ p x, s.composition[p]? = some x → x ∈ s.critical ∨ s.Followed c p)
    (hlabel : ∀ p x, s.composition[p]? = some x → label x = p) :
    c.Represents (s.automaton.deleteStates s.critical) label := by
  have hnumber : ∀ x ∈ s.automaton.states, s.composition[label x]? = some x := by
    intro x hx
    obtain ⟨p, hp⟩ := (hs.mem_states x).mp hx
    rwa [hlabel p x hp]
  have hstates : ∀ x, x ∈ (s.automaton.deleteStates s.critical).states →
      x ∈ s.automaton.states := fun x hx => (Automaton.mem_states_deleteStates.mp hx).1
  constructor
  · exact hs.wellFormed.deleteStates _
  · intro x hx y hy heq
    have hx' := hnumber x (hstates x hx)
    rw [heq, hnumber y (hstates y hy)] at hx'
    exact (Option.some.inj hx').symm
  · intro x
    rw [(hs.wellFormed.isPart_deleteStates _).mem_initial, hs.mem_initial, and_comm]
    refine and_congr_right fun hx => ⟨?_, fun h => ⟨_, hnumber x (hstates x hx), h⟩⟩
    rintro ⟨p, hp, hstart⟩
    exact hlabel p x hp ▸ hstart
  · intro x
    rw [(hs.wellFormed.isPart_deleteStates _).mem_marked, hs.mem_marked, and_comm]
    refine and_congr_right fun hx => ⟨?_, fun h => ⟨_, hnumber x (hstates x hx), h⟩⟩
    rintro ⟨p, hp, hmarked⟩
    exact hlabel p x hp ▸ hmarked
  · intro t
    rw [(hs.wellFormed.isPart_deleteStates _).mem_transitions]
    constructor
    · rintro ⟨ht, hsource, htarget⟩
      obtain ⟨p, q, hp, hq, hstep⟩ := hs.step_of_mem t ht
      exact ⟨hsource, htarget, (hlabel p _ hp).symm ▸ (hlabel q _ hq).symm ▸ hstep⟩
    · rintro ⟨hsource, htarget, hstep⟩
      refine ⟨?_, hsource, htarget⟩
      have hx := hnumber _ (hstates _ hsource)
      -- the source is not critical, so its steps have been followed
      have hfollowed := (hdone _ _ hx).resolve_left (Automaton.mem_states_deleteStates.mp hsource).2
      obtain ⟨x, y, hx', hy, hlast⟩ := hfollowed _ _ hstep
      obtain rfl := Option.some.inj (hx.symm.trans hx')
      obtain rfl := Option.some.inj ((hnumber _ (hstates _ htarget)).symm.trans hy)
      exact hlast.resolve_left (Automaton.mem_states_deleteStates.mp htarget).2

/-- A run from the start survives if it passes no state that is forced out. None of
its states is critical then, so each of them has been followed, and the next one has
been met. -/
theorem shown_of_not_forced (hs : s.Sound c)
    (hdone : ∀ p x, s.composition[p]? = some x → x ∈ s.critical ∨ s.Followed c p)
    (hlabel : ∀ p x, s.composition[p]? = some x → label x = p) {p q : ProductState}
    {u : List EventId} (hp : c.IsStart p)
    (hforced : ∀ v q', v <+: u → c.Leads p v q' → ¬c.Forced q') (hu : c.Leads p u q) :
    q ∈ shown (s.automaton.deleteStates s.critical) label := by
  have hcritical : ∀ {v q' x}, v <+: u → c.Leads p v q' → s.composition[q']? = some x →
      x ∉ s.critical := by
    intro v q' x hv hq' hx hmem
    obtain ⟨q'', hq'', hforced'⟩ := hs.forced_of_critical x hmem
    exact hforced v q' hv hq' (hs.injective hx hq'' ▸ hforced')
  have hmet : ∀ v q', v <+: u → c.Leads p v q' → ∃ x, s.composition[q']? = some x := by
    intro v
    induction v using List.reverseRecOn with
    | nil =>
      rintro q' - rfl
      exact hs.start_met p hp
    | append_singleton v ev ih =>
      intro q' hv hq'
      obtain ⟨p', hp', hstep⟩ := leads_concat.mp hq'
      have hv' := (List.prefix_append v [ev]).trans hv
      obtain ⟨x, hx⟩ := ih p' hv' hp'
      obtain ⟨-, y, -, hy, -⟩ := (hdone p' x hx).resolve_left (hcritical hv' hp' hx) ev q' hstep
      exact ⟨y, hy⟩
  obtain ⟨x, hx⟩ := hmet u q List.prefix_rfl hu
  refine ⟨x, Automaton.mem_states_deleteStates.mpr ⟨(hs.mem_states x).mpr ⟨q, hx⟩, ?_⟩, hlabel q x hx⟩
  exact hcritical List.prefix_rfl hu hx

/-- What is left has the numbers that it had, and other states have none any more. -/
theorem getElem?_composition_ofConstruction {plant : Automaton} {p : ProductState} {x : StateId} :
    (ofConstruction plant s).composition[p]? = some x ↔
      s.composition[p]? = some x ∧ x ∈ (ofConstruction plant s).automaton.states := by
  rw [ofConstruction]
  dsimp only
  rw [Std.ExtTreeMap.getElem?_filter', Option.filter_eq_some_iff]
  exact and_congr_right fun _ => decide_eq_true_iff

/-- The states in which the plant is marked are noted along with the product, as the
marking of the product does not show them. -/
theorem mem_plantMarking_ofConstruction {plant : Automaton} {x : StateId} :
    x ∈ (ofConstruction plant s).plantMarking ↔ ∃ p : ProductState,
      (ofConstruction plant s).composition[p]? = some x ∧ p.plant ∈ plant.marked := by
  change x ∈ IdentSet.ofList _ ↔ _
  rw [IdentSet.mem_ofList, List.mem_map]
  constructor
  · rintro ⟨⟨p, x⟩, hp, rfl⟩
    obtain ⟨hp, hmarked⟩ := List.mem_filter.mp hp
    exact ⟨p, Std.ExtTreeMap.mem_toList_iff_getElem?_eq_some.mp hp, of_decide_eq_true hmarked⟩
  · rintro ⟨p, hp, hmarked⟩
    exact ⟨(p, x), List.mem_filter.mpr ⟨Std.ExtTreeMap.mem_toList_iff_getElem?_eq_some.mpr hp,
      decide_eq_true hmarked⟩, rfl⟩

/-- The product without states represents a part of the product, if a small one. -/
theorem represents_blank (label : StateId → ProductState) :
    c.Represents (blank c.plant c.spec) label := by
  have hwf := blank_wellFormed c.plant c.spec
  obtain ⟨name, alphabet, names, hblank⟩ := blank_eq c.plant c.spec
  rw [hblank] at hwf ⊢
  have hempty : ∀ {x : StateId}, x ∉ (∅ : StateSet) := IdentSet.not_mem_empty
  refine ⟨hwf, fun _ hx => absurd hx hempty, fun x => ?_, fun x => ?_, fun t => ?_⟩
  · exact ⟨fun hx => absurd hx hempty, fun hx => absurd hx.1 hempty⟩
  · exact ⟨fun hx => absurd hx hempty, fun hx => absurd hx.1 hempty⟩
  · exact ⟨fun ht => absurd ht Std.ExtTreeSet.not_mem_empty, fun ht => absurd ht.1 hempty⟩

/-- **The product** is what is left after a walk from its start, unless it has none.
Plant and specification start in one state each, so there is one start at most. -/
theorem controlledProduct_cases (hc : c.Deterministic) (hfits : c.Fits) :
    (c.controlledProduct.value = ⟨blank c.plant c.spec, ∅, ∅⟩ ∧ ∀ p, ¬c.IsStart p) ∨
      ∃ s : Construction, c.controlledProduct.value = ofConstruction c.plant s ∧ s.Finished c := by
  have hpair := fun p => initialPair?_eq_some_iff (p := p) hc.plant_isDeterministic
    hc.spec_isDeterministic
  rcases hstart : initialPair? c.plant c.spec with _ | start
  · left
    constructor
    · rw [controlledProduct, hstart]
      rfl
    · intro p hp
      have hsome := (hpair ⟨p.plant, p.spec⟩).mpr ⟨hp.plant_mem, hp.spec_mem⟩
      rw [hstart] at hsome
      cases hsome
  · right
    obtain ⟨hplant, hspec⟩ := (hpair start).mp hstart
    let p : ProductState := ⟨start.left, start.right, true⟩
    have hp : c.IsStart p := ⟨hplant, hspec, rfl⟩
    refine ⟨_, ?_, finished_build hc hfits hp⟩
    rw [controlledProduct, hstart]
    exact Watched.value_bind ..

/-- Its automaton represents a part of the product of plant and specification, the
states in which the plant is marked are known, and every run survives that passes no
state that is forced out. -/
theorem controlledProduct_spec (hc : c.WellPosed) (hfits : c.Fits) : ∃ label,
    c.Represents c.controlledProduct.value.automaton label ∧
    (∀ x ∈ c.controlledProduct.value.automaton.states,
      x ∈ c.controlledProduct.value.plantMarking ↔ (label x).plant ∈ c.plant.marked) ∧
    ∀ p u q, c.IsStart p → (∀ v q', v <+: u → c.Leads p v q' → ¬c.Forced q') →
      c.Leads p u q → q ∈ shown c.controlledProduct.value.automaton label := by
  rcases controlledProduct_cases hc.deterministic hfits with ⟨hvalue, hnone⟩ | ⟨s, hvalue, hs⟩
  · -- without a start the product is empty
    rw [hvalue]
    exact ⟨fun x => ⟨x, x, true⟩, represents_blank _, fun x hx => absurd hx not_mem_states_blank,
      fun p _ _ hp => absurd hp (hnone p)⟩
  · obtain ⟨label, hlabel⟩ := exists_label hs.sound
    rw [hvalue]
    refine ⟨label, represents_ofConstruction hs.sound hs.followed hlabel, fun x hx => ?_,
      fun p' u q hp' hforced hu => shown_of_not_forced hs.sound hs.followed hlabel hp' hforced hu⟩
    rw [mem_plantMarking_ofConstruction]
    constructor
    · rintro ⟨p, hp, hmarked⟩
      exact hlabel p x (getElem?_composition_ofConstruction.mp hp).1 ▸ hmarked
    · intro hmarked
      obtain ⟨p, hp⟩ := (hs.sound.mem_states x).mp (Automaton.mem_states_deleteStates.mp hx).1
      exact ⟨p, getElem?_composition_ofConstruction.mpr ⟨hp, hx⟩, hlabel p x hp ▸ hmarked⟩

end OmegaControl.ControlProblem
