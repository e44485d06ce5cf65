import Mathlib.Data.List.ProdSigma
import OmegaControl.Proofs.Synthesis.Represents
import OmegaControl.Proofs.Observation
import OmegaControl.Proofs.Numbering

/-!
# The product as it is built

What the walk that builds the product keeps true. Each state that it has met has a
number of its own, and transitions and marks are those of the product
(`Construction.Sound`). Of a state that is neither pending nor critical, all steps
have been followed (`Construction.Followed`). Critical states are forced out: some
run of uncontrollable events leads from them to a state where the specification
refuses one (`ControlProblem.Forced`).

Numbers can run out: the states of an automaton are numbered with 32 bits. That they
suffice for the states of the product is what `ControlProblem.Fits` asks for.

Whether a state is critical is known only when it is taken up, and it may have been
met before as the target of other steps. So the walk may miss that a state is forced
out, if the states it is forced to are only found to be critical later; what it
never does is to call a state critical that is not forced out. What was missed is
found by the passes that follow.
-/

namespace OmegaControl

namespace ControlProblem

/-- There are enough numbers for the states of the product that can be reached. Zero
is no identifier, so there must be fewer of these states than there are words of 32
bits. -/
def Fits (c : ControlProblem) : Prop :=
  ∃ ps : List ProductState, ps.length < UInt32.size ∧ ∀ p, c.Reachable p → p ∈ ps

/-- A run that starts among the states of both components stays among them. -/
theorem Leads.mem_states {c : ControlProblem} (hplant : c.plant.WellFormed)
    (hspec : c.spec.WellFormed) {p q : ProductState} {s : List EventId}
    (hp : p.plant ∈ c.plant.states ∧ p.spec ∈ c.spec.states) (h : c.Leads p s q) :
    q.plant ∈ c.plant.states ∧ q.spec ∈ c.spec.states := by
  induction s generalizing p with
  | nil => exact h ▸ hp
  | cons ev s ih =>
    obtain ⟨p', hstep, hs⟩ := h
    have hplant' := hplant.target_mem ⟨p.plant, ev, p'.plant⟩ hstep.plant_mem
    have hspec' := hspec.target_mem ⟨p.spec, ev, p'.spec⟩ hstep.spec_mem
    exact ih ⟨hplant', hspec'⟩ hs

/-- The states of the product that can be reached are pairs of states, each taken twice. -/
theorem exists_length_eq {c : ControlProblem} (hplant : c.plant.WellFormed)
    (hspec : c.spec.WellFormed) : ∃ ps : List ProductState,
      ps.length = c.plant.size * (c.spec.size * 2) ∧ ∀ p, c.Reachable p → p ∈ ps := by
  refine ⟨(c.plant.states.toList ×ˢ c.spec.states.toList ×ˢ [true, false]).map
    fun (x, y, owed) => ⟨x, y, owed⟩, ?_, ?_⟩
  · rw [List.length_map, List.length_product, List.length_product, IdentSet.length_toList,
      IdentSet.length_toList]
    rfl
  · rintro q ⟨p, s, hp, hs⟩
    obtain ⟨hx, hy⟩ := hs.mem_states hplant hspec
      ⟨hplant.initial_subset _ hp.plant_mem, hspec.initial_subset _ hp.spec_mem⟩
    refine List.mem_map.mpr ⟨(q.plant, q.spec, q.plantOwed), ?_, rfl⟩
    refine List.mem_product.mpr ⟨IdentSet.mem_toList.mpr hx, ?_⟩
    exact List.mem_product.mpr ⟨IdentSet.mem_toList.mpr hy, by simp⟩

/-- Numbers suffice if there are enough for all of these, as for all but very large
components. -/
theorem fits_of_size_lt {c : ControlProblem} (hplant : c.plant.WellFormed)
    (hspec : c.spec.WellFormed) (hsize : c.plant.size * (c.spec.size * 2) < UInt32.size) :
    c.Fits := by
  obtain ⟨ps, hlen, hps⟩ := exists_length_eq hplant hspec
  exact ⟨ps, hlen ▸ hsize, hps⟩

theorem machineProblem_fits : machineProblem.Fits :=
  fits_of_size_lt Automaton.machine_wellFormed Automaton.repairedMachine_wellFormed
    (by decide +kernel)

/-- A supervisor cannot keep the state from being left: uncontrollable events lead
from it to a state where the specification refuses an uncontrollable event of the
plant. -/
inductive Forced (c : ControlProblem) : ProductState → Prop
  | refused {p : ProductState} {ev : EventId} (hev : ev ∉ c.controllable)
      (hrefused : ev ∈ ControlledProduct.refusedEvents c p) : c.Forced p
  | step {p q : ProductState} {ev : EventId} (hev : ev ∉ c.controllable)
      (hstep : c.Step p ev q) (hq : c.Forced q) : c.Forced p

end ControlProblem

namespace ControlledProduct

variable {c : ControlProblem} {s s' : Construction} {p q : ProductState} {x y : StateId}
  {ev : EventId}

namespace Construction

/-- What has been built is a part of the product, with a number for each state.
Nothing is said about what is missing; that is the matter of `Complete`. -/
structure Sound (c : ControlProblem) (s : Construction) : Prop where
  wellFormed : s.automaton.WellFormed
  /-- numbers are given away in turn -/
  nextState_eq : s.automaton.nextState = s.composition.size + 1
  /-- the states are those that have been met -/
  mem_states : ∀ x, x ∈ s.automaton.states ↔ ∃ p : ProductState, s.composition[p]? = some x
  /-- each of them has a number of its own -/
  injective : ∀ {p q : ProductState} {x : StateId},
    s.composition[p]? = some x → s.composition[q]? = some x → p = q
  /-- what is met can be reached -/
  reachable : ∀ p ∈ s.composition, c.Reachable p
  /-- the start is initial -/
  mem_initial : ∀ x, x ∈ s.automaton.initial ↔
    ∃ p : ProductState, s.composition[p]? = some x ∧ c.IsStart p
  /-- marks are those of the product -/
  mem_marked : ∀ x, x ∈ s.automaton.marked ↔
    ∃ p : ProductState, s.composition[p]? = some x ∧ isMarked c.spec p = true
  /-- transitions are steps -/
  step_of_mem : ∀ t ∈ s.automaton.transitions, ∃ p q : ProductState, s.composition[p]? = some t.source ∧
    s.composition[q]? = some t.target ∧ c.Step p t.event q
  /-- the start has been met -/
  start_met : ∀ p, c.IsStart p → ∃ x, s.composition[p]? = some x
  /-- what is pending has been met -/
  pending_met : ∀ p ∈ s.pending, ∃ x, s.composition[p]? = some x
  /-- what is critical is forced out -/
  forced_of_critical : ∀ x ∈ s.critical, ∃ p : ProductState, s.composition[p]? = some x ∧ c.Forced p

/-- Every step from `p` leads to a state that is critical, or has its transition.
Steps to critical states are left out on purpose: such states are deleted in the
end. -/
def Followed (c : ControlProblem) (s : Construction) (p : ProductState) : Prop :=
  ∀ ev q, c.Step p ev q → ∃ x y, s.composition[p]? = some x ∧ s.composition[q]? = some y ∧
    (y ∈ s.critical ∨ ⟨x, ev, y⟩ ∈ s.automaton.transitions)

/-- Every state that was met is pending or critical, or has been followed. When
nothing is pending any more, nothing is left to do. -/
def Complete (c : ControlProblem) (s : Construction) : Prop :=
  ∀ p x, s.composition[p]? = some x → p ∈ s.pending ∨ x ∈ s.critical ∨ s.Followed c p

/-- Nothing has been taken back, and states that were met since are pending. So what
has been followed stays followed. -/
structure Grows (s s' : Construction) : Prop where
  /-- numbers are kept -/
  composition : ∀ {p : ProductState} {x : StateId},
    s.composition[p]? = some x → s'.composition[p]? = some x
  /-- transitions are kept -/
  transitions : ∀ t ∈ s.automaton.transitions, t ∈ s'.automaton.transitions
  /-- what is critical stays critical -/
  critical : ∀ x ∈ s.critical, x ∈ s'.critical
  /-- what is pending stays pending -/
  pending : ∀ p ∈ s.pending, p ∈ s'.pending
  /-- what is new is pending -/
  pending_of_new : ∀ {p : ProductState} {x : StateId}, s'.composition[p]? = some x →
    s.composition[p]? = some x ∨ p ∈ s'.pending

theorem Grows.refl (s : Construction) : s.Grows s :=
  ⟨id, fun _ => id, fun _ => id, fun _ => id, .inl⟩

theorem Grows.trans {s'' : Construction} (h : s.Grows s') (h' : s'.Grows s'') : s.Grows s'' where
  composition hp := h'.composition (h.composition hp)
  transitions t ht := h'.transitions t (h.transitions t ht)
  critical x hx := h'.critical x (h.critical x hx)
  pending p hp := h'.pending p (h.pending p hp)
  pending_of_new hp := by
    rcases h'.pending_of_new hp with hp | hp
    · exact (h.pending_of_new hp).imp_right (h'.pending _)
    · exact .inr hp

/-- What has been followed stays followed. -/
theorem Followed.mono (h : s.Followed c p) (hgrows : s.Grows s') : s'.Followed c p := by
  intro ev q hstep
  obtain ⟨x, y, hx, hy, hlast⟩ := h ev q hstep
  refine ⟨x, y, hgrows.composition hx, hgrows.composition hy, ?_⟩
  exact hlast.imp (hgrows.critical y) (hgrows.transitions _)

/-! ## Meeting a state

The number of a state is looked up, or given away if there is none. The lemmas about
`addState` say what becomes of each part of the automaton when a number is given
away. -/

/-- As long as numbers suffice, a new state gets a number that is not in use: the
states met so far and the new one are different states that can be reached, so there
is a number for all of them. -/
theorem Sound.freshState_not_mem (hs : s.Sound c) (hfits : c.Fits) (hp : c.Reachable p)
    (hnew : s.composition[p]? = none) :
    s.automaton.freshState.index = s.automaton.nextState ∧
      s.automaton.freshState ∉ s.automaton.states := by
  obtain ⟨ps, hlen, hps⟩ := hfits
  have hnodup : (p :: s.composition.keys).Nodup := by
    refine List.nodup_cons.mpr ⟨fun hmem => ?_, ?_⟩
    · rw [Std.ExtTreeMap.mem_keys, Std.ExtTreeMap.mem_iff_isSome_getElem?, hnew] at hmem
      cases hmem
    · exact Std.ExtTreeMap.distinct_keys.imp fun hne he => hne (Std.compare_eq_iff_eq.mpr he)
  have hsub : p :: s.composition.keys ⊆ ps := by
    intro q hq
    rcases List.mem_cons.mp hq with rfl | hq
    · exact hps _ hp
    · exact hps q (hs.reachable q (Std.ExtTreeMap.mem_keys.mp hq))
  have hsize : s.composition.size + 1 ≤ ps.length := by
    have hle := hnodup.length_le_of_subset hsub
    rwa [List.length_cons, Std.ExtTreeMap.length_keys] at hle
  have hlt : s.automaton.nextState < UInt32.size := by
    rw [hs.nextState_eq]
    omega
  exact hs.wellFormed.freshState_spec hlt

/-- The automaton with the state `y` added, marked if it should be. -/
def addState (spec : Automaton) (g : Automaton) (p : ProductState) (y : StateId) : Automaton :=
  if isMarked spec p then (g.insertStateWithId y).setMarkedState y else g.insertStateWithId y

theorem addState_wellFormed {spec g : Automaton} (hg : g.WellFormed) (p : ProductState) (y : StateId) :
    (addState spec g p y).WellFormed := by
  rw [addState]
  split
  · exact (hg.insertStateWithId y).setMarkedState y
  · exact hg.insertStateWithId y

theorem mem_states_addState {spec g : Automaton} :
    x ∈ (addState spec g p y).states ↔ x = y ∨ x ∈ g.states := by
  rw [addState]
  split
  · simp [Automaton.setMarkedState, Automaton.insertStateWithId]
  · simp [Automaton.insertStateWithId]

theorem mem_marked_addState {spec g : Automaton} :
    x ∈ (addState spec g p y).marked ↔ (x = y ∧ isMarked spec p = true) ∨ x ∈ g.marked := by
  rw [addState]
  split
  next h => simp [Automaton.setMarkedState, Automaton.insertStateWithId, h]
  next h => simp [Automaton.insertStateWithId, h]

theorem initial_addState {spec g : Automaton} : (addState spec g p y).initial = g.initial := by
  rw [addState]
  split <;> rfl

theorem transitions_addState {spec g : Automaton} :
    (addState spec g p y).transitions = g.transitions := by
  rw [addState]
  split <;> rfl

/-- The counter moves on by one, whether or not the state is marked. -/
theorem nextState_addState {spec g : Automaton} (h : y.index = g.nextState) :
    (addState spec g p y).nextState = g.nextState + 1 := by
  rw [addState]
  split
  · simp [Automaton.setMarkedState, Automaton.insertStateWithId, h]
  · simp [Automaton.insertStateWithId, h]

/-- A state that has been met keeps its number, and nothing happens. -/
theorem meet_eq_of_some (h : s.composition[p]? = some y) (spec : Automaton) :
    s.meet spec p = (y, s) := by
  rw [meet, h]

/-- A state that is new gets a fresh number and is pending. -/
theorem meet_eq_of_none (h : s.composition[p]? = none) (spec : Automaton) :
    s.meet spec p = (s.automaton.freshState, { s with
      automaton := addState spec s.automaton p s.automaton.freshState
      composition := s.composition.insert p s.automaton.freshState
      pending := p :: s.pending }) := by
  rw [meet, h]
  rfl

/-- What there is among the states that have a number, after one more has got one. -/
theorem exists_insert_iff {m : ProductComposition} (hnew : m[p]? = none) {Q : ProductState → Prop} :
    (∃ q, (m.insert p y)[q]? = some x ∧ Q q) ↔ (x = y ∧ Q p) ∨ ∃ q, m[q]? = some x ∧ Q q := by
  simp only [getElem?_insert_iff]
  constructor
  · rintro ⟨q, ⟨rfl, rfl⟩ | ⟨-, hq⟩, hQ⟩
    · exact .inl ⟨rfl, hQ⟩
    · exact .inr ⟨q, hq, hQ⟩
  · rintro (⟨rfl, hQ⟩ | ⟨q, hq, hQ⟩)
    · exact ⟨p, .inl ⟨rfl, rfl⟩, hQ⟩
    · refine ⟨q, .inr ⟨?_, hq⟩, hQ⟩
      rintro rfl
      rw [hnew] at hq
      cases hq

theorem getElem?_insert_of_some {m : ProductComposition} (hnew : m[p]? = none)
    (hq : m[q]? = some x) : (m.insert p y)[q]? = some x := by
  refine getElem?_insert_iff.mpr (.inr ⟨?_, hq⟩)
  rintro rfl
  rw [hnew] at hq
  cases hq

/-- A state that is met for the first time gets a number that is not in use. It
becomes pending, so nothing has to be known of its steps yet. The number is above
all others, so numbers stay different. -/
theorem Sound.meet_new (hs : s.Sound c) (hp : c.Reachable p) (hnew : s.composition[p]? = none)
    (hindex : y.index = s.automaton.nextState) (hfresh : y ∉ s.automaton.states) :
    ({ s with
      automaton := addState c.spec s.automaton p y
      composition := s.composition.insert p y
      pending := p :: s.pending } : Construction).Sound c where
  wellFormed := addState_wellFormed hs.wellFormed p y
  nextState_eq := by
    have hout : p ∉ s.composition := by
      rw [Std.ExtTreeMap.mem_iff_isSome_getElem?, hnew]
      exact Bool.false_ne_true
    dsimp only
    rw [nextState_addState hindex, hs.nextState_eq, size_insert_of_not_mem hout]
  mem_states x := by
    have hiff := exists_insert_iff (x := x) (y := y) hnew (Q := fun _ => True)
    simp only [and_true] at hiff
    rw [hiff, mem_states_addState, hs.mem_states]
  injective :=
    injective_insert hs.injective fun q hq => hfresh ((hs.mem_states y).mpr ⟨q, hq⟩)
  reachable q hq := by
    rcases Std.ExtTreeMap.mem_insert.mp hq with heq | hq
    · exact Std.compare_eq_iff_eq.mp heq ▸ hp
    · exact hs.reachable q hq
  mem_initial x := by
    -- the start has been met at the beginning, so it is not the new state
    have hnot : ¬c.IsStart p := by
      intro hstart
      obtain ⟨z, hz⟩ := hs.start_met p hstart
      rw [hnew] at hz
      cases hz
    dsimp only
    rw [exists_insert_iff hnew, initial_addState, hs.mem_initial, or_iff_right (fun h => hnot h.2)]
  mem_marked x := by
    dsimp only
    rw [exists_insert_iff hnew, mem_marked_addState, hs.mem_marked]
  step_of_mem t ht := by
    rw [transitions_addState] at ht
    obtain ⟨q, q', hq, hq', hstep⟩ := hs.step_of_mem t ht
    exact ⟨q, q', getElem?_insert_of_some hnew hq, getElem?_insert_of_some hnew hq', hstep⟩
  start_met q hq := by
    obtain ⟨x, hx⟩ := hs.start_met q hq
    exact ⟨x, getElem?_insert_of_some hnew hx⟩
  pending_met q hq := by
    rcases List.mem_cons.mp hq with rfl | hq
    · exact ⟨y, getElem?_insert_iff.mpr (.inl ⟨rfl, rfl⟩)⟩
    · obtain ⟨x, hx⟩ := hs.pending_met q hq
      exact ⟨x, getElem?_insert_of_some hnew hx⟩
  forced_of_critical x hx := by
    obtain ⟨q, hq, hforced⟩ := hs.forced_of_critical x hx
    exact (exists_insert_iff hnew).mpr (.inr ⟨q, hq, hforced⟩)

/-- Meeting a state that can be reached gives it a number and takes nothing back. -/
theorem Sound.meet (hs : s.Sound c) (hfits : c.Fits) (hp : c.Reachable p) :
    (s.meet c.spec p).2.Sound c ∧ s.Grows (s.meet c.spec p).2 ∧
      (s.meet c.spec p).2.composition[p]? = some (s.meet c.spec p).1 := by
  rcases hnew : s.composition[p]? with _ | y
  · obtain ⟨hindex, hfresh⟩ := hs.freshState_not_mem hfits hp hnew
    rw [meet_eq_of_none hnew]
    refine ⟨hs.meet_new hp hnew hindex hfresh, ?_, getElem?_insert_iff.mpr (.inl ⟨rfl, rfl⟩)⟩
    refine ⟨getElem?_insert_of_some hnew, fun t ht => ?_, fun _ => id,
      fun _ => List.mem_cons_of_mem p, fun hq => ?_⟩
    · rwa [transitions_addState]
    · rcases getElem?_insert_iff.mp hq with ⟨rfl, -⟩ | ⟨-, hq⟩
      · exact .inr List.mem_cons_self
      · exact .inl hq
  · rw [meet_eq_of_some hnew]
    exact ⟨hs, .refl s, hnew⟩

/-! ## Taking up a state

A state that is taken up is critical if an uncontrollable event is refused, or leads
to a state that is known to be critical. Otherwise its steps are followed, but for
those on events that lead to critical states. -/

/-- A transition between states that were met. It is a step of the product, so the
automaton still has steps of the product only, and its states are left alone. -/
theorem Sound.insertTransition (hs : s.Sound c) (hx : s.composition[p]? = some x)
    (hy : s.composition[q]? = some y) (hstep : c.Step p ev q) :
    ({ s with automaton := s.automaton.insertTransition ⟨x, ev, y⟩ } : Construction).Sound c := by
  have hxs := (hs.mem_states x).mpr ⟨p, hx⟩
  have hys := (hs.mem_states y).mpr ⟨q, hy⟩
  have hmem : ∀ {t}, t ∈ (s.automaton.insertTransition ⟨x, ev, y⟩).transitions →
      t = ⟨x, ev, y⟩ ∨ t ∈ s.automaton.transitions := by
    intro t ht
    rcases Std.ExtTreeSet.mem_insert.mp ht with heq | ht
    · exact .inl (Std.compare_eq_iff_eq.mp heq).symm
    · exact .inr ht
  refine { hs with
    wellFormed := hs.wellFormed.insertTransition _
    nextState_eq := ?_
    mem_states := fun z => ?_
    step_of_mem := fun t ht => ?_ }
  · have hxlt := hs.wellFormed.lt_nextState x hxs
    have hylt := hs.wellFormed.lt_nextState y hys
    rw [← hs.nextState_eq]
    simp only [Automaton.insertTransition, Automaton.insertEvent, Automaton.insertStateWithId]
    omega
  · -- both ends have numbers, so no state is added
    have hstates : z ∈ (s.automaton.insertTransition ⟨x, ev, y⟩).states ↔
        z ∈ s.automaton.states := by
      simp only [Automaton.insertTransition, Automaton.insertEvent, Automaton.insertStateWithId,
        IdentSet.mem_insert]
      refine ⟨?_, fun hz => .inr (.inr hz)⟩
      rintro (rfl | rfl | hz)
      · exact hys
      · exact hxs
      · exact hz
    exact hstates.trans (hs.mem_states z)
  · rcases hmem ht with rfl | ht
    · exact ⟨p, q, hx, hy, hstep⟩
    · exact hs.step_of_mem t ht

/-- One more transition takes nothing back. -/
theorem grows_insertTransition (s : Construction) (t : Transition) :
    s.Grows { s with automaton := s.automaton.insertTransition t } :=
  ⟨id, fun _ hu => Std.ExtTreeSet.mem_insert.mpr (.inr hu), fun _ => id, fun _ => id, .inl⟩

/-- Following steps of a state that was met adds their transitions, and gives
numbers to their targets. The induction is on the list of steps. -/
theorem Sound.insertSteps (hs : s.Sound c) (hfits : c.Fits) (hx : s.composition[p]? = some x)
    (steps : List (EventId × ProductState)) (hsteps : ∀ ev q, (ev, q) ∈ steps → c.Step p ev q) :
    (s.insertSteps c.spec x steps).Sound c ∧ s.Grows (s.insertSteps c.spec x steps) ∧
      ∀ ev q, (ev, q) ∈ steps → ∃ y, (s.insertSteps c.spec x steps).composition[q]? = some y ∧
        ⟨x, ev, y⟩ ∈ (s.insertSteps c.spec x steps).automaton.transitions := by
  induction steps generalizing s with
  | nil => exact ⟨hs, .refl s, fun _ _ h => absurd h List.not_mem_nil⟩
  | cons step steps ih =>
    obtain ⟨ev, q⟩ := step
    have hstep := hsteps ev q List.mem_cons_self
    have hp : c.Reachable p :=
      hs.reachable p (Std.ExtTreeMap.mem_iff_isSome_getElem?.mpr (hx ▸ rfl))
    obtain ⟨hmeet, hgrows, hq⟩ := hs.meet hfits (hp.step hstep)
    have hinsert := hmeet.insertTransition (hgrows.composition hx) hq hstep
    have hgrows' := hgrows.trans (grows_insertTransition _ ⟨x, ev, (s.meet c.spec q).1⟩)
    obtain ⟨hsound, hgrows'', hall⟩ := ih hinsert (hgrows'.composition hx)
      fun ev q h => hsteps ev q (List.mem_cons_of_mem _ h)
    refine ⟨hsound, hgrows'.trans hgrows'', fun ev' q' h => ?_⟩
    rcases List.mem_cons.mp h with heq | h
    · obtain ⟨rfl, rfl⟩ := Prod.mk.inj heq
      refine ⟨_, hgrows''.composition hq, hgrows''.transitions _ ?_⟩
      exact Std.ExtTreeSet.mem_insert.mpr (.inl Std.compare_self)
    · exact hall ev' q' h

/-- What is known to be critical has a number that is noted as critical. -/
theorem knowsCritical_iff : s.knowsCritical p = true ↔
    ∃ x, s.composition[p]? = some x ∧ x ∈ s.critical := by
  simp [knowsCritical, Option.any_eq_true]

/-- Taking up a state that was met: afterwards it is critical, or has been followed.
Either way nothing is taken back, and what is noted as critical is forced out. -/
theorem Sound.takeUp (hs : s.Sound c) (hc : c.Deterministic) (hfits : c.Fits)
    (hx : s.composition[p]? = some x) :
    (s.takeUp c p).Sound c ∧ s.Grows (s.takeUp c p) ∧
      (x ∈ (s.takeUp c p).critical ∨ (s.takeUp c p).Followed c p) := by
  rw [Construction.takeUp, hx]
  dsimp only
  by_cases hcritical : x ∈ s.critical
  · rw [if_pos hcritical]
    exact ⟨hs, .refl s, .inl hcritical⟩
  rw [if_neg hcritical]
  split
  next hbad =>
    -- an uncontrollable event is refused, or leads to a state that is forced out
    have hforced : c.Forced p := by
      obtain ⟨ev, hmem, hev⟩ := List.any_eq_true.mp hbad
      have hev := of_decide_eq_true hev
      rcases List.mem_append.mp hmem with hmem | hmem
      · exact .refused hev hmem
      · obtain ⟨⟨ev, q⟩, hbad, rfl⟩ := List.mem_map.mp hmem
        obtain ⟨hshared, hknown⟩ := List.mem_filter.mp hbad
        obtain ⟨y, hy, hcritical⟩ := knowsCritical_iff.mp hknown
        obtain ⟨q', hq', hforced⟩ := hs.forced_of_critical y hcritical
        obtain rfl : q' = q := hs.injective hq' hy
        exact .step hev ((ControlProblem.mem_sharedSteps hc).mp hshared) hforced
    refine ⟨{ hs with forced_of_critical := fun z hz => ?_ }, ?_, .inl ?_⟩
    · rcases IdentSet.mem_insert.mp hz with rfl | hz
      · exact ⟨p, hx, hforced⟩
      · exact hs.forced_of_critical z hz
    · exact ⟨id, fun _ => id, fun _ hz => IdentSet.mem_insert.mpr (.inr hz), fun _ => id, .inl⟩
    · exact IdentSet.mem_insert.mpr (.inl rfl)
  next =>
    obtain ⟨hsound, hgrows, hall⟩ := hs.insertSteps hfits hx
      ((sharedSteps c p).filter fun step =>
        step.1 ∉ ((sharedSteps c p).filter fun step => s.knowsCritical step.2).map (·.1))
      fun ev q h => (ControlProblem.mem_sharedSteps hc).mp (List.mem_filter.mp h).1
    refine ⟨hsound, hgrows, .inr fun ev q hstep => ?_⟩
    -- a step on an event that is left out leads to a critical state, as successors
    -- are unique
    have hshared := (ControlProblem.mem_sharedSteps hc).mpr hstep
    by_cases hbad : ev ∈ ((sharedSteps c p).filter fun step => s.knowsCritical step.2).map (·.1)
    · obtain ⟨⟨ev, q'⟩, hmem, rfl⟩ := List.mem_map.mp hbad
      obtain ⟨hshared', hknown⟩ := List.mem_filter.mp hmem
      obtain rfl := ((ControlProblem.mem_sharedSteps hc).mp hshared').unique hc hstep
      obtain ⟨y, hy, hcritical⟩ := knowsCritical_iff.mp hknown
      exact ⟨x, y, hgrows.composition hx, hgrows.composition hy,
        .inl (hgrows.critical y hcritical)⟩
    · obtain ⟨y, hy, ht⟩ := hall ev q (List.mem_filter.mpr ⟨hshared, decide_eq_true hbad⟩)
      exact ⟨x, y, hgrows.composition hx, hy, .inr ht⟩

end Construction

/-! ## The whole walk

What holds at the start and is kept when a pending state is taken up holds in the
end. Reports are made on the way, but they change nothing. -/

open Construction

/-- **The walk**: what taking up pending states keeps true holds in the end, when nothing is pending
any more. -/
theorem build_induction {P : Construction → Prop} (done : ℕ)
    (hstep : ∀ (s : Construction) p pending, s.pending = p :: pending → P s →
      P (({ s with pending } : Construction).takeUp c p)) (hs : P s) :
    P (build c done s).value ∧ (build c done s).value.pending = [] := by
  fun_induction build c done s with
  | case1 done s hpending => exact ⟨hs, hpending⟩
  | case2 done s p pending hpending ih =>
    rw [Watched.value_bind]
    exact ih (hstep s p pending hpending hs)

/-- Taking up the next pending state leaves no other one out. It is followed or
critical then, what it leads to has been met or becomes pending, and others stay
what they were. -/
theorem Construction.Complete.takeUp (hcomplete : s.Complete c) (hs : s.Sound c)
    (hc : c.Deterministic) (hfits : c.Fits) {pending : List ProductState}
    (hpending : s.pending = p :: pending) :
    (({ s with pending } : Construction).takeUp c p).Sound c ∧
      (({ s with pending } : Construction).takeUp c p).Complete c := by
  obtain ⟨x, hx⟩ := hs.pending_met p (hpending ▸ List.mem_cons_self)
  have hs' : ({ s with pending } : Construction).Sound c :=
    { hs with pending_met := fun q hq =>
        hs.pending_met q (hpending ▸ List.mem_cons_of_mem p hq) }
  obtain ⟨hsound, hgrows, hdone⟩ := hs'.takeUp hc hfits hx
  refine ⟨hsound, fun q y hy => ?_⟩
  rcases hgrows.pending_of_new hy with hold | hq
  · rcases hcomplete q y hold with hq | hcritical | hfollowed
    · rw [hpending] at hq
      rcases List.mem_cons.mp hq with rfl | hq
      · obtain rfl : x = y := Option.some.inj (hx.symm.trans hold)
        exact .inr hdone
      · exact .inl (hgrows.pending q hq)
    · exact .inr (.inl (hgrows.critical y hcritical))
    · have hfollowed : ({ s with pending } : Construction).Followed c q := hfollowed
      exact .inr (.inr (hfollowed.mono hgrows))
  · exact .inl hq

/-! ## The start

The walk starts from a product with events and names, but without states; the start
of the product is its first one. -/

/-- The product without states has nothing but events. -/
theorem blank_eq (plant spec : Automaton) : ∃ name alphabet names, blank plant spec =
    { Automaton.new name with alphabet := alphabet, eventNames := names } := by
  obtain ⟨names, hnames⟩ := Automaton.copyEventNames_eq ((Automaton.new
    ("BuechiConProduct(" ++ plant.name ++ "," ++ spec.name ++ ")")).insertEvents plant.alphabet) plant
  exact ⟨_, _, names, hnames⟩

theorem not_mem_states_blank {plant spec : Automaton} : x ∉ (blank plant spec).states := by
  obtain ⟨name, alphabet, names, hblank⟩ := blank_eq plant spec
  rw [hblank]
  exact IdentSet.not_mem_empty

/-- It is well-formed, as everything that is built by the operations of the store. -/
theorem blank_wellFormed (plant spec : Automaton) : (blank plant spec).WellFormed :=
  ((Automaton.WellFormed.new _).insertEvents _).copyEventNames _

/-- The first state is the only one so far. -/
theorem exists_insertInitialState_blank (plant spec : Automaton) : ∃ g : Automaton,
    (blank plant spec).insertInitialState = (Ident.ofIndex 1, g) ∧ g.WellFormed ∧
      g.nextState = 2 ∧ (∀ x, x ∈ g.states ↔ x = Ident.ofIndex 1) ∧
      (∀ x, x ∈ g.initial ↔ x = Ident.ofIndex 1) ∧ (∀ x, x ∉ g.marked) ∧
      ∀ t, t ∉ g.transitions := by
  have hwf := blank_wellFormed plant spec
  obtain ⟨name, alphabet, names, hblank⟩ := blank_eq plant spec
  rw [hblank] at hwf ⊢
  have hindex : (Ident.ofIndex 1 : StateId).index = 1 := Ident.index_ofIndex (by decide)
  have hadded : ∀ x : StateId, x ∈ (∅ : StateSet).insert (Ident.ofIndex 1) ↔ x = Ident.ofIndex 1 :=
    fun x => by rw [IdentSet.mem_insert, or_iff_left IdentSet.not_mem_empty]
  refine ⟨_, rfl, { hwf.insertStateWithId (Ident.ofIndex 1) with initial_subset := fun _ => id },
    ?_, hadded, hadded, fun _ => IdentSet.not_mem_empty, fun _ => Std.ExtTreeSet.not_mem_empty⟩
  change max 1 ((Ident.ofIndex 1 : StateId).index + 1) = 2
  rw [hindex]
  rfl

/-- The walk starts with one state, which is the start of the product and pending.
There are no transitions yet, and the number of the state is the first one. -/
theorem sound_start (hc : c.Deterministic) (hp : c.IsStart p) :
    Construction.Sound c ⟨(blank c.plant c.spec).insertInitialState.2,
      (∅ : ProductComposition).insert p (blank c.plant c.spec).insertInitialState.1, ∅, [p]⟩ := by
  obtain ⟨g, hg, hwf, hnext, hstates, hinitial, hmarked, hnone⟩ :=
    exists_insertInitialState_blank c.plant c.spec
  rw [hg]
  have hnumber : ∀ {q : ProductState} {x : StateId},
      ((∅ : ProductComposition).insert p (Ident.ofIndex 1))[q]? = some x ↔
        q = p ∧ Ident.ofIndex 1 = x := by
    intro q x
    rw [getElem?_insert_iff, Std.ExtTreeMap.getElem?_empty]
    simp
  -- the marking of the plant is owed at the start, so the start is not marked
  have hunmarked : isMarked c.spec p = false := by simp [isMarked, hp.owed]
  refine ⟨hwf, ?_, fun x => ?_, fun hq hq' => ?_, fun q hq => ?_, fun x => ?_, fun x => ?_,
    fun t ht => absurd ht (hnone t), fun q hq => ?_, fun q hq => ?_,
    fun x hx => absurd hx IdentSet.not_mem_empty⟩
  · rw [size_insert_of_not_mem Std.ExtTreeMap.not_mem_empty]
    exact hnext
  · simp only [hnumber, exists_and_right, exists_eq, true_and]
    exact (hstates x).trans eq_comm
  · rw [(hnumber.mp hq).1, (hnumber.mp hq').1]
  · rcases Std.ExtTreeMap.mem_insert.mp hq with heq | hq
    · obtain rfl := Std.compare_eq_iff_eq.mp heq
      exact ⟨p, [], hp, rfl⟩
    · exact absurd hq Std.ExtTreeMap.not_mem_empty
  · refine (hinitial x).trans ⟨?_, ?_⟩
    · rintro rfl
      exact ⟨p, hnumber.mpr ⟨rfl, rfl⟩, hp⟩
    · rintro ⟨q, hq, -⟩
      exact (hnumber.mp hq).2.symm
  · refine ⟨fun hx => absurd hx (hmarked x), ?_⟩
    rintro ⟨q, hq, hmark⟩
    rw [(hnumber.mp hq).1, hunmarked] at hmark
    cases hmark
  · exact ⟨_, hnumber.mpr ⟨hq.unique hc hp, rfl⟩⟩
  · exact ⟨_, hnumber.mpr ⟨List.mem_singleton.mp hq, rfl⟩⟩

end ControlledProduct

end OmegaControl
