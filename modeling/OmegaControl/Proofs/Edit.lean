import OmegaControl.Edit
import OmegaControl.Proofs.Liveness.ObservedLoop
import OmegaControl.Proofs.Synthesis.NormalPart

/-!
# Automata that are built by edits

Whatever edits an automaton has gone through, it is well-formed, and a fresh state
is none of its states (`Edit.applyAll_spec`). As long as the largest number has
never been that of a state, a fresh state has never been one, either; from then on
it is the smallest that is none, and numbers of deleted states come back
(`Edit.deletion_comes_back`).

Most edits give out no number (`Automaton.NoStateAdded`): they take states and
transitions out, or change marks, names and the alphabet. The others add states
under numbers of the caller, or a fresh one. In any case the counter stands still or
moves on to the number after a state (`Edit.Evolves`). So it is always above all
numbers that have been given out, and next to the largest of them (`Edit.Counted`).

The statement is proved in two steps: what one edit does to any well-formed
automaton (`Edit.evolves_apply`), with a case for each edit, and from this what
holds along a script (`Edit.Counted.concat`).
-/

namespace OmegaControl

namespace Automaton

variable {g h k : Automaton}

/-! ## Operations that add no state
 -/

/-- `h` is a well-formed automaton with states of `g`, and no number has been given
out. Edits of events and names lead to such an automaton, and so does whatever
deletes states or transitions. -/
structure NoStateAdded (h g : Automaton) : Prop where
  wellFormed : h.WellFormed
  states_subset : h.states ⊆ g.states
  nextState_eq : h.nextState = g.nextState

/-- One such operation after another is such an operation. -/
theorem NoStateAdded.trans (hkh : k.NoStateAdded h) (hhg : h.NoStateAdded g) : k.NoStateAdded g where
  wellFormed := hkh.wellFormed
  states_subset x hx := hhg.states_subset x (hkh.states_subset x hx)
  nextState_eq := hkh.nextState_eq.trans hhg.nextState_eq

namespace WellFormed

variable (hg : g.WellFormed)
include hg

theorem noStateAdded : g.NoStateAdded g := ⟨hg, fun _ hx => hx, rfl⟩

theorem noStateAdded_insertEvent (ev : EventId) : (g.insertEvent ev).NoStateAdded g :=
  ⟨hg.insertEvent ev, fun _ hx => hx, rfl⟩

theorem noStateAdded_insertEvents (events : EventSet) : (g.insertEvents events).NoStateAdded g :=
  ⟨hg.insertEvents events, fun _ hx => hx, rfl⟩

theorem noStateAdded_copyEventNames (other : Automaton) :
    (g.copyEventNames other).NoStateAdded g := by
  obtain ⟨names, hnames⟩ := copyEventNames_eq g other
  refine ⟨hg.copyEventNames other, ?_, ?_⟩
  · rw [hnames]
    exact fun _ hx => hx
  · rw [hnames]

theorem noStateAdded_setEventName (ev : EventId) (name : String) :
    (g.setEventName ev name).NoStateAdded g := by
  refine ⟨hg.setEventName ev name, fun x hx => ?_, ?_⟩
  · rw [Automaton.setEventName] at hx
    split at hx <;> exact hx
  · rw [Automaton.setEventName]
    split <;> rfl

theorem noStateAdded_setStateName (x : StateId) (name : String) :
    (g.setStateName x name).NoStateAdded g := by
  refine ⟨hg.setStateName x name, fun y hy => ?_, ?_⟩
  · rw [Automaton.setStateName] at hy
    split at hy <;> exact hy
  · rw [Automaton.setStateName]
    split <;> rfl

/-- Deleting states leaves the counter as it is, so that their numbers are not given
out again. -/
theorem noStateAdded_deleteStates (dead : StateSet) : (g.deleteStates dead).NoStateAdded g where
  wellFormed := hg.deleteStates dead
  states_subset _ hx := (mem_states_deleteStates.mp hx).1
  nextState_eq := by
    rw [Automaton.deleteStates]
    split <;> rfl

theorem noStateAdded_restrictStates (keep : StateSet) :
    (g.restrictStates keep).NoStateAdded g := hg.noStateAdded_deleteStates _

theorem noStateAdded_trim : g.trim.NoStateAdded g :=
  have haccessible := hg.noStateAdded_restrictStates g.accessibleSet
  (haccessible.wellFormed.noStateAdded_restrictStates _).trans haccessible

/-- The rounds that take out states without a way to go on forever add none. -/
theorem noStateAdded_settle : g.settle.NoStateAdded g := by
  fun_induction settle g with
  | case1 g rest _ ih =>
    have hco := hg.noStateAdded_restrictStates g.coaccessibleSet
    have hrest : rest.NoStateAdded g := (hco.wellFormed.noStateAdded_deleteStates _).trans hco
    exact (ih hrest.wellFormed).trans hrest
  | case2 g rest _ =>
    have hco := hg.noStateAdded_restrictStates g.coaccessibleSet
    exact (hco.wellFormed.noStateAdded_deleteStates _).trans hco

theorem noStateAdded_omegaTrim : g.omegaTrim.NoStateAdded g :=
  have haccessible := hg.noStateAdded_restrictStates g.accessibleSet
  haccessible.wellFormed.noStateAdded_settle.trans haccessible

theorem noStateAdded_eraseTransition (t : Transition) : (g.eraseTransition t).NoStateAdded g :=
  ⟨hg.foldl_eraseTransition [t], fun _ hx => hx, rfl⟩

/-- What is done to a candidate to make it controllable is to delete states,
whatever the plant is. -/
theorem noStateAdded_controllablePart (plant : Automaton) (controllable : EventSet) :
    (controllablePart plant controllable g).NoStateAdded g := by
  rw [controllablePart]
  split
  · exact hg.noStateAdded
  · exact hg.noStateAdded_restrictStates _

/-- The number of a state has been given out, so a transition between states moves no counter. -/
theorem noStateAdded_insertTransition {t : Transition} (hsource : t.source ∈ g.states)
    (htarget : t.target ∈ g.states) : (g.insertTransition t).NoStateAdded g where
  wellFormed := hg.insertTransition t
  states_subset x hx := by
    rcases IdentSet.mem_insert.mp hx with rfl | hx
    · exact htarget
    rcases IdentSet.mem_insert.mp hx with rfl | hx
    · exact hsource
    · exact hx
  nextState_eq := by
    have hs := hg.lt_nextState _ hsource
    have ht := hg.lt_nextState _ htarget
    change max (max g.nextState (t.source.index + 1)) (t.target.index + 1) = g.nextState
    omega

/-- Nor do many transitions, as long as they lead from states to states. -/
theorem noStateAdded_foldl_insertTransition {ts : List Transition}
    (hts : ∀ t ∈ ts, t.source ∈ g.states ∧ t.target ∈ g.states) :
    (ts.foldl Automaton.insertTransition g).NoStateAdded g := by
  induction ts generalizing g with
  | nil => exact hg.noStateAdded
  | cons t ts ih =>
    obtain ⟨⟨hsource, htarget⟩, hts⟩ := List.forall_mem_cons.mp hts
    have hstay : ∀ {x}, x ∈ g.states → x ∈ (g.insertTransition t).states := fun hx =>
      IdentSet.mem_insert.mpr (.inr (IdentSet.mem_insert.mpr (.inr hx)))
    have hfirst := hg.noStateAdded_insertTransition hsource htarget
    exact (ih hfirst.wellFormed fun u hu => ⟨hstay (hts u hu).1, hstay (hts u hu).2⟩).trans hfirst

/-- The loops that are added lead from states to themselves. -/
theorem noStateAdded_inverseProject (events : EventSet) :
    (g.inverseProject events).NoStateAdded g := by
  have hloops : ∀ t ∈ g.states.toList.flatMap fun x =>
      (events \ g.alphabet).toList.map fun ev => (⟨x, ev, x⟩ : Transition),
      t.source ∈ g.states ∧ t.target ∈ g.states := fun t ht => by
    obtain ⟨x, hx, ht⟩ := List.mem_flatMap.mp ht
    obtain ⟨ev, -, rfl⟩ := List.mem_map.mp ht
    exact ⟨IdentSet.mem_toList.mp hx, IdentSet.mem_toList.mp hx⟩
  have hevents := hg.noStateAdded_insertEvents (events \ g.alphabet)
  exact (hevents.wellFormed.noStateAdded_foldl_insertTransition hloops).trans hevents

end WellFormed

end Automaton

/-! ## Making a candidate normal

The candidate and its observer are changed together, so both have to be followed. -/

namespace NormalPart

/-- Neither the candidate nor the observer has been given a state. -/
structure NoStateAdded (c' c : ObservedCandidate) : Prop where
  cand : c.cand.WellFormed → c'.cand.NoStateAdded c.cand
  observer : c.observer.WellFormed → c'.observer.NoStateAdded c.observer

theorem NoStateAdded.refl (c : ObservedCandidate) : NoStateAdded c c :=
  ⟨(·.noStateAdded), (·.noStateAdded)⟩

/-- Each step of the loop takes a transition from one of the two, or states from the
candidate. -/
theorem keptByReduction_noStateAdded (c : ObservedCandidate) :
    KeptByReduction (NoStateAdded · c) where
  eraseObserver _ t h :=
    { h with observer := fun hwf =>
        ((h.observer hwf).wellFormed.noStateAdded_eraseTransition t).trans (h.observer hwf) }
  eraseCand _ t h :=
    { h with cand := fun hwf =>
        ((h.cand hwf).wellFormed.noStateAdded_eraseTransition t).trans (h.cand hwf) }
  deleteStates _ dead h :=
    { h with cand := fun hwf =>
        ((h.cand hwf).wellFormed.noStateAdded_deleteStates dead).trans (h.cand hwf) }

theorem noStateAdded_normalPart (plant : Automaton) (permitted : EventSet)
    (c : ObservedCandidate) : NoStateAdded (normalPart plant permitted c) c :=
  (keptByReduction_noStateAdded c).normalPart plant permitted (.refl c)

end NormalPart

namespace Automaton

/-! ## The smallest number that is left

This is asked for only when the counter has run out. -/

/-- The gap is not below the number that the search for it starts from. -/
theorem le_firstGap (n : ℕ) (xs : List StateId) : n ≤ firstGap n xs := by
  fun_induction firstGap n xs with
  | case1 n => exact Nat.le_refl n
  | case2 x xs ih => exact Nat.le_of_succ_le ih
  | case3 n x xs _ => exact Nat.le_refl n

/-- A gap in an ascending list: no member has this number, and all smaller numbers are those of
members. -/
theorem firstGap_spec {n : ℕ} {xs : List StateId} (hxs : xs.Pairwise (·.index < ·.index))
    (hn : ∀ x ∈ xs, n ≤ x.index) : (∀ x ∈ xs, x.index ≠ firstGap n xs) ∧
      ∀ i, n ≤ i → i < firstGap n xs → ∃ x ∈ xs, x.index = i := by
  fun_induction firstGap n xs with
  | case1 n => exact ⟨by simp, fun i hle hlt => absurd hlt (Nat.not_lt.mpr hle)⟩
  | case2 x xs ih =>
    obtain ⟨hx, hxs⟩ := List.pairwise_cons.mp hxs
    obtain ⟨hgap, hbelow⟩ := ih hxs hx
    have hle := le_firstGap (x.index + 1) xs
    refine ⟨List.forall_mem_cons.mpr ⟨by omega, hgap⟩, fun i hi hlt => ?_⟩
    rcases Nat.eq_or_lt_of_le hi with rfl | hi
    · exact ⟨x, List.mem_cons_self, rfl⟩
    · obtain ⟨y, hy, rfl⟩ := hbelow i hi hlt
      exact ⟨y, List.mem_cons_of_mem x hy, rfl⟩
  | case3 n x xs hne =>
    refine ⟨?_, fun i hle hlt => absurd hlt (Nat.not_lt.mpr hle)⟩
    obtain ⟨hx, hxs⟩ := List.pairwise_cons.mp hxs
    have hfirst := hn x List.mem_cons_self
    refine List.forall_mem_cons.mpr ⟨hne, fun y hy => ?_⟩
    have := hx y hy
    omega

variable {g : Automaton} {x : StateId}

/-- The reserved number is never given out. -/
theorem WellFormed.freshState_ne_first (hg : g.WellFormed) : g.freshState ≠ .first := by
  refine fun heq => absurd (congrArg Ident.index heq) (Nat.pos_iff_ne_zero.mp ?_)
  rw [freshState]
  split
  next hlt =>
    rw [Ident.index_ofIndex hlt]
    exact hg.nextState_pos
  next =>
    have hpos := le_firstGap 1 g.states.toList
    rw [Ident.index_ofIndex ((Nat.min_le_right ..).trans_lt (by decide))]
    exact Nat.le_min.mpr ⟨hpos, by decide⟩

/-- Once the numbers have run out, the smallest one that is left is given out. If
none is left, the number given out is in use, which is why some `y` is asked for. -/
theorem freshState_of_size_le (hge : UInt32.size ≤ g.nextState) (hfirst : .first ∉ g.states)
    {y : StateId} (hy : y ≠ .first) (hleft : y ∉ g.states) :
    g.freshState.index ≤ y.index ∧ g.freshState ∉ g.states := by
  have hpos : ∀ {x : StateId}, x ≠ .first → 1 ≤ x.index := fun hx =>
    Nat.pos_of_ne_zero fun h => hx (Ident.index_injective h)
  obtain ⟨hgap, hbelow⟩ := firstGap_spec g.states.toList_sorted (n := 1) fun x hx =>
    hpos fun heq => hfirst (heq ▸ IdentSet.mem_toList.mp hx)
  have hle : firstGap 1 g.states.toList ≤ y.index := by
    by_contra hlt
    obtain ⟨x, hx, heq⟩ := hbelow y.index (hpos hy) (Nat.lt_of_not_le hlt)
    exact hleft (Ident.index_injective heq ▸ IdentSet.mem_toList.mp hx)
  have hlt := y.index_lt
  have hindex : g.freshState.index = firstGap 1 g.states.toList := by
    rw [freshState, if_neg (Nat.not_lt.mpr hge), Nat.min_eq_left (by omega),
      Ident.index_ofIndex (by omega)]
  exact ⟨hindex ▸ hle, fun hmem => hgap _ (IdentSet.mem_toList.mpr hmem) hindex⟩

/-! ## One edit
 -/

variable {h : Automaton} {named : List StateId}

/-- `h` comes after `g`: it has states that `g` has, named ones and the fresh one, and the counter
has moved on to the number after a state, if it has moved. -/
structure Evolves (named : List StateId) (g h : Automaton) : Prop where
  wellFormed : h.WellFormed
  /-- a state that is new was named by the caller or is the fresh one -/
  mem_states : ∀ x ∈ h.states, x ∈ g.states ∨ x ∈ named ∨ x = g.freshState
  nextState_le : g.nextState ≤ h.nextState
  nextState_eq : h.nextState = g.nextState ∨ ∃ y ∈ h.states, y.index + 1 = h.nextState

theorem NoStateAdded.evolves (hadded : h.NoStateAdded g) : Evolves named g h where
  wellFormed := hadded.wellFormed
  mem_states x hx := .inl (hadded.states_subset x hx)
  nextState_le := hadded.nextState_eq.ge
  nextState_eq := .inl hadded.nextState_eq

/-- Adding a state moves the counter to the number after it, unless the counter is
further on. -/
theorem WellFormed.evolves_insertStateWithId (hg : g.WellFormed)
    (hx : x ∈ named ∨ x = g.freshState) : Evolves named g (g.insertStateWithId x) where
  wellFormed := hg.insertStateWithId x
  mem_states y hy := by
    rcases IdentSet.mem_insert.mp hy with rfl | hy
    · exact .inr hx
    · exact .inl hy
  nextState_le := Nat.le_max_left ..
  nextState_eq := by
    rcases Nat.le_total g.nextState (x.index + 1) with hle | hle
    · exact .inr ⟨x, IdentSet.mem_insert.mpr (.inl rfl), (Nat.max_eq_right hle).symm⟩
    · exact .inl (Nat.max_eq_left hle)

/-- A transition adds the states that it joins, if they are not there. These are the
states that it names, so what has been there before stays as it is. -/
theorem WellFormed.evolves_insertTransition (hg : g.WellFormed) (t : Transition) :
    Evolves [t.source, t.target] g (g.insertTransition t) where
  wellFormed := hg.insertTransition t
  mem_states x hx := by
    rcases IdentSet.mem_insert.mp hx with rfl | hx
    · simp
    rcases IdentSet.mem_insert.mp hx with rfl | hx
    · simp
    · exact .inl hx
  nextState_le := (Nat.le_max_left ..).trans (Nat.le_max_left ..)
  nextState_eq := by
    have hsource : t.source ∈ (g.insertTransition t).states :=
      IdentSet.mem_insert.mpr (.inr (IdentSet.mem_insert.mpr (.inl rfl)))
    have htarget : t.target ∈ (g.insertTransition t).states := IdentSet.mem_insert.mpr (.inl rfl)
    have hnext : (g.insertTransition t).nextState =
      max (max g.nextState (t.source.index + 1)) (t.target.index + 1) := rfl
    rcases Nat.le_total (max g.nextState (t.source.index + 1)) (t.target.index + 1) with hle | hle
    · exact .inr ⟨t.target, htarget, by omega⟩
    rcases Nat.le_total g.nextState (t.source.index + 1) with hle' | hle'
    · exact .inr ⟨t.source, hsource, by omega⟩
    · exact .inl (by omega)

end Automaton

namespace Edit

open Automaton

/-- **What one edit does** to a well-formed automaton. The edits that add states are
those that name them, and the three that add a fresh one; all others add none. -/
theorem evolves_apply {g : Automaton} (hg : g.WellFormed) (e : Edit) :
    Evolves e.namedStates g (e.apply g).2 := by
  cases e with
  -- edits that add a state
  | insertState => exact hg.evolves_insertStateWithId (.inr rfl)
  | insertInitialState =>
    exact { hg.evolves_insertStateWithId (x := g.freshState) (.inr rfl) with
      wellFormed := hg.setInitialState g.freshState }
  | insertMarkedState =>
    exact { hg.evolves_insertStateWithId (x := g.freshState) (.inr rfl) with
      wellFormed := hg.setMarkedState g.freshState }
  | insertStateWithId x => exact hg.evolves_insertStateWithId (.inl List.mem_cons_self)
  | setInitialState x =>
    exact { hg.evolves_insertStateWithId (x := x) (.inl List.mem_cons_self) with
      wellFormed := hg.setInitialState x }
  | setMarkedState x =>
    exact { hg.evolves_insertStateWithId (x := x) (.inl List.mem_cons_self) with
      wellFormed := hg.setMarkedState x }
  | insertTransition t => exact hg.evolves_insertTransition t
  -- edits that change names, events, marks or transitions
  | setName name => exact NoStateAdded.evolves ⟨hg.setName name, fun _ hx => hx, rfl⟩
  | insertEvent ev => exact (hg.noStateAdded_insertEvent ev).evolves
  | insertEvents events => exact (hg.noStateAdded_insertEvents events).evolves
  | insertNamedEvent ev name =>
    have hinsert := hg.noStateAdded_insertEvent ev
    exact ((hinsert.wellFormed.noStateAdded_setEventName ev name).trans hinsert).evolves
  | setEventName ev name => exact (hg.noStateAdded_setEventName ev name).evolves
  | copyEventNames other => exact (hg.noStateAdded_copyEventNames other).evolves
  | clearInitialState x => exact NoStateAdded.evolves ⟨hg.clearInitialState x, fun _ hx => hx, rfl⟩
  | clearMarkedState x => exact NoStateAdded.evolves ⟨hg.clearMarkedState x, fun _ hx => hx, rfl⟩
  | replaceMarking xs => exact NoStateAdded.evolves ⟨hg.replaceMarking xs, fun _ hx => hx, rfl⟩
  | markAllStates => exact NoStateAdded.evolves ⟨hg.markAllStates, fun _ hx => hx, rfl⟩
  | eraseTransition t => exact (hg.noStateAdded_eraseTransition t).evolves
  | retainTransitions keep =>
    exact NoStateAdded.evolves ⟨hg.retainTransitions keep, fun _ hx => hx, rfl⟩
  | applyFeedback feedback =>
    exact NoStateAdded.evolves ⟨hg.retainTransitions _, fun _ hx => hx, rfl⟩
  | setStateNamesEnabled enabled =>
    exact NoStateAdded.evolves ⟨hg.setStateNamesEnabled enabled, fun _ hx => hx, rfl⟩
  | setStateName x name => exact (hg.noStateAdded_setStateName x name).evolves
  | inverseProject events => exact (hg.noStateAdded_inverseProject events).evolves
  -- edits that delete states
  | deleteState x => exact (hg.noStateAdded_deleteStates _).evolves
  | deleteStates xs => exact (hg.noStateAdded_deleteStates xs).evolves
  | restrictStates xs => exact (hg.noStateAdded_restrictStates xs).evolves
  | clearStates => exact (hg.noStateAdded_deleteStates g.states).evolves
  | accessible => exact (hg.noStateAdded_restrictStates g.accessibleSet).evolves
  | coaccessible => exact (hg.noStateAdded_restrictStates g.coaccessibleSet).evolves
  | complete => exact (hg.noStateAdded_deleteStates g.blockingSet).evolves
  | trim => exact hg.noStateAdded_trim.evolves
  | omegaTrim => exact hg.noStateAdded_omegaTrim.evolves
  | controllablePart plant controllable =>
    exact (hg.noStateAdded_controllablePart plant controllable).evolves
  | normalPart plant permitted observer =>
    exact ((NormalPart.noStateAdded_normalPart plant permitted ⟨observer, g⟩).cand hg).evolves
  | observeNormalPart plant permitted cand =>
    exact ((NormalPart.noStateAdded_normalPart plant permitted ⟨g, cand⟩).observer hg).evolves
  | restrictToEnforceable controllable plantMarking =>
    rw [apply, value_restrictToEnforceable]
    exact (hg.noStateAdded_restrictStates _).evolves
  | restrictWithFeedback controllable plantMarking =>
    rw [apply, value_restrictWithFeedback]
    exact (hg.noStateAdded_restrictStates _).evolves
  | restrictObserved controllable plantMarking classes =>
    rw [apply, value_restrictObserved]
    exact (hg.noStateAdded_restrictStates _).evolves

/-! ## A script of edits
 -/

variable {g : Automaton} {edits : List Edit} {x y : StateId}

/-- `x` was a state before the edits of a script or after some of them. It may have
been deleted since. -/
def Met (g : Automaton) (edits : List Edit) (x : StateId) : Prop :=
  ∃ before, before <+: edits ∧ x ∈ (applyAll g before).states

theorem applyAll_concat (g : Automaton) (edits : List Edit) (e : Edit) :
    applyAll g (edits ++ [e]) = (e.apply (applyAll g edits)).2 := List.foldl_concat ..

/-- One more edit may bring in states, and takes none of those that there were from
the past. -/
theorem met_concat {e : Edit} :
    Met g (edits ++ [e]) x ↔ Met g edits x ∨ x ∈ (applyAll g (edits ++ [e])).states := by
  constructor
  · rintro ⟨before, hbefore, hx⟩
    rcases List.prefix_concat_iff.mp hbefore with rfl | hbefore
    · exact .inr hx
    · exact .inl ⟨before, hbefore, hx⟩
  · rintro (⟨before, hbefore, hx⟩ | hx)
    · exact ⟨before, hbefore.trans (List.prefix_append edits [e]), hx⟩
    · exact ⟨_, List.prefix_rfl, hx⟩

/-- The counter is above the numbers of all states that there ever were, and next to the largest
of them. -/
structure Counted (g : Automaton) (edits : List Edit) : Prop where
  wellFormed : (applyAll g edits).WellFormed
  ne_first : ∀ {x}, Met g edits x → x ≠ .first
  lt_nextState : ∀ {x}, Met g edits x → x.index < (applyAll g edits).nextState
  /-- at the beginning the counter is at one, the number after the reserved one -/
  nextState_eq : (applyAll g edits).nextState = 1 ∨
    ∃ y, Met g edits y ∧ y.index + 1 = (applyAll g edits).nextState

/-- Before any edit there are no states, and there have been none. -/
theorem counted_nil (name : String) : Counted (.new name) [] where
  wellFormed := .new name
  ne_first := fun ⟨before, hbefore, hx⟩ => by
    obtain rfl := List.prefix_nil.mp hbefore
    exact absurd hx IdentSet.not_mem_empty
  lt_nextState := fun ⟨before, hbefore, hx⟩ => by
    obtain rfl := List.prefix_nil.mp hbefore
    exact absurd hx IdentSet.not_mem_empty
  nextState_eq := .inl rfl

theorem met_of_mem (hx : x ∈ (applyAll g edits).states) : Met g edits x :=
  ⟨edits, List.prefix_rfl, hx⟩

/-- One more edit. A fresh state has the number of the counter, or the numbers have
run out; then the counter is next to the largest number and stays there. -/
theorem Counted.concat (hc : Counted g edits) {e : Edit} (hnamed : .first ∉ e.namedStates) :
    Counted g (edits ++ [e]) := by
  have he := applyAll_concat g edits e ▸ evolves_apply hc.wellFormed e
  have hold : ∀ {y}, Met g edits y → Met g (edits ++ [e]) y := fun hy => met_concat.mpr (.inl hy)
  refine ⟨he.wellFormed, fun {x} hx => ?_, fun {x} hx => ?_, ?_⟩
  · rcases met_concat.mp hx with hx | hx
    · exact hc.ne_first hx
    rcases he.mem_states x hx with hx | hx | rfl
    · exact hc.ne_first (met_of_mem hx)
    · exact fun heq => hnamed (heq ▸ hx)
    · exact hc.wellFormed.freshState_ne_first
  · rcases met_concat.mp hx with hx | hx
    · exact (hc.lt_nextState hx).trans_le he.nextState_le
    · exact he.wellFormed.lt_nextState x hx
  · rcases he.nextState_eq with heq | ⟨y, hy, heq⟩
    · rw [heq]
      exact hc.nextState_eq.imp_right fun ⟨y, hy, heq⟩ => ⟨y, hold hy, heq⟩
    · exact .inr ⟨y, met_of_mem hy, heq⟩

/-- **All edits of a script together**, applied to an automaton without states. -/
theorem counted_new (name : String) (hnamed : ∀ e ∈ edits, .first ∉ e.namedStates) :
    Counted (.new name) edits := by
  induction edits using List.reverseRecOn with
  | nil => exact counted_nil name
  | append_singleton edits e ih =>
    have hlast := hnamed e (List.mem_concat_self)
    exact (ih fun e he => hnamed e (List.mem_append_left _ he)).concat hlast

/-- **Fresh states.** After any edits of an automaton without states it is well-formed. If some
number is left, a fresh state is none of its states, and has been none as long as the largest number
was not that of a state; from then on it is the smallest that is none. -/
theorem applyAll_spec (name : String) (edits : List Edit)
    (hnamed : ∀ e ∈ edits, .first ∉ e.namedStates) :
    let g := applyAll (.new name) edits
    let x := g.insertState.1
    g.WellFormed ∧ x ≠ .first ∧ ((∃ y, y ≠ .first ∧ y ∉ g.states) →
      x ∉ g.states ∧
      (¬Met (.new name) edits .last → ¬Met (.new name) edits x) ∧
      (Met (.new name) edits .last → ∀ y, y ≠ .first → y ∉ g.states → x.index ≤ y.index)) := by
  intro g x
  have hc := counted_new name hnamed
  refine ⟨hc.wellFormed, hc.wellFormed.freshState_ne_first, fun ⟨y, hy, hleft⟩ => ?_⟩
  rcases Nat.lt_or_ge g.nextState UInt32.size with hlt | hge
  · -- the counter is above all numbers that have been given out
    have hindex : x.index = g.nextState := (hc.wellFormed.freshState_spec hlt).1
    have hnever : ¬Met (.new name) edits x := fun hx => (hc.lt_nextState hx).ne hindex
    refine ⟨fun hx => hnever (met_of_mem hx), fun _ => hnever, fun hlast => ?_⟩
    exact absurd (hc.lt_nextState hlast) (Nat.not_lt.mpr (Nat.le_of_lt_succ hlt))
  · -- the counter is next to the largest number that has been given out, which is the last one
    have hlast : Met (.new name) edits .last := by
      rcases hc.nextState_eq with heq | ⟨z, hz, heq⟩
      · exact absurd (heq ▸ hge) (by decide)
      · have hge : UInt32.size ≤ z.index + 1 := heq ▸ hge
        have hlt := z.index_lt
        obtain rfl : z = .last := Ident.index_injective (show z.index = UInt32.size - 1 by omega)
        exact hz
    have hfirst : .first ∉ g.states := fun hmem => hc.ne_first (met_of_mem hmem) rfl
    exact ⟨(freshState_of_size_le hge hfirst hy hleft).2, fun hnot => absurd hlast hnot,
      fun _ z hz hfree => (freshState_of_size_le hge hfirst hz hfree).1⟩

/-- A script that deletes a state, and then uses the largest number. The counter has
run out then. -/
def deletion : List Edit :=
  [.insertInitialState, .insertState, .deleteState ⟨2⟩, .setMarkedState .last]

/-- The number of the deleted state comes back. As the counter has run out, numbers
are looked for from below, and the gap that the deletion has left is the lowest one. -/
theorem deletion_comes_back : (∀ e ∈ deletion, .first ∉ e.namedStates) ∧
    (applyAll (.new "deletion") deletion).WellFormed ∧
    (applyAll (.new "deletion") deletion).insertState.1 = ⟨2⟩ ∧
    Met (.new "deletion") deletion ⟨2⟩ := by
  have hnamed : ∀ e ∈ deletion, .first ∉ e.namedStates := by decide
  obtain ⟨hwf, hfirst, hfresh⟩ := applyAll_spec "deletion" deletion hnamed
  have hlast : Met (.new "deletion") deletion .last := met_of_mem (by decide +kernel)
  have hleft : ⟨2⟩ ∉ (applyAll (.new "deletion") deletion).states := by decide +kernel
  obtain ⟨hnew, -, hsmallest⟩ := hfresh ⟨⟨2⟩, by decide, hleft⟩
  have hle := hsmallest hlast ⟨2⟩ (by decide) hleft
  refine ⟨hnamed, hwf, ?_, deletion.take 2, List.take_prefix .., by decide +kernel⟩
  generalize (applyAll (.new "deletion") deletion).insertState.1 = x at hfirst hnew hle
  -- the number is 1 or 2, and 1 is that of a state
  have hpos : x.index ≠ 0 := fun h => hfirst (Ident.index_injective h)
  have hone : x.index ≠ 1 := fun h => by
    obtain rfl : x = ⟨1⟩ := Ident.index_injective h
    exact hnew (by decide +kernel)
  have hle : x.index ≤ 2 := hle
  exact Ident.index_injective (show x.index = 2 by omega)

end Edit

end OmegaControl
