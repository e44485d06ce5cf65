import Mathlib.Tactic.Tauto
import OmegaControl.Automaton.Numbering
import OmegaControl.Proofs.WellFormed

/-!
# States that stand for values

As long as numbers do not run out, every value that gets a state gets one of its own
(`IsNumbering`), and the steps between values become the transitions between their
states (`mem_transitions_insertSteps`).

Products, observers and copies of an automaton are built in this way: values are
found by a walk, each gets a state, and then the transitions are inserted.
Identifiers have 32 bits, so a bound on the number of values is part of every
statement here; beyond it a state would be given away twice.
-/

namespace OmegaControl

variable {α : Type} [Ord α] [Std.TransOrd α] [Std.LawfulEqOrd α]

/-- What a map says after one more value has been added: the new number for the new
value, and what it said before for all others. -/
theorem getElem?_insert_iff {β : Type} {m : Std.ExtTreeMap α β} {v w : α} {x y : β} :
    (m.insert v x)[w]? = some y ↔ (w = v ∧ x = y) ∨ (w ≠ v ∧ m[w]? = some y) := by
  rw [Std.ExtTreeMap.getElem?_insert]
  by_cases h : v = w
  · simp [h]
  · rw [if_neg (by simpa using h)]
    simp [Ne.symm h]

omit [Std.LawfulEqOrd α] in
/-- A map grows by one if the value is new. -/
theorem size_insert_of_not_mem {β : Type} {m : Std.ExtTreeMap α β} {v : α} {x : β} (h : v ∉ m) :
    (m.insert v x).size = m.size + 1 := by
  rw [Std.ExtTreeMap.size_insert, if_neg (by rwa [Std.ExtTreeMap.contains_iff_mem])]

/-- Different values keep different numbers if a new number is given to one more
value. -/
theorem injective_insert {β : Type} {m : Std.ExtTreeMap α β} {v w w' : α} {x y : β}
    (hinjective : ∀ {w w' : α} {y : β}, m[w]? = some y → m[w']? = some y → w = w')
    (hout : ∀ w : α, m[w]? ≠ some x) (hw : (m.insert v x)[w]? = some y)
    (hw' : (m.insert v x)[w']? = some y) : w = w' := by
  rcases getElem?_insert_iff.mp hw with ⟨rfl, rfl⟩ | ⟨-, hold⟩
  · rcases getElem?_insert_iff.mp hw' with ⟨rfl, -⟩ | ⟨-, hold'⟩
    · rfl
    · exact absurd hold' (hout w')
  · rcases getElem?_insert_iff.mp hw' with ⟨rfl, rfl⟩ | ⟨-, hold'⟩
    · exact absurd hold (hout w)
    · exact hinjective hold hold'

/-- A map that is made from a list with each key once holds the pairs of the list. -/
theorem getElem?_ofList_eq_some [DecidableEq α] {β : Type} {l : List (α × β)}
    (h : (l.map Prod.fst).Nodup) {v : α} {x : β} :
    (Std.ExtTreeMap.ofList l)[v]? = some x ↔ (v, x) ∈ l := by
  have hdistinct : l.Pairwise fun a b => ¬compare a.1 b.1 = .eq :=
    (List.pairwise_map.mp h).imp fun hne he => hne (Std.compare_eq_iff_eq.mp he)
  have hget : ∀ {y}, (v, y) ∈ l → (Std.ExtTreeMap.ofList l)[v]? = some y := fun hy =>
    Std.ExtTreeMap.getElem?_ofList_of_mem Std.compare_self hdistinct hy
  refine ⟨fun hx => ?_, hget⟩
  have hmem : v ∈ Std.ExtTreeMap.ofList l := by
    rw [Std.ExtTreeMap.mem_iff_isSome_getElem?, hx]
    rfl
  rw [Std.ExtTreeMap.mem_ofList, List.contains_iff_mem, List.mem_map] at hmem
  obtain ⟨⟨v, y⟩, hy, rfl⟩ := hmem
  obtain rfl := Option.some.inj ((hget hy).symm.trans hx)
  exact hy

/-- What is noted under the numbers of values, if different values have different numbers. -/
theorem getElem?_ofList_numbers {β : Type} {numbers : Std.ExtTreeMap α StateId} {x : StateId} {b : β}
    (hinjective : ∀ {v w : α} {x : StateId}, numbers[v]? = some x → numbers[w]? = some x → v = w)
    (f : α → β) : (Std.ExtTreeMap.ofList (numbers.toList.map fun (v, x) => (x, f v)))[x]? = some b ↔
      ∃ v : α, numbers[v]? = some x ∧ f v = b := by
  rw [getElem?_ofList_eq_some, List.mem_map]
  · constructor
    · rintro ⟨⟨v, x⟩, hv, heq⟩
      obtain ⟨rfl, rfl⟩ := Prod.mk.inj heq
      exact ⟨v, Std.ExtTreeMap.mem_toList_iff_getElem?_eq_some.mp hv, rfl⟩
    · rintro ⟨v, hv, rfl⟩
      exact ⟨(v, x), Std.ExtTreeMap.mem_toList_iff_getElem?_eq_some.mpr hv, rfl⟩
  · rw [List.map_map]
    refine List.pairwise_map.mpr (Std.ExtTreeMap.distinct_keys_toList.imp_of_mem ?_)
    rintro ⟨v, x⟩ ⟨w, y⟩ hv hw hne rfl
    rw [Std.ExtTreeMap.mem_toList_iff_getElem?_eq_some] at hv hw
    exact hne (Std.compare_eq_iff_eq.mpr (hinjective hv hw))

namespace Automaton

variable {g : Automaton} {numbers : Std.ExtTreeMap α StateId} {v w : α} {x y : StateId}

/-- A fresh state is none of the states before. -/
theorem WellFormed.freshState_spec (hg : g.WellFormed) (h : g.nextState < UInt32.size) :
    g.freshState.index = g.nextState ∧ g.freshState ∉ g.states := by
  have hindex : g.freshState.index = g.nextState := by
    rw [freshState, if_pos h, Ident.index_ofIndex h]
  refine ⟨hindex, fun hmem => ?_⟩
  have hlt := hg.lt_nextState _ hmem
  rw [hindex] at hlt
  exact Nat.lt_irrefl _ hlt

/-- The states with a number are those that stand for a value, each for one. Numbers
are given away in turn, so the next one tells how many there are. -/
structure IsNumbering (g : Automaton) (numbers : Std.ExtTreeMap α StateId) : Prop where
  wellFormed : g.WellFormed
  /-- as many numbers have been given away as there are values -/
  nextState_eq : g.nextState = numbers.size + 1
  /-- every number is a state -/
  mem_states : ∀ {v : α} {x : StateId}, numbers[v]? = some x → x ∈ g.states
  /-- no state stands for two values -/
  injective : ∀ {v w : α} {x : StateId}, numbers[v]? = some x → numbers[w]? = some x → v = w

/-- One more value gets a state. -/
theorem IsNumbering.insertState (h : g.IsNumbering numbers) (hnew : v ∉ numbers)
    (hsize : numbers.size + 1 < UInt32.size) :
    g.insertState.2.IsNumbering (numbers.insert v g.insertState.1) := by
  obtain ⟨hindex, hfresh⟩ := h.wellFormed.freshState_spec (h.nextState_eq ▸ hsize)
  have hout : ∀ w : α, numbers[w]? ≠ some g.freshState := fun w hw => hfresh (h.mem_states hw)
  refine ⟨h.wellFormed.insertStateWithId _, ?_, fun hw => ?_, injective_insert h.injective hout⟩
  · rw [size_insert_of_not_mem hnew]
    change max g.nextState (g.freshState.index + 1) = _
    rw [hindex, h.nextState_eq]
    omega
  · rcases getElem?_insert_iff.mp hw with ⟨-, rfl⟩ | ⟨-, hw⟩
    · exact IdentSet.mem_insert.mpr (.inl rfl)
    · exact IdentSet.mem_insert.mpr (.inr (h.mem_states hw))

/-- All values of a list get a state, one after the other. Transitions are left
alone, and the values with a number are those of the list and those that had one
before. -/
theorem isNumbering_foldl {values : List α} (hnodup : values.Nodup)
    (hnew : ∀ v ∈ values, v ∉ numbers) (hsize : numbers.size + values.length < UInt32.size)
    (h : g.IsNumbering numbers) :
    let out := values.foldl (fun (g, numbers) v =>
      let (x, g) := g.insertState
      (g, numbers.insert v x)) (g, numbers)
    out.1.IsNumbering out.2 ∧ out.1.transitions = g.transitions ∧
      ∀ v, v ∈ out.2 ↔ v ∈ values ∨ v ∈ numbers := by
  induction values generalizing g numbers with
  | nil => exact ⟨h, rfl, by simp⟩
  | cons v values ih =>
    obtain ⟨hv, hnodup⟩ := List.nodup_cons.mp hnodup
    have hvnew := hnew v List.mem_cons_self
    rw [List.length_cons] at hsize
    have hinsert : ∀ w, w ∈ numbers.insert v g.insertState.1 ↔ w = v ∨ w ∈ numbers := fun w => by
      rw [Std.ExtTreeMap.mem_insert, Std.compare_eq_iff_eq, eq_comm]
    have hgrown := size_insert_of_not_mem (x := g.insertState.1) hvnew
    obtain ⟨hout, htransitions, hmem⟩ := ih hnodup
      (fun w hw hmem => ((hinsert w).mp hmem).elim (fun heq => hv (heq ▸ hw))
        (hnew w (List.mem_cons_of_mem v hw)))
      (by omega) (h.insertState hvnew (by omega))
    refine ⟨hout, htransitions, fun w => ?_⟩
    rw [List.foldl_cons, hmem, hinsert, List.mem_cons]
    tauto

/-- **Numbers for all values** of a list, none of which has one before. -/
theorem isNumbering_insertStatesFor {values : List α} (hnodup : values.Nodup)
    (hsize : values.length < UInt32.size) (h : g.IsNumbering (∅ : Std.ExtTreeMap α StateId)) :
    (g.insertStatesFor values).1.IsNumbering (g.insertStatesFor values).2 ∧
      (g.insertStatesFor values).1.transitions = g.transitions ∧
      ∀ v, v ∈ (g.insertStatesFor values).2 ↔ v ∈ values := by
  obtain ⟨hout, htransitions, hmem⟩ := isNumbering_foldl hnodup
    (fun _ _ => Std.ExtTreeMap.not_mem_empty) (by simpa using hsize) h
  refine ⟨hout, htransitions, fun v => (hmem v).trans ?_⟩
  exact or_iff_left Std.ExtTreeMap.not_mem_empty

/-! ## Transitions

Once all values have a state, the transitions are inserted. They are those between
states of values that have a number, so a step to a value without one would get
lost; in a closed set of values there is none. -/

/-- One more transition, and no other. -/
theorem mem_transitions_insertTransition {s t : Transition} :
    t ∈ (g.insertTransition s).transitions ↔ t = s ∨ t ∈ g.transitions := by
  have hmem : t ∈ g.transitions.insert s ↔ t = s ∨ t ∈ g.transitions := by
    rw [Std.ExtTreeSet.mem_insert, Std.compare_eq_iff_eq, eq_comm]
  exact hmem

theorem mem_transitions_foldl_insertTransition {ts : List Transition} {t : Transition} :
    t ∈ (ts.foldl insertTransition g).transitions ↔ t ∈ ts ∨ t ∈ g.transitions := by
  induction ts generalizing g with
  | nil => simp
  | cons s ts ih =>
    rw [List.foldl_cons, ih, mem_transitions_insertTransition, List.mem_cons]
    tauto

/-- The transitions that are added are the steps between values that have numbers. -/
theorem mem_transitions_insertSteps {steps : α → List (EventId × α)} {t : Transition} :
    t ∈ (g.insertSteps numbers steps).transitions ↔
      (∃ v w, numbers[v]? = some t.source ∧ numbers[w]? = some t.target ∧
        (t.event, w) ∈ steps v) ∨ t ∈ g.transitions := by
  rw [insertSteps, mem_transitions_foldl_insertTransition]
  refine or_congr_left ?_
  simp only [List.mem_flatMap, List.mem_filterMap, Prod.exists, Option.map_eq_some_iff,
    Std.ExtTreeMap.mem_toList_iff_getElem?_eq_some]
  constructor
  · rintro ⟨v, x, hv, ev, w, hstep, y, hw, rfl⟩
    exact ⟨v, w, hv, hw, hstep⟩
  · rintro ⟨v, w, hv, hw, hstep⟩
    exact ⟨v, t.source, hv, t.event, w, hstep, t.target, hw, rfl⟩

omit [Std.LawfulEqOrd α] in
theorem WellFormed.insertSteps (hg : g.WellFormed) (numbers : Std.ExtTreeMap α StateId)
    (steps : α → List (EventId × α)) :
    (g.insertSteps numbers steps).WellFormed := by
  rw [Automaton.insertSteps]
  exact List.foldlRecOn (motive := WellFormed) _ _ hg fun _ hg t _ => hg.insertTransition t

end Automaton

end OmegaControl
