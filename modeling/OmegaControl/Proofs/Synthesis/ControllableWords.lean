import OmegaControl.Proofs.Synthesis.ControllablePart

/-!
# The words of the controllable part

A set of words is prefix-controllable if it has all beginnings of its words and goes
on with every uncontrollable event that the plant goes on with
(`PrefixControllable`). The words of the controllable part are the largest such set
of words of the candidate (`controllablePart_isGreatest`).

This is about words, so of the candidate only those states count that are reached.
They have to tell where the plant is (`KeepsInStep`); the states that are not
reached need not go with any.

The search itself works with sets of states. A prefix-controllable set of words
gives the set of states that its words lead to, which complies; and the states that
are kept comply, so their words are prefix-controllable.
-/

namespace OmegaControl

open Automaton

variable {plant cand : Automaton} {controllable : EventSet} {plantState : StateId → StateId}
  {K : Set (List EventId)} {s : List EventId} {ev : EventId} {x : StateId}

/-! ## In step with the plant

For a candidate that stays within the plant, such a choice of states can always be
made. -/

/-- Words that lead to a state of the candidate lead to the state of the plant that
goes with it. This is all that deleting states needs to know of the plant, and
deleting states keeps it. -/
structure KeepsInStep (plant cand : Automaton) (plantState : StateId → StateId) : Prop where
  plant_isDeterministic : plant.IsDeterministic
  isDeterministic : cand.IsDeterministic
  wellFormed : cand.WellFormed
  /-- the plant is where the state says -/
  reaches : ∀ {s x}, cand.Reaches s x → plant.Reaches s (plantState x)

namespace KeepsInStep

variable (h : KeepsInStep plant cand plantState)
include h

/-- Transitions that are reached are transitions of the plant as well. -/
theorem goesAlongReached : GoesAlongReached plant cand plantState := by
  intro r hr hreached
  obtain ⟨s, hs⟩ := mem_accessibleSet_iff.mp hreached
  obtain ⟨y, hy, ht⟩ := reaches_concat.mp (h.reaches (hs.concat hr))
  exact h.plant_isDeterministic.reaches_unique hy (h.reaches hs) ▸ ht

/-- The search starts with the initial states of both. -/
theorem initialPair?_eq {x₀ : StateId} (hx₀ : x₀ ∈ cand.initial) :
    initialPair? plant cand = some ⟨plantState x₀, x₀⟩ :=
  (initialPair?_eq_some_iff h.plant_isDeterministic h.isDeterministic).mpr
    ⟨reaches_nil.mp (h.reaches (reaches_nil.mpr hx₀)), hx₀⟩

/-- The plant goes on as the state says that goes with the candidate. -/
theorem concat_mem_words_iff (hx : cand.Reaches s x) :
    s ++ [ev] ∈ plant.words ↔ ∃ l ∈ plant.transitions, l.source = plantState x ∧ l.event = ev := by
  rw [h.plant_isDeterministic.concat_mem_words (h.reaches hx)]
  constructor
  · rintro ⟨y, hl⟩
    exact ⟨_, hl, rfl, rfl⟩
  · rintro ⟨l, hl, hsource, rfl⟩
    exact ⟨l.target, mk_mem_transitions hl hsource⟩

end KeepsInStep

/-! ## What the controllable part generates

Both directions of the statement, for a choice of states of the plant that go with
the candidate. -/

/-- All beginnings of the words belong to them, and so do all words that the plant goes on to with
an uncontrollable event. -/
structure PrefixControllable (plant : Automaton) (controllable : EventSet)
    (K : Set (List EventId)) : Prop where
  /-- beginnings are there -/
  mem_of_append : ∀ {s u}, s ++ u ∈ K → s ∈ K
  /-- and uncontrollable events of the plant -/
  complies : ∀ s ∈ K, ∀ ev ∉ controllable, s ++ [ev] ∈ plant.words → s ++ [ev] ∈ K

section

variable (h : KeepsInStep plant cand plantState)
include h

/-- The states that words of the set lead to comply among each other, so none of them is taken away
and no word is lost. -/
theorem PrefixControllable.subset_words_controllablePart
    (hK : PrefixControllable plant controllable K) (hsub : K ⊆ cand.words) :
    K ⊆ (controllablePart plant controllable cand).words := by
  refine (h.wellFormed.isPart_controllablePart _ _).1.subset_words hK.mem_of_append hsub ?_
  rintro s hs _ ⟨x₀, hx₀, ts, hts, rfl, rfl⟩
  refine mem_controllablePart h.isDeterministic.hasUniqueSuccessors h.goesAlongReached
    h.plant_isDeterministic.hasUniqueSuccessors (h.initialPair?_eq hx₀)
    {x | ∃ s ∈ K, cand.Reaches s x} ?_ hts ?_ ?_ ?_
  · rintro x ⟨s, hs, hx⟩ l hl hsource hev
    have hmem := hK.complies s hs l.event hev ((h.concat_mem_words_iff hx).mpr ⟨l, hl, hsource, rfl⟩)
    obtain ⟨y, hy⟩ := (h.isDeterministic.concat_mem_words hx).mp (hsub hmem)
    exact ⟨_, hy, rfl, rfl, _, hmem, hx.concat hy⟩
  · exact ⟨[], hK.mem_of_append (s := []) hs, reaches_nil.mpr hx₀⟩
  · intro t ht
    obtain ⟨us, vs, rfl⟩ := List.append_of_mem ht
    rw [List.append_cons, isPath_append] at hts
    rw [List.append_cons, List.map_append] at hs
    exact ⟨_, hK.mem_of_append hs, x₀, hx₀, _, hts.1, rfl, endOf_concat x₀ us t⟩
  · exact hts.endOf_mem h.wellFormed (h.wellFormed.initial_subset x₀ hx₀)

/-- A state that is kept goes on to states that are kept with all uncontrollable
events, and it is reached. -/
theorem KeepsInStep.complies (hstart : ∃ x₀, x₀ ∈ cand.initial)
    (hx : x ∈ (controllablePart plant controllable cand).states) :
    (∃ s, cand.Reaches s x) ∧
      ∀ l ∈ plant.transitions, l.source = plantState x → l.event ∉ controllable →
        ∃ r ∈ (controllablePart plant controllable cand).transitions, r.source = x ∧
          r.event = l.event ∧ r.target ∈ (controllablePart plant controllable cand).states := by
  obtain ⟨x₀, hx₀⟩ := hstart
  obtain ⟨hcomplies, hreached⟩ := complies_controllablePart h.isDeterministic.hasUniqueSuccessors
    h.goesAlongReached h.plant_isDeterministic.hasUniqueSuccessors (h.initialPair?_eq hx₀) h.wellFormed
    hx
  refine ⟨mem_accessibleSet_iff.mp hreached, fun l hl hsource hev => ?_⟩
  obtain ⟨r, hr, rfl, hevent, htarget⟩ := hcomplies l hl hsource hev
  have hpart := (h.wellFormed.isPart_controllablePart plant controllable).1
  exact ⟨r, hpart.mem_transitions.mpr ⟨hr, hx, htarget⟩, rfl, hevent, htarget⟩

/-- What is left goes along with the uncontrollable events of the plant, word by
word. -/
theorem KeepsInStep.prefixControllable (hstart : ∃ x₀, x₀ ∈ cand.initial) :
    PrefixControllable plant controllable (controllablePart plant controllable cand).words where
  mem_of_append := words_of_append
  complies s hs ev hev hword := by
    obtain ⟨hpart, hwf⟩ := h.wellFormed.isPart_controllablePart plant controllable
    obtain ⟨x, hx⟩ := mem_words_iff.mp hs
    obtain ⟨l, hl, hsource, rfl⟩ :=
      (h.concat_mem_words_iff (hpart.isSubautomaton.reaches hx)).mp hword
    obtain ⟨r, hr, hrsource, hevent, -⟩ := (h.complies hstart (hx.mem_states hwf)).2 l hl hsource hev
    exact (hx.concat (hevent ▸ mk_mem_transitions hr hrsource)).mem_words

end

/-- **The supremal prefix-controllable part**: the words of the controllable part are the largest
prefix-controllable set of words of the candidate, none if the start is lost, and what is left
disables no uncontrollable event of the plant, wherever it is reached. -/
theorem controllablePart_isGreatest (hplant : plant.IsDeterministic) (hcand : cand.IsDeterministic)
    (hwf : cand.WellFormed) (hstart : ∃ x₀, x₀ ∈ cand.initial) (hwithin : cand.StaysWithin plant)
    (controllable : EventSet) :
    IsGreatest {K | PrefixControllable plant controllable K ∧ K ⊆ cand.words}
        (controllablePart plant controllable cand).words ∧
      ((∀ x ∈ cand.initial, x ∉ (controllablePart plant controllable cand).states) →
        (controllablePart plant controllable cand).words = ∅) ∧
      ∀ x ∈ (controllablePart plant controllable cand).states, (∃ s, cand.Reaches s x) ∧
        ∀ s y, cand.Reaches s x → plant.Reaches s y →
          ∀ l ∈ plant.transitions, l.source = y → l.event ∉ controllable →
            ∃ r ∈ (controllablePart plant controllable cand).transitions, r.source = x ∧
              r.event = l.event ∧ r.target ∈ (controllablePart plant controllable cand).states := by
  obtain ⟨plantState, hreaches⟩ := hwithin.exists_reaches
  have h : KeepsInStep plant cand plantState := ⟨hplant, hcand, hwf, hreaches⟩
  have hpart := (hwf.isPart_controllablePart plant controllable).1
  refine ⟨⟨⟨h.prefixControllable hstart, hpart.isSubautomaton.words_subset⟩, ?_⟩, fun hlost => ?_,
    fun x hx => ?_⟩
  · rintro K ⟨hK, hsub⟩
    exact hK.subset_words_controllablePart h hsub
  · refine Set.eq_empty_iff_forall_notMem.mpr fun s hs => ?_
    obtain ⟨x₀, hx₀, -⟩ := hs
    obtain ⟨hx₀, hkept⟩ := hpart.mem_initial.mp hx₀
    exact hlost x₀ hx₀ hkept
  · obtain ⟨hreached, hcomplies⟩ := h.complies hstart hx
    refine ⟨hreached, fun s y hs hy l hl hsource => ?_⟩
    obtain rfl := hplant.reaches_unique (h.reaches hs) hy
    exact hcomplies l hl hsource

/-- A machine that may be kept from failing, but not from being started, must be kept from failing
if it is to be repaired after each failure: the state after a failure is taken away. -/
theorem controllablePart_repairedMachine_isGreatest :
    machine.IsDeterministic ∧ repairedMachine.IsDeterministic ∧ repairedMachine.WellFormed ∧
    (∃ x₀, x₀ ∈ repairedMachine.initial) ∧ repairedMachine.StaysWithin machine ∧
    let part := controllablePart machine (.ofList [⟨3⟩, ⟨4⟩]) repairedMachine
    part.states = .ofList [⟨1⟩, ⟨2⟩] ∧
    IsGreatest {K | PrefixControllable machine (.ofList [⟨3⟩, ⟨4⟩]) K ∧ K ⊆ repairedMachine.words}
      part.words ∧
    ((∀ x ∈ repairedMachine.initial, x ∉ part.states) → part.words = ∅) ∧
    ∀ x ∈ part.states, (∃ s, repairedMachine.Reaches s x) ∧
      ∀ s y, repairedMachine.Reaches s x → machine.Reaches s y →
        ∀ l ∈ machine.transitions, l.source = y → l.event ∉ (.ofList [⟨3⟩, ⟨4⟩] : EventSet) →
          ∃ r ∈ part.transitions, r.source = x ∧ r.event = l.event ∧ r.target ∈ part.states := by
  have hstart : ∃ x₀, x₀ ∈ repairedMachine.initial := ⟨⟨1⟩, by decide +kernel⟩
  exact ⟨machine_isDeterministic, repairedMachine_isDeterministic, repairedMachine_wellFormed, hstart,
    repairedMachine_staysWithin, by decide +kernel,
    controllablePart_isGreatest machine_isDeterministic repairedMachine_isDeterministic
      repairedMachine_wellFormed hstart repairedMachine_staysWithin _⟩

end OmegaControl
