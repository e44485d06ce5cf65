import OmegaControl.Proofs.Path

/-!
# Restrictions

All that deleting states does is to delete states: what is left keeps its
transitions among each other and its marking (`IsPart`). Parts of parts are parts,
so a chain of deletions, however long, is described by the set of states at its end.

A path of the whole is a path of a part if the states it visits are left
(`IsPart.isPath_iff`). This is how questions about what is left are answered in the
automaton one has started from.
-/

namespace OmegaControl.Automaton

variable {g h : Automaton} {dead keep : StateSet} {x : StateId} {t : Transition}

/-! ## Deleting states

The test for whether anything is to be deleted at all makes no difference to what is
left, only to how fast it is found. -/

/-- The states that are left are those that are not deleted. -/
theorem mem_states_deleteStates : x ∈ (g.deleteStates dead).states ↔ x ∈ g.states ∧ x ∉ dead := by
  rw [deleteStates]
  split
  next hdisjoint =>
    exact ⟨fun hx => ⟨hx, fun hd => IdentSet.disjoint_iff.mp hdisjoint x hd hx⟩, And.left⟩
  next => exact IdentSet.mem_sdiff

/-- Deleting states that are none changes nothing, names and counters included. -/
theorem deleteStates_of_disjoint (hdisjoint : ∀ x ∈ g.states, x ∉ dead) :
    g.deleteStates dead = g := by
  rw [deleteStates, if_pos]
  exact IdentSet.disjoint_iff.mpr fun x hd hx => hdisjoint x hx hd

theorem mem_initial_deleteStates (hg : g.WellFormed) :
    x ∈ (g.deleteStates dead).initial ↔ x ∈ g.initial ∧ x ∉ dead := by
  rw [deleteStates]
  split
  next hdisjoint =>
    refine ⟨fun hx => ⟨hx, fun hd => ?_⟩, And.left⟩
    exact IdentSet.disjoint_iff.mp hdisjoint x hd (hg.initial_subset x hx)
  next => exact IdentSet.mem_sdiff

theorem mem_marked_deleteStates (hg : g.WellFormed) :
    x ∈ (g.deleteStates dead).marked ↔ x ∈ g.marked ∧ x ∉ dead := by
  rw [deleteStates]
  split
  next hdisjoint =>
    refine ⟨fun hx => ⟨hx, fun hd => ?_⟩, And.left⟩
    exact IdentSet.disjoint_iff.mp hdisjoint x hd (hg.marked_subset x hx)
  next => exact IdentSet.mem_sdiff

/-- A transition is deleted with the states at its ends. -/
theorem mem_transitions_deleteStates (hg : g.WellFormed) :
    t ∈ (g.deleteStates dead).transitions ↔
      t ∈ g.transitions ∧ t.source ∉ dead ∧ t.target ∉ dead := by
  rw [deleteStates]
  split
  next hdisjoint =>
    have hout := fun x hx hd => IdentSet.disjoint_iff.mp hdisjoint x hd hx
    exact ⟨fun ht => ⟨ht, hout _ (hg.source_mem t ht), hout _ (hg.target_mem t ht)⟩, And.left⟩
  next =>
    have hfilter : t ∈ g.transitions.filter (fun t => t.source ∉ dead ∧ t.target ∉ dead) ↔
        t ∈ g.transitions ∧ t.source ∉ dead ∧ t.target ∉ dead := by
      simp [Std.ExtTreeSet.mem_filter, and_left_comm]
    exact hfilter

/-- No transition is added, even if the automaton is not well formed. -/
theorem mem_of_mem_transitions_deleteStates (ht : t ∈ (g.deleteStates dead).transitions) :
    t ∈ g.transitions := by
  rw [deleteStates] at ht
  split at ht
  · exact ht
  · have ht : t ∈ g.transitions.filter fun t => t.source ∉ dead ∧ t.target ∉ dead := ht
    exact (Std.ExtTreeSet.mem_filter.mp ht).1

@[simp] theorem alphabet_deleteStates : (g.deleteStates dead).alphabet = g.alphabet := by
  rw [deleteStates]
  split <;> rfl

/-- What is left is well formed: the states that are gone have taken their
transitions and their marks with them, and their identifiers are not given away
again. -/
theorem WellFormed.deleteStates (hg : g.WellFormed) (dead : StateSet) :
    (g.deleteStates dead).WellFormed where
  initial_subset x hx := by
    obtain ⟨hx, hd⟩ := (mem_initial_deleteStates hg).mp hx
    exact mem_states_deleteStates.mpr ⟨hg.initial_subset x hx, hd⟩
  marked_subset x hx := by
    obtain ⟨hx, hd⟩ := (mem_marked_deleteStates hg).mp hx
    exact mem_states_deleteStates.mpr ⟨hg.marked_subset x hx, hd⟩
  source_mem t ht := by
    obtain ⟨ht, hd, -⟩ := (mem_transitions_deleteStates hg).mp ht
    exact mem_states_deleteStates.mpr ⟨hg.source_mem t ht, hd⟩
  event_mem t ht := by
    rw [alphabet_deleteStates]
    exact hg.event_mem t ((mem_transitions_deleteStates hg).mp ht).1
  target_mem t ht := by
    obtain ⟨ht, -, hd⟩ := (mem_transitions_deleteStates hg).mp ht
    exact mem_states_deleteStates.mpr ⟨hg.target_mem t ht, hd⟩
  -- if there is nothing to delete, the automaton itself is returned, hence two cases
  named_mem := by
    rw [Automaton.deleteStates]
    split <;> exact hg.named_mem
  names_enabled := by
    rw [Automaton.deleteStates]
    split
    · exact hg.names_enabled
    · intro hoff
      dsimp only
      rw [hg.names_enabled hoff]
      rfl
  nextState_pos := by
    rw [Automaton.deleteStates]
    split <;> exact hg.nextState_pos
  lt_nextState x hx := by
    have hlt := hg.lt_nextState x (mem_states_deleteStates.mp hx).1
    rw [Automaton.deleteStates]
    split <;> exact hlt

theorem WellFormed.restrictStates (hg : g.WellFormed) (keep : StateSet) :
    (g.restrictStates keep).WellFormed := hg.deleteStates _

/-! ## Parts -/

/-- `h` is what is left of `g` if only some of the states are kept. Which ones these
are is read off `h.states`; all the rest follows. -/
structure IsPart (h g : Automaton) : Prop where
  /-- no event is forgotten -/
  alphabet_eq : h.alphabet = g.alphabet
  /-- some states are left -/
  states_subset : h.states ⊆ g.states
  /-- those that are left are initial if they were -/
  mem_initial : ∀ {x}, x ∈ h.initial ↔ x ∈ g.initial ∧ x ∈ h.states
  /-- and marked if they were -/
  mem_marked : ∀ {x}, x ∈ h.marked ↔ x ∈ g.marked ∧ x ∈ h.states
  /-- transitions among them are left -/
  mem_transitions : ∀ {t}, t ∈ h.transitions ↔
    t ∈ g.transitions ∧ t.source ∈ h.states ∧ t.target ∈ h.states

/-- Deleting states leaves a part. -/
theorem WellFormed.isPart_deleteStates (hg : g.WellFormed) (dead : StateSet) :
    (g.deleteStates dead).IsPart g where
  alphabet_eq := alphabet_deleteStates
  states_subset x hx := (mem_states_deleteStates.mp hx).1
  mem_initial {x} := by
    rw [mem_initial_deleteStates hg, mem_states_deleteStates]
    exact ⟨fun ⟨hx, hd⟩ => ⟨hx, hg.initial_subset x hx, hd⟩, fun ⟨hx, _, hd⟩ => ⟨hx, hd⟩⟩
  mem_marked {x} := by
    rw [mem_marked_deleteStates hg, mem_states_deleteStates]
    exact ⟨fun ⟨hx, hd⟩ => ⟨hx, hg.marked_subset x hx, hd⟩, fun ⟨hx, _, hd⟩ => ⟨hx, hd⟩⟩
  mem_transitions {t} := by
    rw [mem_transitions_deleteStates hg, mem_states_deleteStates, mem_states_deleteStates]
    constructor
    · rintro ⟨ht, hs, hd⟩
      exact ⟨ht, ⟨hg.source_mem t ht, hs⟩, hg.target_mem t ht, hd⟩
    · rintro ⟨ht, ⟨-, hs⟩, -, hd⟩
      exact ⟨ht, hs, hd⟩

/-- To restrict to states is to delete all others. -/
theorem mem_states_restrictStates :
    x ∈ (g.restrictStates keep).states ↔ x ∈ g.states ∧ x ∈ keep := by
  rw [restrictStates, mem_states_deleteStates, IdentSet.mem_sdiff]
  tauto

theorem WellFormed.isPart_restrictStates (hg : g.WellFormed) (keep : StateSet) :
    (g.restrictStates keep).IsPart g := hg.isPart_deleteStates _

theorem WellFormed.isPart (hg : g.WellFormed) : g.IsPart g where
  alphabet_eq := rfl
  states_subset _ hx := hx
  mem_initial {x} := ⟨fun hx => ⟨hx, hg.initial_subset x hx⟩, And.left⟩
  mem_marked {x} := ⟨fun hx => ⟨hx, hg.marked_subset x hx⟩, And.left⟩
  mem_transitions {t} := ⟨fun ht => ⟨ht, hg.source_mem t ht, hg.target_mem t ht⟩, And.left⟩

namespace IsPart

/-- A part of a part is a part. -/
theorem trans {k : Automaton} (hkh : k.IsPart h) (hhg : h.IsPart g) : k.IsPart g where
  alphabet_eq := hkh.alphabet_eq.trans hhg.alphabet_eq
  states_subset x hx := hhg.states_subset x (hkh.states_subset x hx)
  mem_initial {x} := by
    rw [hkh.mem_initial, hhg.mem_initial]
    exact ⟨fun ⟨⟨hx, _⟩, hk⟩ => ⟨hx, hk⟩, fun ⟨hx, hk⟩ => ⟨⟨hx, hkh.states_subset x hk⟩, hk⟩⟩
  mem_marked {x} := by
    rw [hkh.mem_marked, hhg.mem_marked]
    exact ⟨fun ⟨⟨hx, _⟩, hk⟩ => ⟨hx, hk⟩, fun ⟨hx, hk⟩ => ⟨⟨hx, hkh.states_subset x hk⟩, hk⟩⟩
  mem_transitions {t} := by
    rw [hkh.mem_transitions, hhg.mem_transitions]
    constructor
    · rintro ⟨⟨ht, -, -⟩, hs, hd⟩
      exact ⟨ht, hs, hd⟩
    · rintro ⟨ht, hs, hd⟩
      exact ⟨⟨ht, hkh.states_subset _ hs, hkh.states_subset _ hd⟩, hs, hd⟩

/-- Every path of a part is a path of the whole. -/
theorem isPath {ts : List Transition} (hp : h.IsPart g) (hts : h.IsPath x ts) : g.IsPath x ts :=
  hts.mono fun _ ht => (hp.mem_transitions.mp ht).1

/-- **Paths of a part** are the paths of the whole that visit only states of the
part, provided that they start there. -/
theorem isPath_iff {ts : List Transition} (hp : h.IsPart g) (hx : x ∈ h.states) :
    h.IsPath x ts ↔ g.IsPath x ts ∧ ∀ t ∈ ts, t.target ∈ h.states := by
  induction ts generalizing x with
  | nil => simp
  | cons t ts ih =>
    rw [isPath_cons, isPath_cons, hp.mem_transitions, List.forall_mem_cons]
    constructor
    · rintro ⟨⟨ht, -, hd⟩, hs, hts⟩
      obtain ⟨hts, hstates⟩ := (ih hd).mp hts
      exact ⟨⟨ht, hs, hts⟩, hd, hstates⟩
    · rintro ⟨⟨ht, rfl, hts⟩, hd, hstates⟩
      exact ⟨⟨ht, hx, hd⟩, rfl, (ih hd).mpr ⟨hts, hstates⟩⟩

end IsPart

end OmegaControl.Automaton
