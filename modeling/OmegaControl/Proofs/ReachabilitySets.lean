import OmegaControl.Proofs.Reaching

/-!
# Reached, coaccessible and blocking states

The three sets of states that trimming is about are what their names say: the states
that paths from initial states lead to, those from which paths lead to marked
states, and those from which no path goes on forever. The restrictions to them
delete states and nothing else (`reachabilitySets_spec`). Neither one initial state
nor unique successors are asked for.

A state is blocking unless some infinite path starts there: the states on such a
path go on to each other, and a state that is not blocking goes on to another one,
again and again (`WellFormed.mem_blockingSet`).

Trimming restricts twice, and the second restriction does not undo the first: on a
path to a marked state all states are coaccessible
(`WellFormed.exists_path_coaccessible`), and what leads to a coaccessible state is
coaccessible itself.
-/

namespace OmegaControl.Automaton

variable {g : Automaton} {x : StateId} {ts : List Transition}

/-! ## Blocking states
 -/

/-- The states on an infinite path are not blocking. None of them can be the first
one that is found to be: it goes on to one that has not been found. -/
theorem IsInfinitePath.not_mem_blockingSet {r : ℕ → Transition} (hr : g.IsInfinitePath x r) :
    x ∉ g.blockingSet := by
  refine Automaton.not_mem_blockingSet {y | ∃ n, endOf x (upTo r n) = y} ?_ ⟨0, rfl⟩
  rintro _ ⟨n, rfl⟩
  obtain ⟨ht, hsource⟩ := hr.step n
  exact ⟨r n, ht, hsource, n + 1, endOf_upTo_succ x r n⟩

namespace WellFormed

variable (hg : g.WellFormed)
include hg

/-- From a state that is not blocking a path goes on forever: one of its successors
is not blocking either, and so on. -/
theorem exists_infinitePath (hx : x ∈ g.states) (hnot : x ∉ g.blockingSet) :
    ∃ r, g.IsInfinitePath x r := by
  have hnext : ∀ ts, g.IsPath x ts ∧ endOf x ts ∉ g.blockingSet →
      ∃ us, us ≠ [] ∧ g.IsPath x (ts ++ us) ∧ endOf x (ts ++ us) ∉ g.blockingSet := by
    rintro ts ⟨hts, hend⟩
    obtain ⟨t, ht, hsource, htarget⟩ := exists_not_mem_blockingSet (hts.endOf_mem hg hx) hend
    refine ⟨[t], List.cons_ne_nil t [], isPath_concat.mpr ⟨hts, ht, hsource⟩, ?_⟩
    rwa [endOf_concat]
  have hstart : g.IsPath x [] ∧ endOf x [] ∉ g.blockingSet := ⟨isPath_nil, hnot⟩
  obtain ⟨r, -, hoften⟩ := exists_sequence hnext hstart
  exact ⟨r, isInfinitePath_of_infinitelyOften (hoften.mono fun _ h => h.1)⟩

/-- **The blocking states** are those from which no path goes on forever. -/
theorem mem_blockingSet : x ∈ g.blockingSet ↔ x ∈ g.states ∧ ¬∃ r, g.IsInfinitePath x r := by
  constructor
  · intro hx
    refine ⟨mem_states_of_mem_blockingSet hx, ?_⟩
    rintro ⟨r, hr⟩
    exact hr.not_mem_blockingSet hx
  · rintro ⟨hx, hnone⟩
    by_contra hnot
    exact hnone (hg.exists_infinitePath hx hnot)

/-! ## Restrictions
 -/

/-- What is left are the accessible states, all of which are states. -/
theorem mem_states_accessible : x ∈ g.accessible.states ↔ x ∈ g.accessibleSet :=
  mem_states_restrictStates.trans (and_iff_right_of_imp (hg.accessibleSet_subset x))

theorem mem_states_coaccessible : x ∈ g.coaccessible.states ↔ x ∈ g.coaccessibleSet :=
  mem_states_restrictStates.trans (and_iff_right_of_imp (hg.coaccessibleSet_subset x))

/-- All states on a path to a marked state are coaccessible, so the path is left. -/
theorem exists_path_coaccessible (hx : x ∈ g.coaccessible.states) :
    ∃ ts, g.coaccessible.IsPath x ts ∧ endOf x ts ∈ g.coaccessible.marked := by
  have hpart : g.coaccessible.IsPart g := hg.isPart_restrictStates _
  have hleft : ∀ {x ts}, g.IsPath x ts → endOf x ts ∈ g.marked → x ∈ g.coaccessible.states :=
    fun hts hmarked => hg.mem_states_coaccessible.mpr (mem_coaccessibleSet.mpr ⟨_, hts, hmarked⟩)
  obtain ⟨ts, hts, hmarked⟩ := mem_coaccessibleSet.mp (hg.mem_states_coaccessible.mp hx)
  have hinside : ∀ t ∈ ts, t.target ∈ g.coaccessible.states := by
    intro t ht
    obtain ⟨us, vs, rfl⟩ := List.append_of_mem ht
    rw [isPath_append] at hts
    rw [endOf_append] at hmarked
    exact hleft hts.2.2.2 hmarked
  have hpath := (hpart.isPath_iff hx).mpr ⟨hts, hinside⟩
  have hend := hpath.endOf_mem (hg.restrictStates _) hx
  exact ⟨ts, hpath, hpart.mem_marked.mpr ⟨hmarked, hend⟩⟩

/-- After trimming, every state is accessible and coaccessible. -/
theorem isTrim_trim : g.trim.isAccessible = true ∧ g.trim.isCoaccessible = true := by
  have hwf : g.accessible.WellFormed := hg.restrictStates _
  have hwf' : g.trim.WellFormed := hwf.restrictStates _
  have hreached : g.trim.AllReached := hg.allReached_accessible.coaccessible hwf
  have hcoaccessible : g.trim.coaccessibleSet = g.trim.states := IdentSet.ext fun x =>
    ⟨hwf'.coaccessibleSet_subset x, fun hx => mem_coaccessibleSet.mpr (hwf.exists_path_coaccessible hx)⟩
  rw [isAccessible, isCoaccessible, hwf'.accessibleSet_eq hreached, hcoaccessible, size]
  exact ⟨beq_self_eq_true _, beq_self_eq_true _⟩

end WellFormed

/-- **Reachability**: the accessible states are those that paths from initial states lead to, the
coaccessible ones those from which paths lead to marked states, and the blocking ones those from
which no path goes on forever. Each restriction leaves the states it is meant to leave, with all
transitions between them and their marking. What has been trimmed passes both tests. -/
theorem reachabilitySets_spec (hg : g.WellFormed) :
    (∀ x, x ∈ g.accessibleSet ↔ ∃ x₀ ∈ g.initial, ∃ ts, g.IsPath x₀ ts ∧ endOf x₀ ts = x) ∧
    (∀ x, x ∈ g.coaccessibleSet ↔ ∃ ts, g.IsPath x ts ∧ endOf x ts ∈ g.marked) ∧
    (∀ x, x ∈ g.blockingSet ↔ x ∈ g.states ∧ ¬∃ r, g.IsInfinitePath x r) ∧
    (g.accessible.IsPart g ∧ ∀ x, x ∈ g.accessible.states ↔ x ∈ g.accessibleSet) ∧
    (g.coaccessible.IsPart g ∧ ∀ x, x ∈ g.coaccessible.states ↔ x ∈ g.coaccessibleSet) ∧
    (g.complete.IsPart g ∧ ∀ x, x ∈ g.complete.states ↔ x ∈ g.states ∧ x ∉ g.blockingSet) ∧
    (g.trim.IsPart g ∧ g.trim.isAccessible = true ∧ g.trim.isCoaccessible = true) :=
  ⟨fun _ => mem_accessibleSet, fun _ => mem_coaccessibleSet, fun _ => hg.mem_blockingSet,
    ⟨hg.isPart_restrictStates _, fun _ => hg.mem_states_accessible⟩,
    ⟨hg.isPart_restrictStates _, fun _ => hg.mem_states_coaccessible⟩,
    ⟨hg.isPart_deleteStates _, fun _ => mem_states_deleteStates⟩, hg.isPart_trim.1, hg.isTrim_trim⟩

/-- The fragile machine is not deterministic. -/
theorem reachabilitySets_fragileMachine : ¬fragileMachine.IsDeterministic ∧
    (∀ x, x ∈ fragileMachine.blockingSet ↔
      x ∈ fragileMachine.states ∧ ¬∃ r, fragileMachine.IsInfinitePath x r) ∧
    fragileMachine.trim.isAccessible = true ∧ fragileMachine.trim.isCoaccessible = true := by
  obtain ⟨-, -, hblocking, -, -, -, -, htrim⟩ := reachabilitySets_spec fragileMachine_wellFormed
  exact ⟨by decide +kernel, hblocking, htrim⟩

end OmegaControl.Automaton
