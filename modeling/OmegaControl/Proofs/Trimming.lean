import OmegaControl.Automaton.Trim
import OmegaControl.Proofs.Iteration
import OmegaControl.Proofs.Restriction
import OmegaControl.Proofs.Traversal

/-!
# What is trimmed away

The accessible and the coaccessible states in terms of paths. A state is blocking
unless it has a way to go on forever: states that can go on to each other are not
blocking (`not_mem_blockingSet`), and one that is not blocking goes on to another
one (`exists_not_mem_blockingSet`).

A restriction that leaves as many states as there were has left everything as it was
(`eq_of_size_le_restrictStates`), so a loop may compare sizes to see whether
something was taken away. This is what ends the loop that trims until nothing
changes (`settle_fixed`).
-/

namespace OmegaControl

variable {g : Automaton} {x y : StateId}

/-! ## Accessible states

Both sets are found by a walk, the second one backwards from the marked states;
`leads_iff` says what a walk along transitions has to do with paths. -/

namespace Automaton

theorem mem_successors : y ∈ g.successors x ↔ ∃ t ∈ g.transitions, t.source = x ∧ t.target = y := by
  simp [successors, and_assoc]

/-- There is a way from `x` to `y` if a path does lead there. -/
theorem leads_iff : Traversal.Leads g.successors x y ↔ ∃ ts, g.IsPath x ts ∧ endOf x ts = y := by
  constructor
  · intro h
    induction h with
    | refl => exact ⟨[], isPath_nil, rfl⟩
    | tail _ hstep ih =>
      obtain ⟨ts, hts, hend⟩ := ih
      obtain ⟨t, ht, hsource, rfl⟩ := mem_successors.mp hstep
      exact ⟨ts ++ [t], isPath_concat.mpr ⟨hts, ht, hsource.trans hend.symm⟩, endOf_concat x ts t⟩
  · rintro ⟨ts, hts, rfl⟩
    induction ts generalizing x with
    | nil => exact .refl
    | cons t ts ih => exact .head (mem_successors.mpr ⟨t, hts.1, hts.2.1, rfl⟩) (ih hts.2.2)

/-- The accessible states are those at the ends of paths from an initial state. -/
theorem mem_accessibleSet :
    x ∈ g.accessibleSet ↔ ∃ x₀ ∈ g.initial, ∃ ts, g.IsPath x₀ ts ∧ endOf x₀ ts = x := by
  rw [accessibleSet, IdentSet.mem_ofList, Traversal.mem_reachable]
  simp only [IdentSet.mem_toList, leads_iff]

theorem mem_accessibleSet_of_mem_initial (hx : x ∈ g.initial) : x ∈ g.accessibleSet :=
  mem_accessibleSet.mpr ⟨x, hx, [], isPath_nil, rfl⟩

/-- From an accessible state all transitions lead to accessible ones. -/
theorem target_mem_accessibleSet {t : Transition} (ht : t ∈ g.transitions)
    (hsource : t.source ∈ g.accessibleSet) : t.target ∈ g.accessibleSet := by
  obtain ⟨x₀, hx₀, ts, hts, hend⟩ := mem_accessibleSet.mp hsource
  exact mem_accessibleSet.mpr
    ⟨x₀, hx₀, ts ++ [t], isPath_concat.mpr ⟨hts, ht, hend.symm⟩, endOf_concat x₀ ts t⟩

/-- Backwards, ways lead back. -/
theorem leads_reversed : Traversal.Leads g.reversed.successors x y ↔
    Traversal.Leads g.successors y x := by
  have hstep : ∀ a b, b ∈ g.reversed.successors a ↔ a ∈ g.successors b := by
    intro a b
    rw [mem_successors, mem_successors]
    constructor
    · rintro ⟨t, ht, rfl, rfl⟩
      exact ⟨t.reversed, mem_transitions_reversed.mp ht, rfl, rfl⟩
    · rintro ⟨t, ht, rfl, rfl⟩
      exact ⟨t.reversed, mem_transitions_reversed.mpr ht, rfl, rfl⟩
  simp only [Traversal.Leads, hstep]
  exact Relation.reflTransGen_swap

/-- The coaccessible states are those from which a path leads to a marked state. -/
theorem mem_coaccessibleSet :
    x ∈ g.coaccessibleSet ↔ ∃ ts, g.IsPath x ts ∧ endOf x ts ∈ g.marked := by
  rw [coaccessibleSet, accessibleSet, IdentSet.mem_ofList, Traversal.mem_reachable]
  simp only [leads_reversed, IdentSet.mem_toList, leads_iff]
  constructor
  · rintro ⟨y, hy, ts, hts, rfl⟩
    exact ⟨ts, hts, hy⟩
  · rintro ⟨ts, hts, hmarked⟩
    exact ⟨endOf x ts, hmarked, ts, hts, rfl⟩

end Automaton

/-! ## Blocking states

They are found round by round: a state is added when all its transitions lead to
states that are blocking already. What is never added is a set of states that can go
on to each other. -/

/-- What a step keeps true holds when nothing is added any more. -/
theorem saturate_induction {step : StateSet → StateSet} {I : StateSet → Prop}
    (hstep : ∀ s, I s → I (s ∪ step s)) {s : StateSet} (h : I s) : I (saturate step s) := by
  fun_induction saturate step s with
  | case1 s _ ih => exact ih (hstep s h)
  | case2 => exact h

/-- When nothing is added any more, what a step would add is there. -/
theorem mem_saturate_of_mem {step : StateSet → StateSet} {s : StateSet} (hx : x ∈ step (saturate step s)) :
    x ∈ saturate step s := by
  fun_induction saturate step s with
  | case1 s _ ih => exact ih hx
  | case2 s hle =>
    exact IdentSet.subset_of_size_le (fun _ hy => IdentSet.mem_union.mpr (.inl hy))
      (Nat.le_of_not_lt hle) (IdentSet.mem_union.mpr (.inr hx))

namespace Automaton

/-- The blocking states are found round by round, so they have what each round
keeps. The round is described by what it adds; how the predecessors are looked up
does not matter. -/
theorem blockingSet_induction {I : StateSet → Prop} (hempty : I ∅)
    (hstep : ∀ dead more : StateSet, I dead → (∀ x, x ∈ more ↔ x ∈ dead ∨
      (x ∈ g.states ∧ ∀ t ∈ g.transitions, t.source = x → t.target ∈ dead)) → I more) :
    I g.blockingSet := by
  refine saturate_induction (fun dead hdead => hstep dead _ hdead fun x => ?_) hempty
  rw [IdentSet.mem_union, IdentSet.mem_ofList, List.mem_map]
  refine or_congr_right ⟨?_, fun ⟨hx, hall⟩ => ?_⟩
  · rintro ⟨⟨y, ts⟩, hrow, rfl⟩
    obtain ⟨hrow, hall⟩ := List.mem_filter.mp hrow
    obtain ⟨z, hz, heq⟩ := List.mem_map.mp hrow
    obtain ⟨rfl, rfl⟩ := Prod.mk.inj heq
    refine ⟨IdentSet.mem_toList.mp hz, fun t ht hsource => ?_⟩
    exact of_decide_eq_true (List.all_eq_true.mp hall t (mem_transitionsFrom.mpr ⟨ht, hsource⟩))
  · refine ⟨(x, g.transitionsFrom x), List.mem_filter.mpr ⟨?_, ?_⟩, rfl⟩
    · exact List.mem_map.mpr ⟨x, IdentSet.mem_toList.mpr hx, rfl⟩
    · refine List.all_eq_true.mpr fun t ht => decide_eq_true ?_
      obtain ⟨ht, hsource⟩ := mem_transitionsFrom.mp ht
      exact hall t ht hsource

/-- States that can go on to each other forever are not blocking. None of them can
be the first one to be added. -/
theorem not_mem_blockingSet (alive : Set StateId)
    (halive : ∀ x ∈ alive, ∃ t ∈ g.transitions, t.source = x ∧ t.target ∈ alive)
    (hx : x ∈ alive) : x ∉ g.blockingSet := by
  have hkeep : ∀ x ∈ alive, x ∉ g.blockingSet := by
    refine blockingSet_induction (I := fun dead => ∀ x ∈ alive, x ∉ dead)
      (fun x _ => IdentSet.not_mem_empty) fun dead more hdead hmore x hx hmem => ?_
    rcases (hmore x).mp hmem with hmem | ⟨-, hall⟩
    · exact hdead x hx hmem
    · obtain ⟨t, ht, hsource, htarget⟩ := halive x hx
      exact hdead t.target htarget (hall t ht hsource)
  exact hkeep x hx

/-- What is blocking is a state. -/
theorem mem_states_of_mem_blockingSet (hx : x ∈ g.blockingSet) : x ∈ g.states := by
  revert x
  refine blockingSet_induction (I := fun dead => ∀ {x}, x ∈ dead → x ∈ g.states)
    (fun hx => absurd hx IdentSet.not_mem_empty) fun dead more hdead hmore x hx => ?_
  exact ((hmore x).mp hx).elim hdead And.left

/-- A blocking state leads to blocking states only. -/
theorem target_mem_blockingSet {t : Transition} (ht : t ∈ g.transitions)
    (hsource : t.source ∈ g.blockingSet) : t.target ∈ g.blockingSet := by
  revert hsource
  refine blockingSet_induction (I := fun dead => t.source ∈ dead → t.target ∈ dead)
    (fun hsource => absurd hsource IdentSet.not_mem_empty) fun dead more hdead hmore hsource => ?_
  refine (hmore t.target).mpr (.inl ?_)
  exact ((hmore t.source).mp hsource).elim hdead fun ⟨_, hall⟩ => hall t ht rfl

/-- A state that is not blocking goes on to another one. Repeating this, one can go
on forever. -/
theorem exists_not_mem_blockingSet (hx : x ∈ g.states) (hnot : x ∉ g.blockingSet) :
    ∃ t ∈ g.transitions, t.source = x ∧ t.target ∉ g.blockingSet := by
  by_contra hnone
  push Not at hnone
  refine hnot (mem_saturate_of_mem (IdentSet.mem_ofList.mpr (List.mem_map.mpr ?_)))
  refine ⟨(x, g.transitionsFrom x), List.mem_filter.mpr ⟨?_, ?_⟩, rfl⟩
  · exact List.mem_map.mpr ⟨x, IdentSet.mem_toList.mpr hx, rfl⟩
  · refine List.all_eq_true.mpr fun t ht => decide_eq_true ?_
    obtain ⟨ht, hsource⟩ := mem_transitionsFrom.mp ht
    exact hnone t ht hsource

/-! ## Restrictions that take nothing away

A loop that has not become smaller has done nothing, in any of its steps. So at its
end the automaton is a fixpoint of each of them. -/

theorem eq_of_size_le_deleteStates {dead : StateSet} (h : g.size ≤ (g.deleteStates dead).size) :
    g.deleteStates dead = g := by
  refine deleteStates_of_disjoint fun x hx => ?_
  have hmem := IdentSet.subset_of_size_le (fun _ h => (mem_states_deleteStates.mp h).1) h hx
  exact (mem_states_deleteStates.mp hmem).2

/-- A restriction that leaves as many states as there were has left everything. -/
theorem eq_of_size_le_restrictStates {keep : StateSet}
    (h : g.size ≤ (g.restrictStates keep).size) : g.restrictStates keep = g :=
  eq_of_size_le_deleteStates h

/-- If trimming leaves as many states as there were, none of its steps has deleted
any: each of them can only make the automaton smaller. -/
theorem eq_of_size_le_trimmed (h : g.size ≤ g.coaccessible.accessible.complete.size) :
    g.coaccessible = g ∧ g.accessible = g ∧ g.complete = g := by
  have hcomplete := g.coaccessible.accessible.size_complete_le
  have haccessible := g.coaccessible.size_accessible_le
  have h₁ : g.coaccessible = g := eq_of_size_le_restrictStates (by
    change g.size ≤ g.coaccessible.size
    omega)
  rw [h₁] at h hcomplete
  have h₂ : g.accessible = g := eq_of_size_le_restrictStates (by
    change g.size ≤ g.accessible.size
    omega)
  rw [h₂] at h
  exact ⟨h₁, h₂, eq_of_size_le_deleteStates h⟩

/-- Trimming takes states away, and nothing else, however often it is repeated. -/
theorem WellFormed.isPart_settle (hg : g.WellFormed) :
    g.settle.IsPart g ∧ g.settle.WellFormed := by
  fun_induction settle g with
  | case1 g rest _ ih =>
    have hwf := hg.restrictStates g.coaccessibleSet
    have hpart := (hwf.isPart_deleteStates g.coaccessible.blockingSet).trans
      (hg.isPart_restrictStates g.coaccessibleSet)
    obtain ⟨hsettled, hwf'⟩ := ih (hwf.deleteStates g.coaccessible.blockingSet)
    exact ⟨hsettled.trans hpart, hwf'⟩
  | case2 g rest _ =>
    have hwf := hg.restrictStates g.coaccessibleSet
    exact ⟨(hwf.isPart_deleteStates _).trans (hg.isPart_restrictStates _), hwf.deleteStates _⟩

/-- In the end nothing more is taken away: every state is coaccessible and can go
on. -/
theorem settle_fixed : g.settle.coaccessible = g.settle ∧ g.settle.complete = g.settle := by
  fun_induction settle g with
  | case1 g rest _ ih => exact ih
  | case2 g rest hge =>
    have hcomplete := g.coaccessible.size_complete_le
    have hsize : g.size ≤ g.coaccessible.complete.size := Nat.le_of_not_lt hge
    have h₁ : g.coaccessible = g := eq_of_size_le_restrictStates (hsize.trans hcomplete)
    rw [h₁] at hsize
    have h₂ : g.complete = g := eq_of_size_le_deleteStates hsize
    have hrest : rest = g := by
      change g.coaccessible.complete = g
      rw [h₁, h₂]
    rw [hrest]
    exact ⟨h₁, h₂⟩

/-- Trimming leaves a part. -/
theorem WellFormed.isPart_trim (hg : g.WellFormed) : g.trim.IsPart g ∧ g.trim.WellFormed := by
  have hwf := hg.restrictStates g.accessibleSet
  exact ⟨(hwf.isPart_restrictStates g.accessible.coaccessibleSet).trans
    (hg.isPart_restrictStates g.accessibleSet), hwf.restrictStates _⟩

/-- The omega-trim part has accessible states only. -/
theorem WellFormed.isPart_omegaTrim (hg : g.WellFormed) :
    g.omegaTrim.IsPart g.accessible ∧ g.omegaTrim.IsPart g ∧ g.omegaTrim.WellFormed := by
  obtain ⟨hsettled, hwf⟩ := (hg.restrictStates g.accessibleSet).isPart_settle
  exact ⟨hsettled, hsettled.trans (hg.isPart_restrictStates g.accessibleSet), hwf⟩

/-- If a restriction leaves everything, all states were to be kept. -/
theorem mem_of_restrictStates_eq {keep : StateSet} (h : g.restrictStates keep = g)
    (hx : x ∈ g.states) : x ∈ keep := by
  rw [← h] at hx
  exact (mem_states_restrictStates.mp hx).2

/-- If nothing is taken away, marked states are ahead of every state: it can go on,
and where it goes a marked state can be reached. -/
theorem marked_ahead_of_eq (hg : g.WellFormed) (hcoaccessible : g.coaccessible = g)
    (hcomplete : g.complete = g) (hx : x ∈ g.states) :
    ∃ us, us ≠ [] ∧ g.IsPath x us ∧ endOf x us ∈ g.marked := by
  have hnot : x ∉ g.blockingSet := by
    rw [← hcomplete] at hx
    exact (mem_states_deleteStates.mp hx).2
  obtain ⟨t, ht, hsource, -⟩ := exists_not_mem_blockingSet hx hnot
  obtain ⟨us, hus, hmarked⟩ := mem_coaccessibleSet.mp
    (mem_of_restrictStates_eq hcoaccessible (hg.target_mem t ht))
  exact ⟨t :: us, List.cons_ne_nil t us, ⟨ht, hsource, hus⟩, hmarked⟩

end Automaton

end OmegaControl
