import Mathlib.Data.List.Nodup
import OmegaControl.Liveness.Feedback
import OmegaControl.Proofs.Liveness.Enforceable
import OmegaControl.Proofs.Liveness.ProgressMeasure
import OmegaControl.Proofs.Numbering

/-!
# Driving a state into a target

One step of the loops. A state can be driven into a target without leaving target
and domain if some transition enters the target and no uncontrollable one leads
outside; both rules for full observation ask just this (`Rule.restrict_resolves`,
`Rule.feedback_resolves`), so both find the enforceable states.

`Drives` says what a supervisor has to disable at such a state. The events that lead
outside do, provided that no event leads both outside and into the target; this is
where unique successors are needed (`drives_of_disabledToEnter`). Which states are
found does not depend on it.
-/

namespace OmegaControl

/-- A map that is made from the states of a set gives each of them its value. -/
theorem getElem?_ofList_states {β : Type} {s : StateSet} {f : StateId → β} {x : StateId} {v : β} :
    (Std.ExtTreeMap.ofList (s.toList.map fun x => (x, f x)))[x]? = some v ↔ x ∈ s ∧ v = f x := by
  have hnodup : ((s.toList.map fun x => (x, f x)).map Prod.fst).Nodup := by
    rw [List.map_map]
    exact (List.map_id _).symm ▸ IdentSet.toList_nodup _
  rw [getElem?_ofList_eq_some hnodup, List.mem_map]
  constructor
  · rintro ⟨y, hy, heq⟩
    obtain ⟨rfl, rfl⟩ := Prod.mk.inj heq
    exact ⟨IdentSet.mem_toList.mp hy, rfl⟩
  · rintro ⟨hx, rfl⟩
    exact ⟨x, IdentSet.mem_toList.mpr hx, rfl⟩

/-! ## Driving a state into a target -/

/-- At `x`, some transition enters the target and every transition stays inside target and
domain, once the given controllable events are disabled. -/
structure Automaton.Drives (g : Automaton) (controllable disabled : EventSet)
    (target domain : Set StateId) (x : StateId) : Prop where
  /-- only controllable events are disabled -/
  subset_controllable : disabled ⊆ controllable
  /-- something that is left leads into the target -/
  enters : ∃ t ∈ g.transitions, t.source = x ∧ t.event ∉ disabled ∧ t.target ∈ target
  /-- nothing that is left leads out of target and domain -/
  stays : ∀ t ∈ g.transitions, t.source = x → t.event ∉ disabled → t.target ∈ target ∪ domain

/-- What drives a state into a target drives it into a larger one, as long as the
old domain is part of the new target and domain together. States may thus pass from
the domain to the target. -/
theorem Automaton.Drives.mono {g : Automaton} {controllable disabled : EventSet}
    {target target' domain domain' : Set StateId} {x : StateId}
    (h : g.Drives controllable disabled target domain x) (ht : target ⊆ target')
    (hd : domain ⊆ target' ∪ domain') : g.Drives controllable disabled target' domain' x := by
  obtain ⟨hsub, ⟨t, htg, hsource, hev, htarget⟩, hstays⟩ := h
  refine ⟨hsub, ⟨t, htg, hsource, hev, ht htarget⟩, fun t htg hsource hev => ?_⟩
  rcases hstays t htg hsource hev with h | h
  · exact .inl (ht h)
  · exact hd h

/-- Which states can be driven into the target, in terms of the list of transitions
from them. -/
theorem isSome_disabledToEnter {controllable : EventSet} {target domain : StateSet}
    {ts : List Transition} :
    (disabledToEnter controllable target domain ts).isSome ↔
      (∃ t ∈ ts, t.target ∈ target) ∧
        ∀ t ∈ ts, t.event ∉ controllable → t.target ∈ target ∨ t.target ∈ domain := by
  simp only [disabledToEnter, Option.isSome_ite, Bool.and_eq_true, List.any_eq_true,
    List.all_eq_true, List.mem_filter, decide_eq_true_eq]
  refine and_congr_right fun _ => forall_congr' fun t => ?_
  tauto

/-- What has to be disabled are the events that lead out of target and domain, and
nothing else. -/
theorem mem_of_disabledToEnter {controllable : EventSet} {target domain : StateSet}
    {ts : List Transition} {disabled : EventSet}
    (h : disabledToEnter controllable target domain ts = some disabled) {ev : EventId} :
    ev ∈ disabled ↔ ∃ t ∈ ts, t.event = ev ∧ t.target ∉ target ∧ t.target ∉ domain := by
  simp only [disabledToEnter, Option.ite_none_right_eq_some, Option.some.injEq] at h
  rw [← h.2, IdentSet.mem_ofList]
  simp only [List.mem_map, List.mem_filter, decide_eq_true_eq]
  exact exists_congr fun t => by tauto

/-- A row of the table is a state with the transitions from it. -/
theorem Automaton.mem_rows {g : Automaton} {x : StateId} {ts : List Transition} :
    (x, ts) ∈ g.rows ↔ x ∈ g.states ∧ ts = g.transitionsFrom x := by
  rw [rows, List.mem_map]
  constructor
  · rintro ⟨y, hy, heq⟩
    obtain ⟨rfl, rfl⟩ := Prod.mk.inj heq
    exact ⟨IdentSet.mem_toList.mp hy, rfl⟩
  · rintro ⟨hx, rfl⟩
    exact ⟨x, IdentSet.mem_toList.mpr hx, rfl⟩

section

variable {g : Automaton} {controllable : EventSet} {target domain : StateSet} {x : StateId}
  {disabled : EventSet}

/-- The test on the transitions from a state is the one that the fixpoint is defined
by. -/
theorem isSome_disabledToEnter_transitionsFrom (hx : x ∈ g.states) :
    (disabledToEnter controllable target domain (g.transitionsFrom x)).isSome ↔
      x ∈ g.drivable controllable target.carrier domain.carrier := by
  rw [isSome_disabledToEnter]
  simp only [Automaton.mem_transitionsFrom, and_assoc, and_imp]
  constructor
  · rintro ⟨henter, hstay⟩
    exact ⟨hx, henter, hstay⟩
  · rintro ⟨-, henter, hstay⟩
    exact ⟨henter, hstay⟩

/-- If each state has one transition at most on each event, what has to be disabled
keeps out no transition into the target. Otherwise an event might lead into the
target and outside, and to disable it would take both away. -/
theorem drives_of_disabledToEnter (hg : g.HasUniqueSuccessors)
    (h : disabledToEnter controllable target domain (g.transitionsFrom x) = some disabled) :
    g.Drives controllable disabled target.carrier domain.carrier x := by
  have hmem : ∀ ev, ev ∈ disabled ↔ _ := fun _ => mem_of_disabledToEnter h
  obtain ⟨⟨t, ht, htarget⟩, hall⟩ := isSome_disabledToEnter.mp (Option.isSome_of_eq_some h)
  refine ⟨fun ev hev => ?_, ⟨t, ?_⟩, fun u hu hsource hev => ?_⟩
  · obtain ⟨u, hu, rfl, hout, hout'⟩ := (hmem ev).mp hev
    by_contra hunc
    exact (hall u hu hunc).elim hout hout'
  · obtain ⟨htg, hsource⟩ := Automaton.mem_transitionsFrom.mp ht
    refine ⟨htg, hsource, fun hev => ?_, htarget⟩
    obtain ⟨u, hu, hevent, hout, -⟩ := (hmem t.event).mp hev
    obtain ⟨hug, husource⟩ := Automaton.mem_transitionsFrom.mp hu
    exact hout (hg u hug t htg (husource.trans hsource.symm) hevent ▸ htarget)
  · by_contra hout
    rw [Set.mem_union, not_or] at hout
    exact hev ((hmem u.event).mpr
      ⟨u, Automaton.mem_transitionsFrom.mpr ⟨hu, hsource⟩, rfl, hout.1, hout.2⟩)

/-- The rule that records nothing finds the states that can be driven into a target,
row by row. -/
theorem Rule.restrict_resolves : (Rule.restrict g controllable).Resolves g controllable := by
  intro target domain s
  ext x
  simp only [Rule.restrict, IdentSet.mem_carrier, IdentSet.mem_ofList, List.mem_map,
    List.mem_filter]
  constructor
  · rintro ⟨⟨x, ts⟩, ⟨hrow, hsome⟩, rfl⟩
    obtain ⟨hx, rfl⟩ := Automaton.mem_rows.mp hrow
    exact (isSome_disabledToEnter_transitionsFrom hx).mp hsome
  · intro hx
    exact ⟨(x, g.transitionsFrom x), ⟨Automaton.mem_rows.mpr ⟨hx.1, rfl⟩,
      (isSome_disabledToEnter_transitionsFrom hx.1).mpr hx⟩, rfl⟩

/-! ## One step of the rule that records

Here a row that is found also yields what has to be disabled at its state. There is
one row for each state, so the map that is made from them says one thing about each
(`nodup_disabledRows`). -/

/-- What is found in one step, with what has to be disabled. -/
def disabledRows (g : Automaton) (controllable : EventSet) (target domain : StateSet) :
    List (StateId × EventSet) :=
  g.rows.filterMap fun (x, ts) => (disabledToEnter controllable target domain ts).map (x, ·)

/-- What is found for a state is what the test says about the transitions from it. -/
theorem mem_disabledRows : (x, disabled) ∈ disabledRows g controllable target domain ↔
    x ∈ g.states ∧
      disabledToEnter controllable target domain (g.transitionsFrom x) = some disabled := by
  rw [disabledRows, List.mem_filterMap]
  constructor
  · rintro ⟨⟨y, ts⟩, hrow, hsome⟩
    obtain ⟨hy, rfl⟩ := Automaton.mem_rows.mp hrow
    obtain ⟨d, hd, heq⟩ := Option.map_eq_some_iff.mp hsome
    obtain ⟨rfl, rfl⟩ := Prod.mk.inj heq
    exact ⟨hy, hd⟩
  · rintro ⟨hx, hd⟩
    exact ⟨(x, g.transitionsFrom x), Automaton.mem_rows.mpr ⟨hx, rfl⟩,
      Option.map_eq_some_iff.mpr ⟨disabled, hd, rfl⟩⟩

/-- No state is found twice. -/
theorem nodup_disabledRows :
    ((disabledRows g controllable target domain).map Prod.fst).Nodup := by
  have hsub : ((disabledRows g controllable target domain).map Prod.fst).Sublist
      (g.rows.map Prod.fst) := by
    rw [disabledRows, List.map_filterMap]
    induction g.rows with
    | nil => exact List.Sublist.slnil
    | cons row rows ih =>
      obtain ⟨y, ts⟩ := row
      rcases hd : disabledToEnter controllable target domain ts with _ | d
      · simpa [hd] using ih.cons y
      · simpa [hd] using ih
  refine hsub.nodup ?_
  rw [Automaton.rows, List.map_map]
  exact (List.map_id _).symm ▸ IdentSet.toList_nodup g.states

/-- What is recorded now gives way to what has been recorded before: a union of maps
keeps the values of its second argument. -/
theorem Rule.feedback_resolve (s : Records (Std.ExtTreeMap StateId EventSet)) :
    (Rule.feedback g controllable).resolve target domain s =
      (IdentSet.ofList ((disabledRows g controllable target domain).map (·.1)),
        { s with round := .ofList (disabledRows g controllable target domain) ∪ s.round }) := rfl

/-- The rule that records what to disable finds the same states. -/
theorem Rule.feedback_resolves : (Rule.feedback g controllable).Resolves g controllable := by
  intro target domain s
  ext x
  rw [Rule.feedback_resolve, IdentSet.mem_carrier, IdentSet.mem_ofList, List.mem_map]
  constructor
  · rintro ⟨⟨x, d⟩, hrow, rfl⟩
    obtain ⟨hx, hd⟩ := mem_disabledRows.mp hrow
    exact (isSome_disabledToEnter_transitionsFrom hx).mp (hd ▸ rfl)
  · intro hx
    obtain ⟨d, hd⟩ := Option.isSome_iff_exists.mp
      ((isSome_disabledToEnter_transitionsFrom hx.1).mpr hx)
    exact ⟨(x, d), mem_disabledRows.mpr ⟨hx.1, hd⟩, rfl⟩

end

end OmegaControl
