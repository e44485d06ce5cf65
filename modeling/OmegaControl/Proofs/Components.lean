import Mathlib.Tactic.Push
import OmegaControl.Proofs.ComponentSearch
import OmegaControl.Proofs.Trimming
import OmegaControl.Proofs.WellFormed
import OmegaControl.RelativeClosedness

/-!
# The components that are listed

A component is a maximal set of states that lead to each other by paths that enter
no state to avoid (`Automaton.IsComponent`). The search lists all of them, each
before those from which it can be reached, and the filter keeps those that it asks
for (`Automaton.stronglyConnectedComponents_spec`).

What the search itself guarantees is known for any graph (`Underway.run`). Here the
graph is the automaton without the states to avoid, and one visit follows another
until all states that need not be avoided are entered (`Automaton.underway_foldl`).

A component that is not trivial holds a cycle through each of its states, and each
cycle lies in such a component. So the test for cycles finds one if and only if
there is one (`Automaton.hasCycle_iff`). Both uses of the filter rest on this:
leaving out trivial components leaves exactly the states on cycles, and asking for a
state in the component asks that a cycle runs through it.
-/

namespace OmegaControl.Automaton

open Traversal ComponentSearch

variable {g : Automaton} {avoid around through c : StateSet} {x y : StateId}

/-! ## Paths that avoid states
 -/

/-- A path leads from `x` to `y` that enters no state to avoid. The state that it
starts from is not entered, so it may be one of them. -/
def LeadsAvoiding (g : Automaton) (avoid : StateSet) (x y : StateId) : Prop :=
  ∃ ts, g.IsPath x ts ∧ endOf x ts = y ∧ ∀ t ∈ ts, t.target ∉ avoid

theorem mem_successorsAvoiding : y ∈ g.successorsAvoiding avoid x ↔
    (∃ t ∈ g.transitions, t.source = x ∧ t.target = y) ∧ y ∉ avoid := by
  simp [successorsAvoiding, mem_successors]

/-- These are the ways in the graph that is searched: a way gives a path by choosing
a transition for each of its steps. -/
theorem leads_iff_leadsAvoiding :
    Leads (g.successorsAvoiding avoid) x y ↔ g.LeadsAvoiding avoid x y := by
  constructor
  · intro h
    induction h with
    | refl => exact ⟨[], isPath_nil, rfl, fun _ ht => absurd ht List.not_mem_nil⟩
    | tail _ hstep ih =>
      obtain ⟨ts, hts, hend, havoid⟩ := ih
      obtain ⟨⟨t, ht, hsource, rfl⟩, hout⟩ := mem_successorsAvoiding.mp hstep
      refine ⟨ts ++ [t], isPath_concat.mpr ⟨hts, ht, hsource.trans hend.symm⟩,
        endOf_concat x ts t, List.forall_mem_append.mpr ⟨havoid, fun u hu => ?_⟩⟩
      exact List.mem_singleton.mp hu ▸ hout
  · rintro ⟨ts, hts, rfl, havoid⟩
    induction ts generalizing x with
    | nil => exact .refl
    | cons t ts ih =>
      obtain ⟨hout, havoid⟩ := List.forall_mem_cons.mp havoid
      obtain ⟨ht, hsource, hts⟩ := hts
      exact .head (mem_successorsAvoiding.mpr ⟨⟨t, ht, hsource, rfl⟩, hout⟩) (ih hts havoid)

/-! ## All components
 -/

/-- A maximal set of states that lead to each other, when the states to avoid are
left out. A way may not even pass through one of them. -/
structure IsComponent (g : Automaton) (avoid c : StateSet) : Prop where
  nonempty : ∃ x, x ∈ c
  /-- states to avoid are in none -/
  mem_states : ∀ x ∈ c, x ∈ g.states ∧ x ∉ avoid
  connected : ∀ x ∈ c, ∀ y ∈ c, g.LeadsAvoiding avoid x y
  maximal : ∀ x ∈ c, ∀ y ∈ g.states, y ∉ avoid → g.LeadsAvoiding avoid x y →
    g.LeadsAvoiding avoid y x → y ∈ c

/-- The states that are searched. -/
def remaining (g : Automaton) (avoid : StateSet) : Set StateId := {x | x ∈ g.states ∧ x ∉ avoid}

/-- The search stays among the states of the automaton that need not be avoided. -/
theorem WellFormed.mem_remaining_of_next (hg : g.WellFormed) (x : StateId)
    (hy : y ∈ g.successorsAvoiding avoid x) : y ∈ g.remaining avoid := by
  obtain ⟨⟨t, ht, -, rfl⟩, hout⟩ := mem_successorsAvoiding.mp hy
  exact ⟨hg.target_mem t ht, hout⟩

/-- Coming to a state: it is visited, unless it is to be avoided or was entered from
an earlier one. -/
theorem underway_visitUnlessEntered (hg : g.WellFormed) {s : ComponentSearch}
    (h : Underway (g.successorsAvoiding avoid) (g.remaining avoid) s []) (hx : x ∈ g.states) :
    Underway (g.successorsAvoiding avoid) (g.remaining avoid) (g.visitUnlessEntered avoid s x) [] ∧
      (x ∉ avoid → x ∈ (g.visitUnlessEntered avoid s x).numbers) ∧
      ∀ y ∈ s.numbers, y ∈ (g.visitUnlessEntered avoid s x).numbers := by
  rw [visitUnlessEntered]
  split
  next hdone => exact ⟨h, fun hout => hdone.resolve_left hout, fun y hy => hy⟩
  next hdone =>
    obtain ⟨hout, hnew⟩ := not_or.mp hdone
    obtain ⟨hunderway, hentered, hkept⟩ :=
      h.visit (fun x _ y => hg.mem_remaining_of_next x) hnew ⟨hx, hout⟩
    exact ⟨hunderway, fun _ => hentered, hkept⟩

/-- Going through the states. Whatever was entered stays so, and in the end each
state of the list is entered that need not be avoided. -/
theorem underway_foldl (hg : g.WellFormed) {xs : List StateId} {s : ComponentSearch}
    (h : Underway (g.successorsAvoiding avoid) (g.remaining avoid) s []) (hxs : ∀ x ∈ xs, x ∈ g.states) :
    Underway (g.successorsAvoiding avoid) (g.remaining avoid)
        (xs.foldl (g.visitUnlessEntered avoid) s) [] ∧
      ∀ x, x ∈ s.numbers ∨ x ∈ xs ∧ x ∉ avoid →
        x ∈ (xs.foldl (g.visitUnlessEntered avoid) s).numbers := by
  induction xs generalizing s with
  | nil => exact ⟨h, fun x hx => hx.resolve_right fun hx => List.not_mem_nil hx.1⟩
  | cons x xs ih =>
    obtain ⟨hx, hxs⟩ := List.forall_mem_cons.mp hxs
    obtain ⟨hunderway, hentered, hkept⟩ := underway_visitUnlessEntered hg h hx
    obtain ⟨hall, hmem⟩ := ih hunderway hxs
    refine ⟨hall, fun y hy => hmem y ?_⟩
    rcases hy with hy | ⟨hy, hout⟩
    · exact .inl (hkept y hy)
    · rcases List.mem_cons.mp hy with rfl | hy
      · exact .inl (hentered hout)
      · exact .inr ⟨hy, hout⟩

/-- **The search** closes components in order, and each state that need not be
avoided is in one: no state waits when the search is over (`Underway.stack_eq_nil`). -/
theorem WellFormed.settled_components (hg : g.WellFormed) (avoid : StateSet) :
    Settled (g.successorsAvoiding avoid) (g.components avoid).reverse ∧
      ∀ x, (∃ c ∈ g.components avoid, x ∈ c) ↔ x ∈ g.remaining avoid := by
  obtain ⟨h, hmem⟩ := underway_foldl hg .blank fun x hx => IdentSet.mem_toList.mp hx
  have hstack := h.stack_eq_nil rfl
  rw [components, List.reverse_reverse]
  refine ⟨h.settled, fun x => ?_⟩
  have hclosed := h.mem_numbers (x := x)
  rw [hstack, or_iff_right List.not_mem_nil] at hclosed
  simp only [List.mem_reverse]
  rw [← hclosed]
  exact ⟨h.mem_region x, fun hx => hmem x (.inr ⟨IdentSet.mem_toList.mpr hx.1, hx.2⟩)⟩

/-- What is closed are components. Maximal they are in the graph that is searched,
which has all the paths that count. -/
theorem isComponent_of_isStrong (hc : IsStrong (g.successorsAvoiding avoid) c)
    (hstates : ∀ x ∈ c, x ∈ g.remaining avoid) : g.IsComponent avoid c where
  nonempty := hc.nonempty
  mem_states := hstates
  connected x hx y hy := leads_iff_leadsAvoiding.mp (hc.connected x hx y hy)
  maximal x hx y _ _ hxy hyx := hc.maximal x hx y (leads_iff_leadsAvoiding.mpr hxy)
    (leads_iff_leadsAvoiding.mpr hyx)

/-- Two components with a common state are the same. So a partition is listed, and
nothing twice. -/
theorem IsComponent.eq_of_mem {d : StateSet} (hc : g.IsComponent avoid c) (hd : g.IsComponent avoid d)
    (hxc : x ∈ c) (hxd : x ∈ d) : c = d := by
  refine IdentSet.ext fun y => ⟨fun hy => ?_, fun hy => ?_⟩
  · obtain ⟨hstate, hout⟩ := hc.mem_states y hy
    exact hd.maximal x hxd y hstate hout (hc.connected x hxc y hy) (hc.connected y hy x hxc)
  · obtain ⟨hstate, hout⟩ := hd.mem_states y hy
    exact hc.maximal x hxc y hstate hout (hd.connected x hxd y hy) (hd.connected y hy x hxd)

/-- **The components** are what is listed before the filter is applied. -/
theorem WellFormed.mem_components_iff (hg : g.WellFormed) :
    c ∈ g.components avoid ↔ g.IsComponent avoid c := by
  obtain ⟨hsettled, hmem⟩ := hg.settled_components avoid
  have hcomponent : ∀ c ∈ g.components avoid, g.IsComponent avoid c := fun c hc =>
    isComponent_of_isStrong (hsettled.isStrong c (List.mem_reverse.mpr hc))
      fun x hx => (hmem x).mp ⟨c, hc, hx⟩
  refine ⟨hcomponent c, fun hc => ?_⟩
  obtain ⟨x, hx⟩ := hc.nonempty
  obtain ⟨d, hd, hxd⟩ := (hmem x).mpr (hc.mem_states x hx)
  exact hc.eq_of_mem (hcomponent d hd) hx hxd ▸ hd

/-- A component comes before those from which it can be reached. This is the order
in which the search closes them, and a caller may rely on it. -/
theorem WellFormed.components_ordered (hg : g.WellFormed) (avoid : StateSet) :
    (g.components avoid).Pairwise fun c d => ∀ x ∈ c, ∀ y ∈ d, ¬g.LeadsAvoiding avoid x y := by
  obtain ⟨hsettled, -⟩ := hg.settled_components avoid
  exact (List.pairwise_reverse.mp hsettled.ordered).imp fun hcd x hx y hy hxy =>
    hcd x hx y hy (leads_iff_leadsAvoiding.mpr hxy)

/-! ## Trivial components
 -/

/-- It is a single state that has no loop. -/
def IsTrivial (g : Automaton) (c : StateSet) : Prop :=
  ∃ x, (∀ y, y ∈ c ↔ y = x) ∧ ∀ t ∈ g.transitions, ¬(t.source = x ∧ t.target = x)

/-- The test looks at the size first, and at a loop only if there is a single state. -/
theorem isNontrivial_iff (hc : ∃ x, x ∈ c) : g.isNontrivial c = true ↔ ¬g.IsTrivial c := by
  rw [isNontrivial, Bool.or_eq_true, decide_eq_true_eq, List.any_eq_true]
  simp only [IdentSet.mem_toList, decide_eq_true_eq, mem_successors]
  constructor
  · rintro (hsize | ⟨x, hx, t, ht, hsource, htarget⟩) ⟨y, hy, hloop⟩
    · refine absurd hsize (Nat.not_lt.mpr (IdentSet.size_le_one_of_forall_eq fun a ha b hb => ?_))
      exact ((hy a).mp ha).trans ((hy b).mp hb).symm
    · obtain rfl := (hy x).mp hx
      exact hloop t ht ⟨hsource, htarget⟩
  · intro htrivial
    obtain ⟨x, hx⟩ := hc
    by_contra hnone
    obtain ⟨hsize, hloop⟩ := not_or.mp hnone
    refine htrivial ⟨x, fun y => ⟨fun hy => ?_, fun hy => hy ▸ hx⟩, fun t ht h => ?_⟩
    · exact IdentSet.eq_of_size_le_one (Nat.not_lt.mp hsize) hy hx
    · exact hloop ⟨x, hx, t, ht, h⟩

/-- A path can go on inside a component that is not trivial, and come back: by its
loop, or through another state. -/
theorem IsComponent.exists_cycle (hc : g.IsComponent avoid c) (hnontrivial : ¬g.IsTrivial c)
    (hx : x ∈ c) : ∃ ts, ts ≠ [] ∧ g.IsPath x ts ∧ endOf x ts = x ∧ ∀ t ∈ ts, t.target ∉ avoid := by
  by_cases hother : ∃ y ∈ c, y ≠ x
  · obtain ⟨y, hy, hne⟩ := hother
    obtain ⟨ts, hts, hend, havoid⟩ := hc.connected x hx y hy
    obtain ⟨us, hus, hend', havoid'⟩ := hc.connected y hy x hx
    refine ⟨ts ++ us, fun hnil => ?_, isPath_append.mpr ⟨hts, hend.symm ▸ hus⟩, ?_,
      List.forall_mem_append.mpr ⟨havoid, havoid'⟩⟩
    · rw [(List.append_eq_nil_iff.mp hnil).1, endOf_nil] at hend
      exact hne hend.symm
    · rw [endOf_append, hend, hend']
  · -- there is no other state, so there is a loop
    push Not at hother
    have hloop : ∃ t ∈ g.transitions, t.source = x ∧ t.target = x := by
      by_contra hnone
      push Not at hnone
      exact hnontrivial ⟨x, fun y => ⟨hother y, fun hy => hy ▸ hx⟩, fun t ht h => hnone t ht h.1 h.2⟩
    obtain ⟨t, ht, hsource, htarget⟩ := hloop
    refine ⟨[t], List.cons_ne_nil _ _, ⟨ht, hsource, trivial⟩, htarget, fun u hu => ?_⟩
    rw [List.mem_singleton.mp hu, htarget]
    exact (hc.mem_states x hx).2

/-- A state on a cycle is in no trivial component. The states on the cycle are all
in its component, and if there is only one, the cycle is a loop. -/
theorem IsComponent.not_isTrivial (hg : g.WellFormed) (hc : g.IsComponent avoid c) (hx : x ∈ c)
    {ts : List Transition} (hne : ts ≠ []) (hts : g.IsPath x ts) (hend : endOf x ts = x)
    (havoid : ∀ t ∈ ts, t.target ∉ avoid) : ¬g.IsTrivial c := by
  rintro ⟨y, hy, hloop⟩
  obtain rfl := (hy x).mp hx
  obtain ⟨t, ts, rfl⟩ := List.exists_cons_of_ne_nil hne
  obtain ⟨ht, rfl, hts⟩ := hts
  obtain ⟨hout, havoid⟩ := List.forall_mem_cons.mp havoid
  -- the first step of the cycle stays in the component
  have hstep : g.LeadsAvoiding avoid t.source t.target :=
    ⟨[t], ⟨ht, rfl, trivial⟩, rfl, fun u hu => List.mem_singleton.mp hu ▸ hout⟩
  have htarget := hc.maximal _ hx _ (hg.target_mem t ht) hout hstep ⟨ts, hts, hend, havoid⟩
  exact hloop t ht ⟨rfl, (hy t.target).mp htarget⟩

/-! ## The components that the filter selects
 -/

/-- What is listed with a filter. The states to avoid are taken away before the
search, and the other two demands select among what it has found. -/
theorem WellFormed.mem_stronglyConnectedComponents_iff (hg : g.WellFormed) (f : ComponentFilter) :
    c ∈ g.stronglyConnectedComponents f ↔ g.IsComponent f.avoid c ∧
      (∀ states, f.require = some states → ∃ x ∈ c, x ∈ states) ∧
      (f.ignoreTrivial = true → ¬g.IsTrivial c) := by
  have hmeets : ∀ states : StateSet, c.disjoint states = false ↔ ∃ x ∈ c, x ∈ states := by
    intro states
    rw [Bool.eq_false_iff, Ne, IdentSet.disjoint_iff]
    push Not
    exact Iff.rfl
  rw [stronglyConnectedComponents, List.mem_filter, hg.mem_components_iff]
  refine and_congr_right fun hc => ?_
  rw [Bool.and_eq_true, and_comm, Bool.or_eq_true, isNontrivial_iff hc.nonempty]
  refine and_congr ?_ ?_
  · cases f.require <;> simp [hmeets]
  · cases f.ignoreTrivial <;> simp

/-- **The strongly connected components**: without a filter, the states that need not be avoided are
partitioned into their components; the filter selects those that it describes, and they are listed
once, each before the others from which it can be reached. -/
theorem stronglyConnectedComponents_spec (hg : g.WellFormed) (f : ComponentFilter) :
    (∀ c, c ∈ g.stronglyConnectedComponents { avoid := f.avoid } ↔ g.IsComponent f.avoid c) ∧
    (∀ x ∈ g.states, x ∉ f.avoid →
      ∃! c, c ∈ g.stronglyConnectedComponents { avoid := f.avoid } ∧ x ∈ c) ∧
    (∀ c, c ∈ g.stronglyConnectedComponents f ↔
      c ∈ g.stronglyConnectedComponents { avoid := f.avoid } ∧
        (∀ states, f.require = some states → ∃ x ∈ c, x ∈ states) ∧
        (f.ignoreTrivial = true → ¬g.IsTrivial c)) ∧
    (g.stronglyConnectedComponents f).Nodup ∧
    (g.stronglyConnectedComponents f).Pairwise fun c d =>
      ∀ x ∈ c, ∀ y ∈ d, ¬g.LeadsAvoiding f.avoid x y := by
  have hunfiltered : ∀ c, c ∈ g.stronglyConnectedComponents { avoid := f.avoid } ↔
      g.IsComponent f.avoid c := by
    intro c
    rw [hg.mem_stronglyConnectedComponents_iff]
    exact and_iff_left ⟨fun _ hnone => (nomatch hnone), fun hoff => (nomatch hoff)⟩
  have hordered : (g.stronglyConnectedComponents f).Pairwise fun c d =>
      ∀ x ∈ c, ∀ y ∈ d, ¬g.LeadsAvoiding f.avoid x y := (hg.components_ordered f.avoid).filter _
  refine ⟨hunfiltered, fun x hx hout => ?_, fun c => ?_, ?_, hordered⟩
  · obtain ⟨c, hc, hxc⟩ := ((hg.settled_components f.avoid).2 x).mpr ⟨hx, hout⟩
    have hcomponent := hg.mem_components_iff.mp hc
    refine ⟨c, ⟨(hunfiltered c).mpr hcomponent, hxc⟩, fun d ⟨hd, hxd⟩ => ?_⟩
    exact ((hunfiltered d).mp hd).eq_of_mem hcomponent hxd hxc
  · rw [hg.mem_stronglyConnectedComponents_iff, hunfiltered]
  · -- a component leads to itself, so it is not listed again
    refine hordered.imp_of_mem fun {c d} hc _ hcd heq => ?_
    obtain ⟨x, hx⟩ := ((hg.mem_stronglyConnectedComponents_iff f).mp hc).1.nonempty
    exact hcd x hx x (heq ▸ hx) ⟨[], isPath_nil, rfl, fun _ ht => absurd ht List.not_mem_nil⟩

/-- A machine that never fails goes through its first two states. The third one is
avoided, so it is in no component. -/
theorem machine_stronglyConnectedComponents : machine.WellFormed ∧ .ofList [⟨1⟩, ⟨2⟩] ∈
    machine.stronglyConnectedComponents { ignoreTrivial := true, avoid := .ofList [⟨3⟩] } := by
  obtain ⟨hall, -, hselected, -⟩ := stronglyConnectedComponents_spec machine_wellFormed
    { ignoreTrivial := true, avoid := .ofList [⟨3⟩] }
  have hmem : ∀ {x : StateId}, x ∈ (IdentSet.ofList [⟨1⟩, ⟨2⟩] : StateSet) ↔ x = ⟨1⟩ ∨ x = ⟨2⟩ := by
    simp [IdentSet.mem_ofList]
  have hstay : ∀ x, machine.LeadsAvoiding (.ofList [⟨3⟩]) x x := fun x => ⟨[], trivial, rfl, by simp⟩
  have hstart : machine.LeadsAvoiding (.ofList [⟨3⟩]) ⟨1⟩ ⟨2⟩ :=
    ⟨[⟨⟨1⟩, ⟨1⟩, ⟨2⟩⟩], ⟨by decide +kernel, rfl, trivial⟩, rfl, by decide +kernel⟩
  have hfinish : machine.LeadsAvoiding (.ofList [⟨3⟩]) ⟨2⟩ ⟨1⟩ :=
    ⟨[⟨⟨2⟩, ⟨2⟩, ⟨1⟩⟩], ⟨by decide +kernel, rfl, trivial⟩, rfl, by decide +kernel⟩
  have hothers : machine.states \ .ofList [⟨3⟩] ⊆ .ofList [⟨1⟩, ⟨2⟩] := by decide +kernel
  have hcomponent : machine.IsComponent (.ofList [⟨3⟩]) (.ofList [⟨1⟩, ⟨2⟩]) := by
    refine ⟨⟨⟨1⟩, by decide +kernel⟩, fun x hx => ?_, fun x hx y hy => ?_, fun _ _ y hy hout _ _ =>
      hothers y (IdentSet.mem_sdiff.mpr ⟨hy, hout⟩)⟩
    · obtain rfl | rfl := hmem.mp hx <;> decide +kernel
    · obtain rfl | rfl := hmem.mp hx <;> obtain rfl | rfl := hmem.mp hy
      exacts [hstay _, hstart, hfinish, hstay _]
  refine ⟨machine_wellFormed, (hselected _).mpr ⟨(hall _).mpr hcomponent, fun states hnone => ?_, ?_⟩⟩
  · cases hnone
  · rintro - ⟨x, hx, -⟩
    cases ((hx ⟨1⟩).mp (by decide +kernel)).trans ((hx ⟨2⟩).mp (by decide +kernel)).symm

/-! ## Cycles -/

/-- **A cycle**: the test finds one if and only if there is one. A cycle stays
within a component, and a component that is not trivial has a cycle through each of
its states. -/
theorem hasCycle_iff (hg : g.WellFormed) : g.hasCycle through around = true ↔
    ∃ x ∈ through, ∃ ts, ts ≠ [] ∧ g.IsPath x ts ∧ endOf x ts = x ∧
      ∀ t ∈ ts, t.target ∉ around := by
  rw [hasCycle, Bool.not_eq_true', List.isEmpty_eq_false_iff_exists_mem]
  simp only [hg.mem_stronglyConnectedComponents_iff]
  constructor
  · rintro ⟨c, hc, hmeets, hnontrivial⟩
    obtain ⟨x, hx, hthrough⟩ := hmeets _ rfl
    exact ⟨x, hthrough, hc.exists_cycle (hnontrivial trivial) hx⟩
  · rintro ⟨x, hthrough, ts, hne, hts, hend, havoid⟩
    obtain ⟨u, hu, htarget⟩ := exists_target_eq_endOf hne x
    have hout : x ∉ around := by
      rw [← hend, ← htarget]
      exact havoid u hu
    have hstate : x ∈ g.states := by
      obtain ⟨t, ts, rfl⟩ := List.exists_cons_of_ne_nil hne
      exact hts.2.1 ▸ hg.source_mem t hts.1
    obtain ⟨c, hc, hx⟩ := ((hg.settled_components around).2 x).mpr ⟨hstate, hout⟩
    have hc := hg.mem_components_iff.mp hc
    refine ⟨c, hc, fun states heq => ?_, fun _ => hc.not_isTrivial hg hx hne hts hend havoid⟩
    obtain rfl := Option.some.inj heq
    exact ⟨x, hx, hthrough⟩

end OmegaControl.Automaton
