import OmegaControl.Proofs.Liveness.Supervision
import OmegaControl.Proofs.Reaching
import OmegaControl.Proofs.Synthesis.ControllablePart
import OmegaControl.Proofs.Synthesis.Represents
import OmegaControl.Synthesis.Supremal

/-!
# What pruning keeps

A candidate is made smaller in many steps, and each of them is a deletion of states.
None deletes a state that is visited under a supervisor that solves the control
problem (`Supervisor.Solves`): such states comply, lead to marked states, are
reached, are not blocking and are enforceable. Since the runs of the supervisor stay
among these states, it still solves the control problem in what is left
(`Keeps.solves`), so the argument goes on to the next step (`Keeps.trans`).

When nothing is taken away any more, every state has all these properties
(`ControlProblem.Settled`).

The order of the deletions does not matter, and neither does how often each of them
is made: each keeps what has to be kept, and the loop only ends when all of them
agree. So `refine_spec` would survive if the steps were taken in another order.
-/

namespace OmegaControl

variable {c : ControlProblem} {g h k : Automaton} {label : StateId → ProductState}
  {plantMarking : StateSet} {x₀ : StateId} {ts : List Transition}

/-! ## Supervisors in a part

A supervisor is a function of the run, so the same supervisor can be used in a part
of the automaton. Its runs are the same if none of the states it visits has been
deleted. -/

namespace Supervisor

variable {controllable : EventSet} {S : Supervisor controllable}

/-- The start is visited, by the empty run. -/
theorem start_mem_visited : x₀ ∈ S.visited g x₀ := ⟨[], isRun_nil, rfl⟩

theorem IsRun.endOf_mem_visited (hts : S.IsRun g x₀ ts) : endOf x₀ ts ∈ S.visited g x₀ :=
  ⟨ts, hts, rfl⟩

/-- All steps of a run visit states that are visited. -/
theorem IsRun.target_mem_visited (hts : S.IsRun g x₀ ts) {t : Transition} (ht : t ∈ ts) :
    t.target ∈ S.visited g x₀ := by
  obtain ⟨us, vs, rfl⟩ := List.append_of_mem ht
  rw [List.append_cons] at hts
  exact ⟨us ++ [t], hts.of_append, endOf_concat x₀ us t⟩

section

variable (hpart : h.IsPart g) (hkept : S.visited g x₀ ⊆ h.states.carrier)
include hpart hkept

/-- If no visited state is deleted, the runs stay the same: each of them visits only
states that are left. -/
theorem isRun_iff_of_isPart : S.IsRun h x₀ ts ↔ S.IsRun g x₀ ts := by
  constructor
  · intro hts
    exact ⟨hpart.isPath hts.1, hts.2⟩
  · intro hts
    refine ⟨(hpart.isPath_iff (hkept start_mem_visited)).mpr ⟨hts.1, fun t ht => ?_⟩, hts.2⟩
    exact hkept (hts.target_mem_visited ht)

/-- So the states that are visited stay the same as well. -/
theorem visited_eq_of_isPart : S.visited h x₀ = S.visited g x₀ := by
  ext y
  simp only [visited, Set.mem_ofPred_eq, isRun_iff_of_isPart hpart hkept]

/-- And the marking is enforced in the part, if it was in the whole. -/
theorem Enforces.of_isPart (hS : S.Enforces g plantMarking x₀) :
    S.Enforces h plantMarking x₀ where
  marked_ahead ts hts := by
    have hrun := (isRun_iff_of_isPart hpart hkept).mp hts
    obtain ⟨us, hne, hus, hmarked⟩ := hS.marked_ahead ts hrun
    refine ⟨us, hne, (isRun_iff_of_isPart hpart hkept).mpr hus, ?_⟩
    exact hpart.mem_marked.mpr ⟨hmarked, hkept hus.endOf_mem_visited⟩
  marked_again r hr hplant := by
    have hrun : S.IsInfiniteRun g x₀ r :=
      fun n => (isRun_iff_of_isPart hpart hkept).mp (hr n)
    refine (hS.marked_again r hrun hplant).mono fun n hmarked => ?_
    exact hpart.mem_marked.mpr ⟨hmarked, hkept (hrun n).endOf_mem_visited⟩

end

/-- The supervisor solves the control problem in the candidate: it enforces the marking,
and no uncontrollable event of the plant is missing in a state that is visited. -/
structure Solves (c : ControlProblem) (g : Automaton) (label : StateId → ProductState)
    (plantMarking : StateSet) (S : Supervisor c.controllable) (x₀ : StateId) : Prop where
  /-- it starts in an initial state -/
  start : x₀ ∈ g.initial
  /-- it enforces the marking -/
  enforces : S.Enforces g plantMarking x₀
  /-- no uncontrollable event of the plant is missing where it goes -/
  complies : ∀ x ∈ S.visited g x₀,
    CompliesWithin c.plant c.controllable g (fun x => (label x).plant) (S.visited g x₀) x

namespace Solves

variable {S : Supervisor c.controllable}

/-- If no visited state is deleted, the supervisor solves the problem in what is left. -/
theorem of_isPart (hS : S.Solves c g label plantMarking x₀) (hpart : h.IsPart g)
    (hkept : S.visited g x₀ ⊆ h.states.carrier) : S.Solves c h label plantMarking x₀ where
  start := hpart.mem_initial.mpr ⟨hS.start, hkept start_mem_visited⟩
  enforces := hS.enforces.of_isPart hpart hkept
  complies x hx l hl hsource hev := by
    rw [visited_eq_of_isPart hpart hkept] at hx ⊢
    obtain ⟨r, hr, rfl, hevent, htarget⟩ := hS.complies x hx l hl hsource hev
    exact ⟨r, hpart.mem_transitions.mpr ⟨hr, hkept hx, hkept htarget⟩, rfl, hevent, htarget⟩

variable (hS : S.Solves c g label plantMarking x₀)
include hS

/-- Only states are visited. -/
theorem visited_subset (hwf : g.WellFormed) : S.visited g x₀ ⊆ g.states.carrier := by
  rintro x ⟨ts, hts, rfl⟩
  exact hts.1.endOf_mem hwf (hwf.initial_subset x₀ hS.start)

/-! Each of the deletions keeps what is visited. -/

/-- The states that are visited comply within each other, and each of them is
reached among them. -/
theorem subset_controllablePart (hc : c.WellPosed) (hg : c.Represents g label) :
    S.visited g x₀ ⊆ (controllablePart c.plant c.controllable g).states.carrier := by
  rintro x ⟨ts, hts, rfl⟩
  refine mem_controllablePart (hg.hasUniqueSuccessors hc) (fun r hr _ => ?_)
    hc.plant_isDeterministic.hasUniqueSuccessors (hg.initialPair?_eq hc hS.start) _ hS.complies
    hts.1 start_mem_visited (fun t ht => hts.target_mem_visited ht)
    (hS.visited_subset hg.wellFormed hts.endOf_mem_visited)
  exact ((hg.mem_transitions r).mp hr).2.2.plant_mem

/-- From each of them a marked state can be reached. -/
theorem subset_coaccessible (hwf : g.WellFormed) :
    S.visited g x₀ ⊆ g.coaccessible.states.carrier := by
  rintro x ⟨ts, hts, rfl⟩
  refine Automaton.mem_states_restrictStates.mpr
    ⟨hS.visited_subset hwf hts.endOf_mem_visited, Automaton.mem_coaccessibleSet.mpr ?_⟩
  obtain ⟨us, -, hus, hmarked⟩ := hS.enforces.marked_ahead ts hts
  exact ⟨us, (Automaton.isPath_append.mp hus.1).2, endOf_append x₀ ts us ▸ hmarked⟩

theorem subset_accessible (hwf : g.WellFormed) :
    S.visited g x₀ ⊆ g.accessible.states.carrier := by
  rintro x ⟨ts, hts, rfl⟩
  exact Automaton.mem_states_restrictStates.mpr ⟨hS.visited_subset hwf hts.endOf_mem_visited,
    Automaton.mem_accessibleSet.mpr ⟨x₀, hS.start, ts, hts.1, rfl⟩⟩

/-- Each of them can go on forever among them. -/
theorem subset_complete (hwf : g.WellFormed) :
    S.visited g x₀ ⊆ g.complete.states.carrier := by
  have halive : ∀ y ∈ S.visited g x₀,
      ∃ t ∈ g.transitions, t.source = y ∧ t.target ∈ S.visited g x₀ := by
    rintro y ⟨ts, hts, rfl⟩
    -- a run that leads on to a marked state has a next step
    obtain ⟨us, hne, hus, -⟩ := hS.enforces.marked_ahead ts hts
    obtain ⟨u, us, rfl⟩ := List.exists_cons_of_ne_nil hne
    rw [List.append_cons] at hus
    have hrun := hus.of_append
    obtain ⟨-, hu, hsource, -⟩ := isRun_concat.mp hrun
    exact ⟨u, hu, hsource, _, hrun, endOf_concat x₀ ts u⟩
  intro x hx
  exact Automaton.mem_states_deleteStates.mpr
    ⟨hS.visited_subset hwf hx, Automaton.not_mem_blockingSet _ halive hx⟩

/-- And each of them is enforceable, as a supervisor enforces the marking there. -/
theorem subset_enforceable (hwf : g.WellFormed) :
    S.visited g x₀ ⊆ (restrictToEnforceable g c.controllable plantMarking).value.states.carrier :=
  fun _ hx => states_restrictToEnforceable.mpr
    (hS.enforces.visited_subset hwf (hwf.initial_subset x₀ hS.start) hx)

end Solves

end Supervisor

/-! ## Deletions

What a deletion has to be: nothing but a deletion, and harmless to every supervisor
that solves the problem. Such deletions can be made one after another. -/

namespace ControlProblem

/-- States are deleted at most, and none that is visited under a supervisor that solves the
control problem. -/
structure Keeps (c : ControlProblem) (label : StateId → ProductState) (plantMarking : StateSet)
    (g h : Automaton) : Prop where
  /-- states are deleted, and nothing else -/
  isPart : h.IsPart g
  wellFormed : h.WellFormed
  /-- no state that is visited is deleted -/
  visited_subset : ∀ (S : Supervisor c.controllable) x₀, S.Solves c g label plantMarking x₀ →
    S.visited g x₀ ⊆ h.states.carrier

namespace Keeps

/-- What is left still represents a part of the product. -/
theorem represents (hkeeps : c.Keeps label plantMarking g h) (hg : c.Represents g label) :
    c.Represents h label := hg.of_isPart hkeeps.isPart hkeeps.wellFormed

/-- What solves the problem still solves it. -/
theorem solves (hkeeps : c.Keeps label plantMarking g h) {S : Supervisor c.controllable}
    (hS : S.Solves c g label plantMarking x₀) : S.Solves c h label plantMarking x₀ :=
  hS.of_isPart hkeeps.isPart (hkeeps.visited_subset S x₀ hS)

theorem refl (hwf : g.WellFormed) : c.Keeps label plantMarking g g :=
  ⟨hwf.isPart, hwf, fun _ _ hS => hS.visited_subset hwf⟩

/-- Deletions can be made one after another: a supervisor that solves the problem in
the whole does so after the first one, and so no state that it visits is deleted by
the second one. -/
theorem trans (hgh : c.Keeps label plantMarking g h) (hhk : c.Keeps label plantMarking h k) :
    c.Keeps label plantMarking g k where
  isPart := hhk.isPart.trans hgh.isPart
  wellFormed := hhk.wellFormed
  visited_subset S x₀ hS := by
    rw [← Supervisor.visited_eq_of_isPart hgh.isPart (hgh.visited_subset S x₀ hS)]
    exact hhk.visited_subset S x₀ (hgh.solves hS)

end Keeps

section

variable (hwf : g.WellFormed)
include hwf

theorem keeps_coaccessible : c.Keeps label plantMarking g g.coaccessible :=
  ⟨hwf.isPart_restrictStates _, hwf.restrictStates _, fun _ _ hS => hS.subset_coaccessible hwf⟩

theorem keeps_accessible : c.Keeps label plantMarking g g.accessible :=
  ⟨hwf.isPart_restrictStates _, hwf.restrictStates _, fun _ _ hS => hS.subset_accessible hwf⟩

theorem keeps_complete : c.Keeps label plantMarking g g.complete :=
  ⟨hwf.isPart_deleteStates _, hwf.deleteStates _, fun _ _ hS => hS.subset_complete hwf⟩

end

section

variable (plantMarking) (hc : c.WellPosed) (hg : c.Represents g label)
include hc hg

/-- The controllable part has all that is visited. -/
theorem keeps_controllablePart :
    c.Keeps label plantMarking g (controllablePart c.plant c.controllable g) := by
  have hpart : (controllablePart c.plant c.controllable g).IsPart g ∧
      (controllablePart c.plant c.controllable g).WellFormed := by
    rw [controllablePart]
    split
    · exact ⟨hg.wellFormed.isPart, hg.wellFormed⟩
    · exact ⟨hg.wellFormed.isPart_restrictStates _, hg.wellFormed.restrictStates _⟩
  exact ⟨hpart.1, hpart.2, fun _ _ hS => hS.subset_controllablePart hc hg⟩

/-- One pass of pruning is a chain of such deletions. -/
theorem keeps_pruneOnce : c.Keeps label plantMarking g (c.pruneOnce g) := by
  have hcontrollable := keeps_controllablePart plantMarking hc hg
  have hcoaccessible := hcontrollable.trans (keeps_coaccessible hcontrollable.wellFormed)
  have haccessible := hcoaccessible.trans (keeps_accessible hcoaccessible.wellFormed)
  exact haccessible.trans (keeps_complete haccessible.wellFormed)

/-- So is the loop around it. -/
theorem keeps_prunePrefixes : c.Keeps label plantMarking g (c.prunePrefixes g) := by
  fun_induction prunePrefixes c g with
  | case1 g rest _ => exact keeps_pruneOnce plantMarking hc hg
  | case2 g rest _ _ ih =>
    have hkeeps := keeps_pruneOnce plantMarking hc hg
    exact hkeeps.trans (ih (hkeeps.represents hg))
  | case3 g rest _ _ => exact keeps_pruneOnce plantMarking hc hg

omit hc in
/-- The fixpoint has all that is visited, too. -/
theorem keeps_restrictToEnforceable : c.Keeps label plantMarking g
    (restrictToEnforceable g c.controllable plantMarking).value := by
  refine ⟨?_, ?_, fun _ _ hS => hS.subset_enforceable hg.wellFormed⟩
  · exact value_restrictToEnforceable ▸ hg.wellFormed.isPart_restrictStates _
  · exact value_restrictToEnforceable ▸ hg.wellFormed.restrictStates _

end

/-! ## When nothing is deleted

Sizes are compared, and a deletion that leaves as many states as there were has left
everything. -/

/-- Every state complies, is reached and is enforceable. A round that deletes
nothing has tested all of this, so the candidate the loop ends with is settled. -/
structure Settled (c : ControlProblem) (g : Automaton) (label : StateId → ProductState)
    (plantMarking : StateSet) : Prop where
  /-- no uncontrollable event of the plant is missing -/
  complies : ∀ x ∈ g.states,
    CompliesWithin c.plant c.controllable g (fun x => (label x).plant) Set.univ x
  /-- every state is reached -/
  reached : ∀ x ∈ g.states, ∃ x₀ ∈ g.initial, ∃ ts, g.IsPath x₀ ts ∧ endOf x₀ ts = x
  /-- the marking can be enforced from every state -/
  enforceable : ∀ x ∈ g.states, x ∈ g.enforceable c.controllable plantMarking

theorem Settled.allReached (h : c.Settled g label plantMarking) : g.AllReached :=
  fun x hx => Automaton.exists_reaches_iff.mpr (h.reached x hx)

/-- Where nothing is left there is nothing to ask for. -/
theorem settled_of_isEmpty (hempty : g.isEmpty = true) : c.Settled g label plantMarking := by
  have hnone : ∀ {x}, x ∉ g.states := fun {x} => IdentSet.isEmpty_iff.mp hempty x
  exact ⟨fun _ hx => absurd hx hnone, fun _ hx => absurd hx hnone, fun _ hx => absurd hx hnone⟩

/-- If pruning leaves as many states as there were, none of its steps has deleted
any, as sizes go down from step to step. -/
theorem eq_of_size_le_pruneOnce (hsize : g.size ≤ (c.pruneOnce g).size) :
    controllablePart c.plant c.controllable g = g ∧ g.accessible = g ∧ c.pruneOnce g = g := by
  have hcontrollable : controllablePart c.plant c.controllable g = g := by
    have hle : g.size ≤ (controllablePart c.plant c.controllable g).size :=
      hsize.trans ((Automaton.size_complete_le _).trans ((Automaton.size_accessible_le _).trans
        (Automaton.size_coaccessible_le _)))
    rw [controllablePart] at hle ⊢
    split at hle
    · rfl
    · exact Automaton.eq_of_size_le_restrictStates hle
  rw [pruneOnce, hcontrollable] at hsize ⊢
  obtain ⟨hcoaccessible, haccessible, hcomplete⟩ := Automaton.eq_of_size_le_trimmed hsize
  exact ⟨rfl, haccessible, by rw [hcoaccessible, haccessible, hcomplete]⟩

/-- The inner loop ends when a pass has deleted nothing, or nothing is left. -/
theorem prunePrefixes_fixed (c : ControlProblem) (g : Automaton) :
    (c.prunePrefixes g).isEmpty = true ∨ c.pruneOnce (c.prunePrefixes g) = c.prunePrefixes g := by
  fun_induction prunePrefixes c g with
  | case1 g rest hempty => exact .inl hempty
  | case2 g rest _ _ ih => exact ih
  | case3 g rest _ hsize =>
    have heq : rest = g := (eq_of_size_le_pruneOnce (Nat.le_of_not_lt hsize)).2.2
    exact .inr (heq.symm ▸ heq)

section

variable (hc : c.WellPosed) (hg : c.Represents g label)
include hc hg

/-- If neither pruning nor the fixpoint takes anything away, the states are as they
should be. -/
theorem settled_of_eq (hprune : g.isEmpty = true ∨ c.pruneOnce g = g)
    (hlive : g.size ≤ (restrictToEnforceable g c.controllable plantMarking).value.size) :
    c.Settled g label plantMarking := by
  rcases hprune with hempty | hprune
  · exact settled_of_isEmpty hempty
  · obtain ⟨hcontrollable, haccessible, -⟩ :=
      eq_of_size_le_pruneOnce (Nat.le_of_eq (congrArg Automaton.size hprune.symm))
    have hreached : ∀ x ∈ g.states, ∃ x₀ ∈ g.initial, ∃ ts, g.IsPath x₀ ts ∧ endOf x₀ ts = x :=
      fun x hx => Automaton.mem_accessibleSet.mp (Automaton.mem_of_restrictStates_eq haccessible hx)
    refine ⟨fun x hx => ?_, hreached, fun x hx => ?_⟩
    · obtain ⟨x₀, hx₀, -⟩ := hreached x hx
      refine complies_of_controllablePart_eq (hg.hasUniqueSuccessors hc) (fun r hr _ => ?_)
        hc.plant_isDeterministic.hasUniqueSuccessors (hg.initialPair?_eq hc hx₀) hg.wellFormed
        hcontrollable hx
      exact ((hg.mem_transitions r).mp hr).2.2.plant_mem
    · rw [value_restrictToEnforceable] at hlive
      have heq := Automaton.eq_of_size_le_restrictStates hlive
      rw [← carrier_foundWithRecords]
      exact Automaton.mem_of_restrictStates_eq heq hx

variable (plantMarking) in
/-- **The loop** deletes nothing that is needed, in whatever order states are taken away,
and does not end before every state that is left is as it should be. -/
theorem refine_spec (total : ℕ) :
    c.Keeps label plantMarking g (c.refine plantMarking total g).value ∧
      c.Settled (c.refine plantMarking total g).value label plantMarking := by
  fun_induction refine c plantMarking total g with
  | case1 g ih =>
    rw [Watched.value_bind]
    split
    next hempty => exact ⟨.refl hg.wellFormed, settled_of_isEmpty hempty⟩
    next =>
      have hpruned := keeps_prunePrefixes plantMarking hc hg
      have hrep := hpruned.represents hg
      have hlive := keeps_restrictToEnforceable plantMarking hrep
      rw [Watched.value_bind]
      split
      -- something was taken away, so the loop goes on with what is left
      next hsmaller =>
        obtain ⟨hkeeps, hsettled⟩ := ih _ hsmaller (hlive.represents hrep)
        exact ⟨(hpruned.trans hlive).trans hkeeps, hsettled⟩
      -- nothing was taken away, so the fixpoint is all there was
      next hsame =>
        have hsize := Nat.le_of_not_lt hsame
        have hsettled := settled_of_eq hc hrep (c.prunePrefixes_fixed g) hsize
        have heq : (restrictToEnforceable (c.prunePrefixes g) c.controllable plantMarking).value =
            c.prunePrefixes g := by
          rw [value_restrictToEnforceable] at hsize ⊢
          exact Automaton.eq_of_size_le_restrictStates hsize
        rw [heq]
        exact ⟨hpruned, hsettled⟩

end

end ControlProblem

end OmegaControl
