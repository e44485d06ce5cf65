import OmegaControl.Proofs.Liveness.ClosedLoop
import OmegaControl.Proofs.Supervisor

/-!
# Enforceable states are those with a supervisor

A supervisor may disable different events at one state, depending on what has
happened before. It can do no more than one that looks at the state only.

* Every state that a run of the closed loop visits is enforceable
  (`Supervisor.Enforces.visited_subset`). The states that are visited are shown to
  lie in each of the greatest fixpoints. If one of them were not in the innermost of
  these, the run could go on to the plant marking without a marked state in between
  (`exists_unmarked_run`), and so it could over and over again: an infinite run that
  visits the plant marking infinitely often, but not marked states.
* For every enforceable state, the recorded feedback gives a supervisor
  (`Supervisor.enforces_feedbackOutside`), by its progress measure.

Together they say what `restrictToEnforceable` is for: it leaves exactly those
states from which some supervisor enforces the marking
(`mem_restrictToEnforceable_iff`). The second part is shown for a supervisor that
does nothing during a given set of runs and takes over afterwards, which is what is
needed where a run has to be let go its own way first.
-/

namespace OmegaControl

variable {g : Automaton} {controllable : EventSet} {plantMarking : StateSet} {x : StateId}

/-! ## What a supervisor enforces is enforceable

Throughout, `S` is any supervisor that enforces the marking from `x`. The target is
any set that contains the marked states it visits. -/

namespace Supervisor

variable {S : Supervisor controllable} {ts us : List Transition}

/-- The states that are visited by the runs of the closed loop. -/
def visited (S : Supervisor controllable) (g : Automaton) (x : StateId) : Set StateId :=
  {y | ∃ ts, S.IsRun g x ts ∧ endOf x ts = y}

/-- No step visits a marked state. The state from which one starts is not asked. -/
def Unmarked (g : Automaton) (ts : List Transition) : Prop := ∀ t ∈ ts, t.target ∉ g.marked

theorem unmarked_nil : Unmarked g [] := fun _ ht => absurd ht List.not_mem_nil

theorem unmarked_concat {t : Transition} (hts : Unmarked g ts) (ht : t.target ∉ g.marked) :
    Unmarked g (ts ++ [t]) := by
  intro u hu
  rcases List.mem_append.mp hu with hu | hu
  · exact hts u hu
  · exact List.mem_singleton.mp hu ▸ ht

theorem unmarked_append (hts : Unmarked g ts) (hus : Unmarked g us) : Unmarked g (ts ++ us) := by
  intro u hu
  exact (List.mem_append.mp hu).elim (hts u) (hus u)

section

variable (hwf : g.WellFormed) (hx : x ∈ g.states) (hS : S.Enforces g plantMarking x)
  {target domain : Set StateId}
include hwf hx

/-- The state at the end of a run lies in the innermost fixpoint if the run can be led to a
marked state, and if on its way without marked states it either visits the target or stays
in the domain, outside the plant marking. The induction is on the way to the marked state. -/
theorem endOf_mem_lfp_attractStep
    (htarget : S.visited g x ∩ g.marked.carrier ⊆ target)
    (hstay : ∀ us, us ≠ [] → S.IsRun g x (ts ++ us) → Unmarked g us →
      endOf x (ts ++ us) ∈ target ∨
        endOf x (ts ++ us) ∈ domain ∧ endOf x (ts ++ us) ∉ plantMarking)
    {us vs : List Transition} (hus : Unmarked g us) (hvs : vs ≠ [])
    (hrun : S.IsRun g x ((ts ++ us) ++ vs)) (hmarked : endOf x ((ts ++ us) ++ vs) ∈ g.marked) :
    endOf x (ts ++ us) ∈ (g.attractStep controllable plantMarking target domain).lfp := by
  induction vs generalizing us with
  | nil => exact absurd rfl hvs
  | cons t vs ih =>
    have hrun' : S.IsRun g x (ts ++ us) := hrun.of_append
    have hassoc : (ts ++ us) ++ t :: vs = (ts ++ (us ++ [t])) ++ vs := by simp
    rw [hassoc] at hrun hmarked
    have hnext : S.IsRun g x (ts ++ (us ++ [t])) := hrun.of_append
    have hend : endOf x (ts ++ (us ++ [t])) = t.target := by
      rw [← List.append_assoc, endOf_concat]
    obtain ⟨-, htg, hsource, -⟩ := isRun_concat.mp (List.append_assoc ts us [t] ▸ hnext)
    rw [← OrderHom.map_lfp]
    refine ⟨hrun'.1.endOf_mem hwf hx, ⟨t, htg, hsource, ?_⟩, fun u hu husource hunc => ?_⟩
    · -- the next step on the way to the marked state drives the run on
      by_cases hmark : t.target ∈ g.marked
      · exact .inl (htarget ⟨⟨_, hnext, hend⟩, hmark⟩)
      · have hunmarked := unmarked_concat hus hmark
        have hvs' : vs ≠ [] := by
          rintro rfl
          rw [List.append_nil, hend] at hmarked
          exact hmark hmarked
        have hnear := ih hunmarked hvs' hrun hmarked
        rw [hend] at hnear
        rcases hstay _ (by simp) hnext hunmarked with hmem | ⟨-, hout⟩
        · exact .inl (hend ▸ hmem)
        · exact .inr ⟨hnear, hend ▸ hout⟩
    · -- and an uncontrollable step, which the supervisor cannot prevent, stays
      -- inside
      have hnext' : S.IsRun g x (ts ++ (us ++ [u])) :=
        List.append_assoc ts us [u] ▸ hrun'.concat_of_not_mem hu husource hunc
      have hend' : endOf x (ts ++ (us ++ [u])) = u.target := by
        rw [← List.append_assoc, endOf_concat]
      by_cases hmark : u.target ∈ g.marked
      · exact .inl (.inl (htarget ⟨⟨_, hnext', hend'⟩, hmark⟩))
      · rcases hstay _ (by simp) hnext' (unmarked_concat hus hmark) with hmem | ⟨hmem, hout⟩
        · exact .inl (.inl (hend' ▸ hmem))
        · exact .inr ⟨hend' ▸ hmem, hend' ▸ hout⟩

include hS

/-- A run that ends outside the third fixpoint can go on to the plant marking, still
outside and without a marked state in between. Otherwise the states that it can go
on to without a marked state would be a domain, and it would end inside. -/
theorem exists_unmarked_run
    (htarget : S.visited g x ∩ g.marked.carrier ⊆ target) (hts : S.IsRun g x ts)
    (hout : endOf x ts ∉ (g.approachStep controllable plantMarking target).lfp) :
    ∃ us, us ≠ [] ∧ S.IsRun g x (ts ++ us) ∧ Unmarked g us ∧
      endOf x (ts ++ us) ∈ plantMarking ∧
      endOf x (ts ++ us) ∉ (g.approachStep controllable plantMarking target).lfp := by
  by_contra hnone
  push Not at hnone
  set near := (g.approachStep controllable plantMarking target).lfp with hnear
  -- then these states together with those of `near` are a domain of the fourth loop
  let domain : Set StateId :=
    near ∪ {y | ∃ us, S.IsRun g x (ts ++ us) ∧ Unmarked g us ∧ endOf x (ts ++ us) = y}
  have hfix : (g.stayStep controllable plantMarking (target ∪ near)).gfp = near :=
    (g.approachStep controllable plantMarking target).map_lfp
  have hdomain : domain ⊆ g.stayStep controllable plantMarking (target ∪ near) domain := by
    rintro y (hy | ⟨us, hus, hunmarked, rfl⟩)
    · have hfix' := (g.stayStep controllable plantMarking (target ∪ near)).map_gfp
      rw [hfix] at hfix'
      exact (g.stayStep controllable plantMarking (target ∪ near)).monotone
        Set.subset_union_left (hfix'.symm ▸ hy)
    · obtain ⟨vs, hvs, hrun, hmarked⟩ := hS.marked_ahead _ hus
      refine endOf_mem_lfp_attractStep hwf hx (htarget.trans Set.subset_union_left) ?_
        hunmarked hvs hrun hmarked
      intro us' hne hus' hunmarked'
      by_cases hin : endOf x (ts ++ us') ∈ near
      · exact .inl (.inr hin)
      · exact .inr ⟨.inr ⟨us', hus', hunmarked', rfl⟩, fun hplant =>
          hin (hnone us' hne hus' hunmarked' hplant)⟩
  refine hout (hfix ▸ OrderHom.le_gfp _ hdomain (.inr ⟨[], ?_, unmarked_nil, ?_⟩))
  · rwa [List.append_nil]
  · rw [List.append_nil]

/-- Every state that is visited lies in the third fixpoint: otherwise there would be
an infinite run that visits the plant marking infinitely often, but not marked
states. Its pieces come from `exists_unmarked_run`, one after the other. -/
theorem visited_subset_lfp_approachStep
    (htarget : S.visited g x ∩ g.marked.carrier ⊆ target) :
    S.visited g x ⊆ (g.approachStep controllable plantMarking target).lfp := by
  rintro y ⟨ts, hts, rfl⟩
  by_contra hout
  let P : List Transition → Prop := fun vs => S.IsRun g x vs ∧ endOf x vs ∈ plantMarking ∧
    endOf x vs ∉ (g.approachStep controllable plantMarking target).lfp ∧
    ∃ us, vs = ts ++ us ∧ Unmarked g us
  have hnext : ∀ vs, P vs → ∃ us, us ≠ [] ∧ P (vs ++ us) := by
    rintro vs ⟨hvs, -, hout, us, rfl, hus⟩
    obtain ⟨us', hne, hrun, hus', hplant, hout'⟩ :=
      exists_unmarked_run hwf hx hS htarget hvs hout
    exact ⟨us', hne, hrun, hplant, hout', us ++ us', List.append_assoc .., unmarked_append hus hus'⟩
  obtain ⟨us, -, hrun, hus, hplant, hout'⟩ := exists_unmarked_run hwf hx hS htarget hts hout
  obtain ⟨r, -, hoften⟩ := exists_sequence hnext ⟨hrun, hplant, hout', us, rfl, hus⟩
  have hinf := isInfiniteRun_of_infinitelyOften (hoften.mono fun _ hm => hm.1)
  have hplants : InfinitelyOften fun n => endOf x (upTo r n) ∈ plantMarking :=
    hoften.mono fun _ hm => hm.2.1
  -- a marked state that is visited after `ts` contradicts the choice of the run
  obtain ⟨m, hm, hmarked⟩ := hS.marked_again r hinf hplants (ts.length + 1)
  obtain ⟨k, rfl⟩ := Nat.exists_eq_add_of_le' hm
  obtain ⟨n, hn, -, -, -, us, heq, hus⟩ := hoften (k + (ts.length + 1))
  obtain ⟨d, rfl⟩ := Nat.exists_eq_add_of_le (show ts.length ≤ n by omega)
  rw [upTo_add] at heq
  obtain ⟨-, rfl⟩ := List.append_inj heq (length_upTo _)
  rw [← Nat.add_assoc, endOf_upTo_succ] at hmarked
  exact hus _ (mem_upTo.mpr ⟨k, by omega, by rw [Nat.add_comm]⟩) hmarked

end

/-- **What is visited under a supervisor is enforceable.** From all these states the
marked ones among them can be approached, whatever has been resolved before; so they
lie in the greatest fixpoint of the second loop. -/
theorem Enforces.visited_subset (hwf : g.WellFormed) (hx : x ∈ g.states)
    (hS : S.Enforces g plantMarking x) :
    S.visited g x ⊆ g.enforceable controllable plantMarking := by
  rw [Automaton.enforceable, ← OrderHom.map_lfp]
  refine OrderHom.le_gfp _ (visited_subset_lfp_approachStep hwf hx hS ?_)
  exact Set.subset_union_left

/-! ## The recorded feedback as a supervisor

The runs of `free` are let go their own way. With a run its beginnings are in `free`
as well, so once the feedback has taken over it decides forever. -/

section

variable (g controllable plantMarking x)

/-- Disables nothing after the runs of `free`; after any other run, it disables what is
recorded for the state in which the run ends. -/
def feedbackOutside (free : Set (List Transition)) : Supervisor controllable where
  disabled ts := {ev | ts ∉ free ∧ ev ∈ controllable ∧
    ev ∈ (foundWithRecords g controllable plantMarking).2[endOf x ts]?.getD ∅}
  controllable_of_mem _ _ hev := hev.2.1

end

variable {free : Set (List Transition)}

/-- Outside `free` the runs go on as the paths of the closed loop do: what is
disabled after a run is what is recorded for the state at its end. -/
theorem isRun_append_feedbackOutside (hwf : g.WellFormed) (hg : g.HasUniqueSuccessors)
    (hfree : ∀ ts us, ts ++ us ∈ free → ts ∈ free) (hts : ts ∉ free)
    (hend : endOf x ts ∈ (restricted g controllable plantMarking).1.states) :
    (feedbackOutside g controllable plantMarking x free).IsRun g x (ts ++ us) ↔
      (feedbackOutside g controllable plantMarking x free).IsRun g x ts ∧
        (closedLoop g controllable plantMarking).IsPath (endOf x ts) us := by
  obtain ⟨outer, inner, hmeasure⟩ := exists_progressMeasure controllable plantMarking hwf hg
  induction us generalizing ts with
  | nil => simp
  | cons u us ih =>
    have hsplit : ts ++ u :: us = (ts ++ [u]) ++ us := List.append_cons ..
    -- once the run has left the free words, feedback applies, and it allows what
    -- the closed loop has
    have hstep : (feedbackOutside g controllable plantMarking x free).IsRun g x (ts ++ [u]) ↔
        (feedbackOutside g controllable plantMarking x free).IsRun g x ts ∧
          u ∈ (closedLoop g controllable plantMarking).transitions ∧ u.source = endOf x ts := by
      rw [isRun_concat, mem_transitions_closedLoop hwf hg]
      constructor
      · rintro ⟨hrun, hu, hsource, hev⟩
        rw [hsource]
        exact ⟨hrun, ⟨hu, hend, fun hrec => hev ⟨hts, controllable_of_recorded hg hend hrec, hrec⟩⟩,
          rfl⟩
      · rintro ⟨hrun, ⟨hu, -, hev⟩, hsource⟩
        exact ⟨hrun, hu, hsource, fun hd => hev (hsource ▸ hd.2.2)⟩
    -- and it stays among the states that are left
    have hnext : u ∈ (closedLoop g controllable plantMarking).transitions → u.source = endOf x ts →
        endOf x (ts ++ [u]) ∈ (restricted g controllable plantMarking).1.states := by
      intro hu hsource
      rw [endOf_concat]
      exact hmeasure.kept_target u hu (hsource ▸ hend)
    have hts' : ts ++ [u] ∉ free := fun h => hts (hfree ts [u] h)
    rw [hsplit]
    constructor
    · intro hrun
      obtain ⟨hrun', hu, hsource⟩ := hstep.mp hrun.of_append
      obtain ⟨-, hpath⟩ := (ih hts' (hnext hu hsource)).mp hrun
      rw [endOf_concat] at hpath
      exact ⟨hrun', hu, hsource, hpath⟩
    · rintro ⟨hrun, hu, hsource, hpath⟩
      refine (ih hts' (hnext hu hsource)).mpr ⟨hstep.mpr ⟨hrun, hu, hsource⟩, ?_⟩
      rwa [endOf_concat]

/-- **The feedback enforces the marking**, also if it is applied only after some runs,
provided that nothing goes wrong before that. -/
theorem enforces_feedbackOutside (hwf : g.WellFormed) (hg : g.HasUniqueSuccessors)
    (hfree : ∀ ts us, ts ++ us ∈ free → ts ∈ free)
    (hkept : ∀ ts, (feedbackOutside g controllable plantMarking x free).IsRun g x ts →
      ts ∉ free → endOf x ts ∈ (restricted g controllable plantMarking).1.states)
    (hahead : ∀ ts ∈ free, (feedbackOutside g controllable plantMarking x free).IsRun g x ts →
      ∃ us, us ≠ [] ∧ (feedbackOutside g controllable plantMarking x free).IsRun g x (ts ++ us) ∧
        endOf x (ts ++ us) ∈ g.marked)
    (hagain : ∀ r, (∀ n, upTo r n ∈ free) → g.IsInfinitePath x r →
      InfinitelyOften (fun n => endOf x (upTo r n) ∈ plantMarking) →
      InfinitelyOften fun n => endOf x (upTo r n) ∈ g.marked) :
    (feedbackOutside g controllable plantMarking x free).Enforces g plantMarking x := by
  obtain ⟨outer, inner, hmeasure⟩ := exists_progressMeasure controllable plantMarking hwf hg
  have hmarked : ∀ {y}, y ∈ (closedLoop g controllable plantMarking).marked → y ∈ g.marked :=
    fun hy => ((restricted_isPart hwf).mem_marked.mp hy).1
  refine ⟨fun ts hts => ?_, fun r hr hplant => ?_⟩
  · by_cases hin : ts ∈ free
    · exact hahead ts hin hts
    · have hend := hkept ts hts hin
      obtain ⟨us, hne, hpath, hmark⟩ := hmeasure.marked_ahead hend
      refine ⟨us, hne, ?_, endOf_append x ts us ▸ hmarked hmark⟩
      exact (isRun_append_feedbackOutside hwf hg hfree hin hend).mpr ⟨hts, hpath⟩
  · by_cases hin : ∀ n, upTo r n ∈ free
    · exact hagain r hin (fun n => (hr n).1) hplant
    · obtain ⟨n, hn⟩ := not_forall.mp hin
      have hend := hkept _ (hr n) hn
      -- from the `n`-th step on the run is a path of the closed loop
      have htail : (closedLoop g controllable plantMarking).IsInfinitePath (endOf x (upTo r n))
          (fun i => r (n + i)) := by
        intro k
        have hrun := hr (n + k)
        rw [upTo_add] at hrun
        exact ((isRun_append_feedbackOutside hwf hg hfree hn hend).mp hrun).2
      have hshift : ∀ k, endOf (endOf x (upTo r n)) (upTo (fun i => r (n + i)) k) =
          endOf x (upTo r (n + k)) := by
        intro k
        rw [upTo_add, endOf_append]
      have hmark := hmeasure.marked_again hend htail
        (by simpa only [hshift] using (infinitelyOften_add n).mpr hplant)
      simp only [hshift] at hmark
      exact ((infinitelyOften_add n).mp hmark).mono fun _ => hmarked

end Supervisor

/-- An enforceable state has a supervisor. -/
theorem exists_enforces (hwf : g.WellFormed) (hg : g.HasUniqueSuccessors)
    (hx : x ∈ g.enforceable controllable plantMarking) :
    ∃ S : Supervisor controllable, S.Enforces g plantMarking x := by
  have hkept : x ∈ (restricted g controllable plantMarking).1.states := by
    rw [states_restricted, ← IdentSet.mem_carrier, carrier_foundWithRecords]
    exact hx
  obtain ⟨outer, inner, hmeasure⟩ := exists_progressMeasure controllable plantMarking hwf hg
  refine ⟨Supervisor.feedbackOutside g controllable plantMarking x ∅,
    Supervisor.enforces_feedbackOutside hwf hg (fun _ _ h => h) (fun ts hts _ => ?_)
      (fun _ h => absurd h (Set.notMem_empty _))
      (fun _ h => absurd (h 0) (Set.notMem_empty _))⟩
  have hpath := (Supervisor.isRun_append_feedbackOutside hwf hg (fun _ _ h => h)
    (Set.notMem_empty []) hkept).mp hts
  exact hmeasure.endOf_mem hkept hpath.2

/-- **The states that remain are those with a supervisor.** Supervisors may remember
whatever they like; they can do no more than the recorded feedback, which looks at
the state only. -/
theorem mem_restrictToEnforceable_iff {σ : Type} {o : Observer σ} (ho : o.NeverCancels)
    (hwf : g.WellFormed) (hg : g.HasUniqueSuccessors) :
    ∃ rest, (o.watch (restrictToEnforceable g controllable plantMarking)).2 = .ok rest ∧
      ∀ x, x ∈ rest.states ↔
        x ∈ g.states ∧ ∃ S : Supervisor controllable, S.Enforces g plantMarking x := by
  refine ⟨_, Observer.watch_eq_value ho _, fun x => ?_⟩
  rw [states_restrictToEnforceable]
  constructor
  · intro hx
    exact ⟨g.enforceable_subset controllable plantMarking hx, exists_enforces hwf hg hx⟩
  · rintro ⟨hx, S, hS⟩
    exact hS.visited_subset hwf hx ⟨[], Supervisor.isRun_nil, rfl⟩

/-- At the machine all states remain. -/
theorem mem_restrictToEnforceable_machine_iff :
    Observer.patient.NeverCancels ∧ Automaton.machine.WellFormed ∧
      Automaton.machine.HasUniqueSuccessors ∧
      ∃ rest, (Observer.patient.watch (restrictToEnforceable Automaton.machine
          (.ofList [⟨1⟩, ⟨4⟩]) (.singleton ⟨2⟩))).2 = .ok rest ∧
        ∀ x, x ∈ rest.states ↔ x ∈ Automaton.machine.states ∧
          ∃ S : Supervisor (.ofList [⟨1⟩, ⟨4⟩]), S.Enforces Automaton.machine (.singleton ⟨2⟩) x :=
  ⟨Observer.neverCancels_patient, Automaton.machine_wellFormed,
    Automaton.machine_isDeterministic.hasUniqueSuccessors,
    mem_restrictToEnforceable_iff Observer.neverCancels_patient Automaton.machine_wellFormed
      Automaton.machine_isDeterministic.hasUniqueSuccessors⟩

end OmegaControl
