import OmegaControl.Proofs.Liveness.Reports
import OmegaControl.Proofs.Synthesis.Checked
import OmegaControl.Proofs.Synthesis.Construction
import OmegaControl.Proofs.Synthesis.Deletion

/-!
# Reports of a synthesis

A synthesis reports the states of the product that it takes up, and then goes
through rounds: each reports how many states are gone, and runs the nested fixpoint
(`Rounds`). At the end there may be one more run, for the closed loop
(`SynthesisReports`).

What kinds of reports follow each other is proved for each part of the synthesis on
its own, and from these grammars alone it follows what is said of reports: no state
is taken up that has not been met, and candidates only become smaller. So what is
reported never exceeds its total, and within a stage it never falls, but for the
fixpoint, where it starts anew in each run (`reports_wellFormed`).

An observer that cancels is told a beginning of the reports, of which all this is
true as well.
-/

namespace OmegaControl

open ControlledProduct

/-- In reports of this stage, what is reported never becomes less. -/
def NeverFalls (stage : Stage) (cs : List Checkpoint) : Prop :=
  cs.Pairwise fun c d => c.stage = stage → d.stage = stage → c.current ≤ d.current

/-- These are the reports of a run of the nested fixpoint, with some rule. -/
def IsFixpointRun (cs : List Checkpoint) : Prop :=
  ∃ (σ : Type) (rule : Rule σ) (g : Automaton) (plantMarking : StateSet),
    cs = (rule.enforceable g plantMarking).checkpoints

/-- Such a run is well-formed, whatever the rule is. -/
theorem IsFixpointRun.exists_fixpointReports {cs : List Checkpoint} (h : IsFixpointRun cs) :
    ∃ n, FixpointReports n n cs := by
  obtain ⟨σ, rule, g, plantMarking, rfl⟩ := h
  exact ⟨g.size, (rule.reports_enforceable g plantMarking).1⟩

/-- It reports nothing else. -/
theorem IsFixpointRun.stage_eq {cs : List Checkpoint} (h : IsFixpointRun cs) :
    ∀ c ∈ cs, c.stage = .fixpoint := by
  obtain ⟨n, hreports⟩ := h.exists_fixpointReports
  exact hreports.stage_eq

/-! ## Taking up states
 -/

/-- The reports of a walk that has taken up `done` states: states that were met, one
after another. The total grows along with what is met, so it is not the same in all
of them. -/
structure ProductReports (done : ℕ) (cs : List Checkpoint) : Prop where
  stage_eq : ∀ c ∈ cs, c.stage = .product
  /-- the states that were taken up before are not reported again -/
  lt_current : ∀ c ∈ cs, done < c.current
  /-- a state is taken up after it has been met -/
  current_le_total : ∀ c ∈ cs, c.current ≤ c.total
  sorted : cs.Pairwise fun c d => c.current < d.current

theorem ProductReports.nil (done : ℕ) : ProductReports done [] := by
  refine ⟨?_, ?_, ?_, .nil⟩
  all_goals exact fun _ hc => absurd hc List.not_mem_nil

/-- One more state is taken up. -/
theorem ProductReports.cons {done total : ℕ} {cs : List Checkpoint} (h : ProductReports (done + 1) cs)
    (hle : done + 1 ≤ total) : ProductReports done (⟨.product, done + 1, total⟩ :: cs) := by
  refine ⟨List.forall_mem_cons.mpr ⟨rfl, h.stage_eq⟩,
    List.forall_mem_cons.mpr ⟨Nat.lt_succ_self done, fun c hc => ?_⟩,
    List.forall_mem_cons.mpr ⟨hle, h.current_le_total⟩, List.pairwise_cons.mpr ⟨?_, h.sorted⟩⟩
  · exact Nat.lt_of_succ_lt (h.lt_current c hc)
  · exact h.lt_current

namespace ControlledProduct

namespace Construction

variable {n : ℕ} {s : Construction}

/-- A state that becomes pending has been met. So there are at least as many states
that were met as those that were taken up and those that are pending. -/
theorem pending_meet (spec : Automaton) (p : ProductState)
    (h : n + s.pending.length ≤ s.composition.size) :
    n + (s.meet spec p).2.pending.length ≤ (s.meet spec p).2.composition.size := by
  cases hp : s.composition[p]? with
  | some y => rwa [meet_eq_of_some hp]
  | none =>
    have hnew : p ∉ s.composition := by
      rw [Std.ExtTreeMap.mem_iff_isSome_getElem?, hp]
      exact Bool.false_ne_true
    rw [meet_eq_of_none hp]
    dsimp only
    rw [size_insert_of_not_mem hnew, List.length_cons]
    omega

/-- So it is for all targets of the steps of a state. -/
theorem pending_insertSteps (spec : Automaton) (x : StateId) (steps : List (EventId × ProductState))
    (h : n + s.pending.length ≤ s.composition.size) :
    n + (s.insertSteps spec x steps).pending.length ≤ (s.insertSteps spec x steps).composition.size := by
  induction steps generalizing s with
  | nil => exact h
  | cons step steps ih => exact ih (pending_meet spec step.2 h)

/-- And for taking a state up, be it that nothing is done because it is critical. -/
theorem pending_takeUp (c : ControlProblem) (p : ProductState)
    (h : n + s.pending.length ≤ s.composition.size) :
    n + (s.takeUp c p).pending.length ≤ (s.takeUp c p).composition.size :=
  takeUp_cases (P := fun s => n + s.pending.length ≤ s.composition.size) c s p h (fun _ => h)
    fun x steps _ _ => pending_insertSteps c.spec x steps h

end Construction

/-- **The walk** reports the states that it takes up; they have been met before. -/
theorem reports_build (c : ControlProblem) (done : Nat) (s : Construction)
    (h : done + s.pending.length ≤ s.composition.size) :
    ProductReports done (build c done s).checkpoints := by
  fun_induction build c done s with
  | case1 done s hpending => exact .nil done
  | case2 done s p pending hpending ih =>
    rw [hpending, List.length_cons] at h
    rw [Watched.checkpoints_bind]
    have hleft : done + 1 + pending.length ≤ s.composition.size := by omega
    refine (ih (Construction.pending_takeUp (s := { s with pending }) c p hleft)).cons ?_
    exact (Nat.le_add_right ..).trans hleft

end ControlledProduct

/-- At the beginning nothing was taken up. -/
theorem reports_controlledProduct (c : ControlProblem) :
    ProductReports 0 c.controlledProduct.checkpoints := by
  rw [ControlProblem.controlledProduct]
  split
  next => exact .nil 0
  next start _ =>
    rw [Watched.checkpoints_bind]
    refine (List.append_nil _).symm ▸ reports_build c 0 _ ?_
    rw [size_insert_of_not_mem Std.ExtTreeMap.not_mem_empty]
    exact Nat.le_refl 1

/-! ## Rounds
 -/

/-- The reports of the rounds of a synthesis that starts with a candidate of `size` states. Each
reports how many of `total` states are gone and runs the fixpoint, unless nothing is left. -/
inductive Rounds (total : ℕ) : ℕ → List Checkpoint → Prop
  | empty {size : ℕ} : Rounds total size [⟨.driver, total - size, total⟩]
  | last {size : ℕ} {cs : List Checkpoint} (hcs : IsFixpointRun cs) :
      Rounds total size (⟨.driver, total - size, total⟩ :: cs)
  | again {size size' : ℕ} {cs rest : List Checkpoint} (hcs : IsFixpointRun cs) (hle : size' ≤ size)
      (hrest : Rounds total size' rest) :
      Rounds total size (⟨.driver, total - size, total⟩ :: (cs ++ rest))

/-! Each of the restrictions runs the fixpoint once. -/

/-- What is made of the states that were found makes no report. -/
theorem isFixpointRun_bind {σ : Type} {α : Type} (rule : Rule σ) (g : Automaton)
    (plantMarking : StateSet) (f : StateSet × σ → α) :
    IsFixpointRun (rule.enforceable g plantMarking >>= fun a => pure (f a)).checkpoints := by
  rw [Watched.checkpoints_bind]
  exact ⟨σ, rule, g, plantMarking, List.append_nil _⟩

theorem isFixpointRun_restrictToEnforceable (g : Automaton) (controllable : EventSet)
    (plantMarking : StateSet) :
    IsFixpointRun (restrictToEnforceable g controllable plantMarking).checkpoints :=
  isFixpointRun_bind ..

theorem isFixpointRun_restrictWithFeedback (g : Automaton) (controllable : EventSet)
    (plantMarking : StateSet) :
    IsFixpointRun (restrictWithFeedback g controllable plantMarking).checkpoints :=
  isFixpointRun_bind ..

theorem isFixpointRun_restrictObserved (g : Automaton) (controllable : EventSet)
    (plantMarking : StateSet) (classes : ObserverMap) :
    IsFixpointRun (restrictObserved g controllable plantMarking classes).checkpoints :=
  isFixpointRun_bind ..

/-- Deletions leave no more states than there were. -/
theorem keptByDeletion_size_le (n : ℕ) : KeptByDeletion (·.size ≤ n) :=
  fun _ _ h => (Automaton.size_deleteStates_le ..).trans h

/-- **The loop** goes through rounds. Each of them reports first and then runs the
fixpoint, unless nothing is left, and it is the last one if the fixpoint deletes
nothing. -/
theorem reports_refine (c : ControlProblem) (plantMarking : StateSet) (total : Nat) (g : Automaton) :
    Rounds total g.size (c.refine plantMarking total g).checkpoints := by
  fun_induction ControlProblem.refine c plantMarking total g with
  | case1 g ih =>
    rw [Watched.checkpoints_bind]
    change Rounds total g.size (⟨.driver, total - g.size, total⟩ :: Watched.checkpoints _)
    split
    next => exact .empty
    next =>
      have hle := (keptByDeletion_size_le g.size).restrictToEnforceable (c.size_prunePrefixes_le g)
        c.controllable plantMarking
      have hrun := isFixpointRun_restrictToEnforceable (c.prunePrefixes g) c.controllable plantMarking
      rw [Watched.checkpoints_bind]
      split
      next hsmaller => exact .again hrun hle (ih _ hsmaller)
      next =>
        refine .last ?_
        rwa [Watched.pure_eq, Watched.checkpoints, List.append_nil]

/-- **The loop** for a supervisor that sees only some events goes through rounds,
too. -/
theorem reports_refine_observed (c : ObservedProblem) (plantMarking : StateSet)
    (classes : ObserverMap) (total : Nat) (g : ObservedCandidate) :
    Rounds total g.cand.size (c.refine plantMarking classes total g).checkpoints := by
  fun_induction ObservedProblem.refine c plantMarking classes total g with
  | case1 g ih =>
    rw [Watched.checkpoints_bind]
    change Rounds total g.cand.size (⟨.driver, total - g.cand.size, total⟩ :: Watched.checkpoints _)
    split
    next => exact .empty
    next =>
      have hle := c.size_prunePrefixes_le g
      generalize c.prunePrefixes g = p at ih hle ⊢
      have hrun := isFixpointRun_restrictObserved p.cand c.controllable plantMarking
        (classes.filter fun x _ => x ∈ p.cand.states)
      rw [Watched.checkpoints_bind]
      generalize (restrictObserved p.cand c.controllable plantMarking _).value = out
      obtain ⟨live, feedback⟩ := out
      dsimp only
      split
      next hsmaller => exact .again hrun (hsmaller.le.trans hle) (ih _ hsmaller)
      next =>
        refine .last ?_
        rwa [Watched.pure_eq, Watched.checkpoints, List.append_nil]

/-! ## Everything together
 -/

/-- The calls that synthesize: for the largest solution or a closed loop that enforces it, by full
observation or by what is observed. -/
inductive SynthesisCall where
  | supremal (c : ControlProblem) (config : SynthesisConfig)
  | closedLoop (c : ControlProblem) (config : SynthesisConfig)
  | normal (c : ObservedProblem)
  | normalClosedLoop (c : ObservedProblem) (config : SynthesisConfig)

/-- What a call computes. Arguments are checked first, and a closed loop is verified
in the end if this is asked for. -/
def SynthesisCall.run : SynthesisCall → Checked Automaton
  | supremal c config => c.supremal config
  | closedLoop c config => c.closedLoop config
  | normal c => c.normal
  | normalClosedLoop c config => c.normalClosedLoop config

/-- The reports of a call: none if its arguments are refused, else those of the product and of the
rounds, and for a closed loop those of one more run of the fixpoint. -/
inductive SynthesisReports : List Checkpoint → Prop
  | refused : SynthesisReports []
  | candidate {total size : ℕ} {ps rs : List Checkpoint} (hps : ProductReports 0 ps)
      (hrs : Rounds total size rs) : SynthesisReports (ps ++ rs)
  | closedLoop {total size : ℕ} {ps rs run : List Checkpoint} (hps : ProductReports 0 ps)
      (hrs : Rounds total size rs) (hrun : IsFixpointRun run) : SynthesisReports (ps ++ rs ++ run)

/-- The reports of a candidate: a product and rounds. -/
def CandidateReports (cs : List Checkpoint) : Prop :=
  ∃ total size ps rs, ProductReports 0 ps ∧ Rounds total size rs ∧ cs = ps ++ rs

theorem reports_supremalCandidate (c : ControlProblem) (config : SynthesisConfig) :
    CandidateReports (c.supremalCandidate config).checkpoints := by
  refine ⟨_, _, _, _, reports_controlledProduct c, reports_refine c
    c.controlledProduct.value.plantMarking c.controlledProduct.value.automaton.size
    c.controlledProduct.value.automaton, ?_⟩
  rw [ControlProblem.supremalCandidate, Watched.checkpoints_bind, Watched.checkpoints_bind,
    Watched.pure_eq, Watched.checkpoints, List.append_nil]

/-- A candidate for a supervisor that sees only some events is reported the same way.
Attaching the observer reports nothing. -/
theorem reports_normalCandidate (c : ObservedProblem) :
    CandidateReports c.normalCandidate.checkpoints := by
  rw [ObservedProblem.normalCandidate, Watched.checkpoints_bind]
  dsimp only
  rw [Watched.checkpoints_bind, Watched.pure_eq, Watched.checkpoints, List.append_nil]
  exact ⟨_, _, _, _, reports_controlledProduct _, reports_refine_observed .., rfl⟩

/-- Whether a closed loop passes its verification makes no difference. -/
theorem reports_verified (asked : Bool) (e : Check) (g : Automaton) :
    Checked.reports (do
      if asked then e
      pure g : Checked Automaton) = [] := by
  cases asked
  · rfl
  · cases e <;> rfl

/-- A call reports nothing if it is refused. If it is accepted, what it makes of its
candidate either reports nothing or runs the fixpoint once more. -/
theorem synthesisReports_check {α : Type} {w : Watched α} {f : α → Checked Automaton}
    (check : Check) (hw : CandidateReports w.checkpoints)
    (hf : Checked.reports (f w.value) = [] ∨ IsFixpointRun (Checked.reports (f w.value))) :
    SynthesisReports (Checked.reports (do
      check
      f (← w))) := by
  obtain ⟨total, size, ps, rs, hps, hrs, heq⟩ := hw
  cases check with
  | error e => exact .refused
  | ok =>
    rw [Checked.reports_ok_bind, Checked.reports_lift_bind, heq]
    rcases hf with hnothing | hrun
    · rw [hnothing, List.append_nil]
      exact .candidate hps hrs
    · exact .closedLoop hps hrs hrun

/-- **Each call** reports what its parts report, in order: the product, the rounds,
and for a closed loop the fixpoint once more. Checks and names report nothing. -/
theorem reports_call (call : SynthesisCall) : SynthesisReports (Checked.reports call.run) := by
  cases call with
  | supremal c config =>
    refine synthesisReports_check c.check ?_ (.inl (Checked.reports_pure _))
    rw [ControlProblem.supremalUnchecked, Watched.checkpoints_bind, Watched.pure_eq,
      Watched.checkpoints, List.append_nil]
    exact reports_supremalCandidate c config
  | closedLoop c config =>
    refine synthesisReports_check c.check (reports_supremalCandidate c config) (.inr ?_)
    rw [Checked.reports_lift_bind, reports_verified, List.append_nil]
    exact isFixpointRun_restrictWithFeedback ..
  | normal c =>
    refine synthesisReports_check c.check ?_ (.inl (Checked.reports_pure _))
    rw [ObservedProblem.normalUnchecked, Watched.checkpoints_bind, Watched.pure_eq,
      Watched.checkpoints, List.append_nil]
    exact reports_normalCandidate c
  | normalClosedLoop c config =>
    refine synthesisReports_check c.check (reports_normalCandidate c) (.inr ?_)
    rw [Checked.reports_lift_bind, reports_verified, List.append_nil]
    exact isFixpointRun_restrictObserved ..

/-! ## What reports say
 -/

/-- What is reported never exceeds its total, and never falls while the product is built or over the
rounds; the reports of the fixpoint are those of its runs, one after another. -/
structure WellReported (cs : List Checkpoint) : Prop where
  current_le_total : ∀ c ∈ cs, c.current ≤ c.total
  product : NeverFalls .product cs
  driver : NeverFalls .driver cs
  /-- the reports of the fixpoint, taken out of all others, are those of its runs -/
  exists_runs : ∃ runs : List (List Checkpoint), (∀ run ∈ runs, IsFixpointRun run) ∧
    cs.filter (·.stage = .fixpoint) = runs.flatten

namespace WellReported

variable {cs ds : List Checkpoint}

theorem nil : WellReported [] :=
  ⟨fun _ hc => absurd hc List.not_mem_nil, .nil, .nil, [], fun _ hrun => absurd hrun List.not_mem_nil, rfl⟩

/-- Reports one after another are well-formed if those that come later are not less,
stage by stage. The stage of the fixpoint is left out. -/
theorem append (hcs : WellReported cs) (hds : WellReported ds)
    (h : ∀ c ∈ cs, ∀ d ∈ ds, c.stage = d.stage → c.stage ≠ .fixpoint → c.current ≤ d.current) :
    WellReported (cs ++ ds) := by
  obtain ⟨runs, hruns, heq⟩ := hcs.exists_runs
  obtain ⟨runs', hruns', heq'⟩ := hds.exists_runs
  refine ⟨List.forall_mem_append.mpr ⟨hcs.current_le_total, hds.current_le_total⟩,
    List.pairwise_append.mpr ⟨hcs.product, hds.product, fun c hc d hd hcstage hdstage => ?_⟩,
    List.pairwise_append.mpr ⟨hcs.driver, hds.driver, fun c hc d hd hcstage hdstage => ?_⟩,
    runs ++ runs', List.forall_mem_append.mpr ⟨hruns, hruns'⟩, ?_⟩
  · exact h c hc d hd (hcstage.trans hdstage.symm) (hcstage ▸ by decide)
  · exact h c hc d hd (hcstage.trans hdstage.symm) (hcstage ▸ by decide)
  · rw [List.filter_append, heq, heq', List.flatten_append]

end WellReported

/-- Taking up states is reported as it should be. -/
theorem ProductReports.wellReported {done : ℕ} {cs : List Checkpoint} (h : ProductReports done cs) :
    WellReported cs := by
  refine ⟨h.current_le_total, h.sorted.imp fun hlt _ _ => hlt.le, ?_, [],
    fun _ hrun => absurd hrun List.not_mem_nil, List.filter_eq_nil_iff.mpr fun c hc => ?_⟩
  · refine h.sorted.imp_of_mem fun hc _ _ hdriver => ?_
    rw [h.stage_eq _ hc] at hdriver
    cases hdriver
  · rw [h.stage_eq c hc]
    decide

/-- And so is a run. -/
theorem IsFixpointRun.wellReported {cs : List Checkpoint} (h : IsFixpointRun cs) : WellReported cs := by
  obtain ⟨n, hreports⟩ := h.exists_fixpointReports
  have hother : ∀ stage ≠ .fixpoint, NeverFalls stage cs := fun stage hne =>
    hreports.sorted.imp_of_mem fun hc _ _ hstage => absurd (hreports.stage_eq _ hc ▸ hstage.symm) hne
  refine ⟨fun c hc => ?_, hother _ (by decide), hother _ (by decide), [cs], ?_, ?_⟩
  · rw [hreports.total_eq c hc]
    exact hreports.current_le c hc
  · exact fun run hrun => List.mem_singleton.mp hrun ▸ h
  · rw [List.flatten_singleton, List.filter_eq_self]
    exact fun c hc => decide_eq_true (hreports.stage_eq c hc)

/-- One report of a round. -/
theorem wellReported_driver {current total : ℕ} (hle : current ≤ total) :
    WellReported [⟨.driver, current, total⟩] :=
  ⟨List.forall_mem_singleton.mpr hle, List.pairwise_singleton .., List.pairwise_singleton .., [],
    fun _ hrun => absurd hrun List.not_mem_nil, rfl⟩

/-- Over the rounds, what is gone becomes more. No round starts with more states
than the one before, and in between there are only reports of the fixpoint. -/
theorem Rounds.wellReported {total size : ℕ} {cs : List Checkpoint} (h : Rounds total size cs) :
    WellReported cs ∧ ∀ c ∈ cs, c.stage = .fixpoint ∨ (c.stage = .driver ∧ total - size ≤ c.current) := by
  have hdriver : ∀ size, WellReported [⟨.driver, total - size, total⟩] := fun size =>
    wellReported_driver (Nat.sub_le total size)
  induction h with
  | @empty size =>
    exact ⟨hdriver size, List.forall_mem_singleton.mpr (.inr ⟨rfl, Nat.le_refl _⟩)⟩
  | @last size cs hcs =>
    refine ⟨(hdriver size).append hcs.wellReported fun c hc d hd heq hne => ?_,
      List.forall_mem_cons.mpr ⟨.inr ⟨rfl, Nat.le_refl _⟩, fun c hc => .inl (hcs.stage_eq c hc)⟩⟩
    exact absurd (heq.trans (hcs.stage_eq d hd)) hne
  | @again size size' cs rest hcs hle hrest ih =>
    obtain ⟨hwell, hlower⟩ := ih
    have hlower' : ∀ c ∈ cs ++ rest,
        c.stage = .fixpoint ∨ (c.stage = .driver ∧ total - size ≤ c.current) := by
      refine List.forall_mem_append.mpr ⟨fun c hc => .inl (hcs.stage_eq c hc), fun c hc => ?_⟩
      exact (hlower c hc).imp_right fun ⟨hstage, hcurrent⟩ => ⟨hstage, by omega⟩
    have hrounds : WellReported (cs ++ rest) := hcs.wellReported.append hwell fun c hc _ _ _ hne =>
      absurd (hcs.stage_eq c hc) hne
    refine ⟨(hdriver size).append hrounds fun c hc d hd heq hne => ?_,
      List.forall_mem_cons.mpr ⟨.inr ⟨rfl, Nat.le_refl _⟩, hlower'⟩⟩
    obtain rfl := List.mem_singleton.mp hc
    exact (hlower' d hd).elim (fun hstage => absurd (heq.trans hstage) hne) fun h => h.2

/-- The parts of a call report different stages, except for the runs. -/
theorem SynthesisReports.wellReported {cs : List Checkpoint} (h : SynthesisReports cs) :
    WellReported cs := by
  have happend : ∀ {total size ps rs}, ProductReports 0 ps → Rounds total size rs →
      WellReported (ps ++ rs) := by
    intro total size ps rs hps hrs
    obtain ⟨hwell, hlower⟩ := hrs.wellReported
    refine hps.wellReported.append hwell fun c hc d hd heq _ => ?_
    rw [hps.stage_eq c hc] at heq
    rcases hlower d hd with hstage | ⟨hstage, -⟩
    · exact absurd (heq.trans hstage) (by decide)
    · exact absurd (heq.trans hstage) (by decide)
  cases h with
  | refused => exact .nil
  | candidate hps hrs => exact happend hps hrs
  | closedLoop hps hrs hrun =>
    refine (happend hps hrs).append hrun.wellReported fun c _ d hd heq hne => ?_
    exact absurd (heq.trans (hrun.stage_eq d hd)) hne

/-- **Reports are well-formed and bounded**, for every call that synthesizes and whoever watches it: no
report exceeds its total, and what is reported of the product, and of the rounds, never falls over the
whole call. What is reported of the fixpoint is the beginning of the reports of its runs, one after
another, and within a run it never falls. With any rule, a run on `n` states makes `n ^ 4` reports at
most, or one if there are no states. -/
theorem reports_wellFormed {σ : Type} (o : Observer σ) (call : SynthesisCall) :
    let cs := (o.watchChecked call.run).1
    ((∀ c ∈ cs, c.current ≤ c.total) ∧ NeverFalls .product cs ∧ NeverFalls .driver cs ∧
      ∃ runs : List (List Checkpoint), (∀ run ∈ runs, IsFixpointRun run ∧ NeverFalls .fixpoint run) ∧
        cs.filter (·.stage = .fixpoint) <+: runs.flatten) ∧
    ∀ {τ : Type} (rule : Rule τ) (g : Automaton) (plantMarking : StateSet),
      let run := (o.watch (rule.enforceable g plantMarking)).1
      (∀ c ∈ run, c.stage = .fixpoint ∧ c.current ≤ c.total) ∧
        run.Pairwise (fun c d => c.current ≤ d.current) ∧ run.length ≤ max 1 g.size ^ 4 := by
  dsimp only
  refine ⟨?_, fun rule g plantMarking => ?_⟩
  · have hseen := Checked.watchChecked_isPrefix o call.run
    obtain ⟨htotal, hproduct, hdriver, runs, hruns, heq⟩ := (reports_call call).wellReported
    refine ⟨fun c hc => htotal c (hseen.subset hc), hproduct.sublist hseen.sublist,
      hdriver.sublist hseen.sublist, runs, fun run hrun => ⟨hruns run hrun, ?_⟩, ?_⟩
    · obtain ⟨n, hreports⟩ := (hruns run hrun).exists_fixpointReports
      exact hreports.sorted.imp fun hle _ _ => hle
    · rw [← heq]
      exact hseen.filter _
  · have hseen := o.watch_isPrefix (rule.enforceable g plantMarking)
    obtain ⟨hreports, hlen⟩ := rule.reports_enforceable g plantMarking
    refine ⟨fun c hc => ⟨hreports.stage_eq c (hseen.subset hc), ?_⟩,
      hreports.sorted.sublist hseen.sublist, hseen.length_le.trans hlen⟩
    rw [hreports.total_eq c (hseen.subset hc)]
    exact hreports.current_le c (hseen.subset hc)

end OmegaControl
