import OmegaControl.Proofs.Synthesis.Supremal
import OmegaControl.Proofs.Synthesis.Verification

/-!
# The closed loop passes its verification

The closed loop is the supremal solution with the feedback applied and trimmed. Its
paths from the start are the runs under the feedback as a supervisor
(`Supremal.isPath_enforcedLoop_iff`), so what it generates are the beginnings of a
solution.

That it is relatively closed is seen from its cycles. A cycle that visits the
marking of the plant visits marked states, as the feedback makes progress. And a
cycle that visits marked states visits the marking of the plant, since after a
marked state that marking is owed (`Tracks.exists_plant_marked_of_cycle`).

Verification therefore never fails (`verifyClosedLoop_enforcedLoop`), and whoever
asks for it only asks for more time. All else follows from the solution that the
feedback gives as a supervisor.
-/

namespace OmegaControl.ControlProblem

variable {c : ControlProblem} {g : Automaton} {label : StateId → ProductState}
  {plantMarking : StateSet} {x x₀ : StateId} {ts : List Transition}

/-- What is left of a candidate when the feedback is applied. The states stay, and
transitions go. -/
abbrev feedbackLoop (c : ControlProblem) (g : Automaton) (plantMarking : StateSet) : Automaton :=
  OmegaControl.closedLoop g c.controllable plantMarking

/-- The same, trimmed: states that can no longer be reached are taken away. -/
def enforcedLoop (c : ControlProblem) (g : Automaton) (plantMarking : StateSet) : Automaton :=
  (c.feedbackLoop g plantMarking).trim

/-- The feedback as a supervisor, which is in force from the beginning. -/
def enforcer (c : ControlProblem) (g : Automaton) (plantMarking : StateSet) (x₀ : StateId) :
    Supervisor c.controllable := Supervisor.feedbackOutside g c.controllable plantMarking x₀ ∅

namespace Supremal

variable (hg : c.Supremal g label plantMarking)
include hg

/-! ## Before trimming

Every state of the candidate is enforceable, so the feedback takes transitions away
and nothing else. -/

/-- No state is taken away. -/
theorem restricted_eq : (restricted g c.controllable plantMarking).1 = g := by
  rw [restricted_fst]
  refine Automaton.deleteStates_of_disjoint fun x hx hmem => ?_
  have hkept := hg.settled.mem_restricted hx
  rw [states_restricted] at hkept
  exact (IdentSet.mem_sdiff.mp hmem).2 hkept

/-- Only transitions are taken away. -/
theorem feedbackLoop_eq : ∃ keep, c.feedbackLoop g plantMarking = g.retainTransitions keep := by
  rw [feedbackLoop, OmegaControl.closedLoop, applyFeedback, hg.restricted_eq]
  exact ⟨_, rfl⟩

/-- Fewer transitions, so it is well-formed. -/
theorem feedbackLoop_wellFormed : (c.feedbackLoop g plantMarking).WellFormed := by
  obtain ⟨keep, heq⟩ := hg.feedbackLoop_eq
  exact heq ▸ hg.represents.wellFormed.retainTransitions keep

theorem alphabet_feedbackLoop : (c.feedbackLoop g plantMarking).alphabet = g.alphabet := by
  obtain ⟨keep, heq⟩ := hg.feedbackLoop_eq
  rw [heq, Automaton.retainTransitions]

/-- All states stay, and with them the initial and the marked ones. -/
theorem states_feedbackLoop : (c.feedbackLoop g plantMarking).states = g.states := by
  obtain ⟨keep, heq⟩ := hg.feedbackLoop_eq
  rw [heq, Automaton.retainTransitions]

theorem initial_feedbackLoop : (c.feedbackLoop g plantMarking).initial = g.initial := by
  obtain ⟨keep, heq⟩ := hg.feedbackLoop_eq
  rw [heq, Automaton.retainTransitions]

theorem marked_feedbackLoop : (c.feedbackLoop g plantMarking).marked = g.marked := by
  obtain ⟨keep, heq⟩ := hg.feedbackLoop_eq
  rw [heq, Automaton.retainTransitions]

/-! ## After trimming

Trimming is a deletion of the kind that keeps what supervisors visit, so it could be
made at any time. -/

/-- Trimming takes states away, but none that is visited under the feedback. -/
theorem keeps_enforcedLoop : c.Keeps label plantMarking
    (c.feedbackLoop g plantMarking) (c.enforcedLoop g plantMarking) := by
  have haccessible : c.Keeps label plantMarking (c.feedbackLoop g plantMarking)
      (c.feedbackLoop g plantMarking).accessible := keeps_accessible hg.feedbackLoop_wellFormed
  exact haccessible.trans (keeps_coaccessible haccessible.wellFormed)

theorem enforcedLoop_wellFormed : (c.enforcedLoop g plantMarking).WellFormed :=
  hg.keeps_enforcedLoop.wellFormed

/-- What is trimmed was a part of the candidate. -/
theorem enforcedLoop_subset (hx : x ∈ (c.enforcedLoop g plantMarking).states) : x ∈ g.states :=
  hg.states_feedbackLoop ▸ hg.keeps_enforcedLoop.isPart.states_subset x hx

/-- The states that are left are marked if they were. -/
theorem mem_marked_enforcedLoop : x ∈ (c.enforcedLoop g plantMarking).marked ↔
    x ∈ g.marked ∧ x ∈ (c.enforcedLoop g plantMarking).states := by
  rw [hg.keeps_enforcedLoop.isPart.mem_marked, hg.marked_feedbackLoop]

/-- No transition is added on the way. -/
theorem mem_transitions_of_enforcedLoop {t : Transition}
    (ht : t ∈ (c.enforcedLoop g plantMarking).transitions) : t ∈ g.transitions := by
  obtain ⟨keep, heq⟩ := hg.feedbackLoop_eq
  have hclosed := (hg.keeps_enforcedLoop.isPart.mem_transitions.mp ht).1
  rw [heq] at hclosed
  exact Automaton.mem_transitions_of_retainTransitions hclosed

/-- There is a number for each state, as there is for each state of the product that
it stands for. -/
theorem size_lt (hfits : c.Fits) : g.size < UInt32.size := by
  obtain ⟨ps, hlen, hps⟩ := hfits
  refine Nat.lt_of_le_of_lt (IdentSet.size_le_length (fun x hx => ?_)
    hg.represents.label_injective) hlen
  obtain ⟨x₀, hx₀, ts, hts, rfl⟩ := hg.settled.reached x hx
  exact hps _ ⟨label x₀, ts.map (·.event), ((hg.represents.mem_initial x₀).mp hx₀).2,
    hg.represents.tracks.leads hts⟩

/-! ## Runs under the feedback

The feedback is followed through the two steps: it solves the problem in the
candidate, in the loop, where its runs are the same, and in what trimming leaves,
where they still are. -/

variable (hc : c.WellPosed)
include hc

/-- Paths of the closed loop are runs under the feedback. -/
theorem isRun_enforcer_iff (hx₀ : x₀ ∈ g.initial) :
    (c.enforcer g plantMarking x₀).IsRun g x₀ ts ↔
      (c.feedbackLoop g plantMarking).IsPath x₀ ts := by
  have hwf := hg.represents.wellFormed
  exact (Supervisor.isRun_append_feedbackOutside hwf (hg.represents.hasUniqueSuccessors hc)
    (fun _ _ h => h) (Set.notMem_empty []) (hg.settled.mem_restricted (hwf.initial_subset x₀ hx₀))).trans
    (and_iff_right Supervisor.isRun_nil)

/-- The feedback solves the control problem, since every state complies. -/
theorem solves_enforcer (hx₀ : x₀ ∈ g.initial) :
    (c.enforcer g plantMarking x₀).Solves c g label plantMarking x₀ := by
  have hwf := hg.represents.wellFormed
  refine (hg.admissible hc).solves_of_enforces hx₀ (Supervisor.enforces_feedbackOutside hwf
    (hg.represents.hasUniqueSuccessors hc) (fun _ _ h => h) (fun ts hts _ => ?_)
    (fun _ h => absurd h (Set.notMem_empty _)) (fun _ h => absurd (h 0) (Set.notMem_empty _)))
  exact hg.settled.mem_restricted (hts.1.endOf_mem hwf (hwf.initial_subset x₀ hx₀))

/-- It does so in the closed loop, too, where its runs are the same. -/
theorem isRun_feedbackLoop_iff (hx₀ : x₀ ∈ g.initial) :
    (c.enforcer g plantMarking x₀).IsRun (c.feedbackLoop g plantMarking) x₀ ts ↔
      (c.enforcer g plantMarking x₀).IsRun g x₀ ts := by
  constructor
  · exact fun hts => (hg.isRun_enforcer_iff hc hx₀).mpr hts.1
  · exact fun hts => ⟨(hg.isRun_enforcer_iff hc hx₀).mp hts, hts.2⟩

/-- It solves the problem there, as it disables nothing that is left. -/
theorem solves_feedbackLoop (hx₀ : x₀ ∈ g.initial) :
    (c.enforcer g plantMarking x₀).Solves c (c.feedbackLoop g plantMarking) label plantMarking
      x₀ := by
  have hS := hg.solves_enforcer hc hx₀
  have hruns : ∀ {us}, (c.enforcer g plantMarking x₀).IsRun (c.feedbackLoop g plantMarking) x₀ us ↔
      (c.enforcer g plantMarking x₀).IsRun g x₀ us := hg.isRun_feedbackLoop_iff hc hx₀
  refine ⟨hg.initial_feedbackLoop ▸ hx₀, ⟨fun ts hts => ?_, fun r hr hplant => ?_⟩, ?_⟩
  · obtain ⟨us, hne, hus, hmarked⟩ := hS.enforces.marked_ahead ts (hruns.mp hts)
    exact ⟨us, hne, hruns.mpr hus, hg.marked_feedbackLoop ▸ hmarked⟩
  · rw [hg.marked_feedbackLoop]
    exact hS.enforces.marked_again r (fun n => hruns.mp (hr n)) hplant
  · rintro x ⟨ts, hts, rfl⟩ l hl hsource hev
    have hrun := hruns.mp hts
    obtain ⟨t, ht, htsource, hevent, -⟩ := hS.complies _ hrun.endOf_mem_visited l hl hsource hev
    have hnext := hruns.mpr (hrun.concat_of_not_mem ht htsource (hevent ▸ hev))
    obtain ⟨-, ht', -⟩ := Supervisor.isRun_concat.mp hnext
    exact ⟨t, ht', htsource, hevent, ts ++ [t], hnext, endOf_concat x₀ ts t⟩

/-- And in the trimmed loop, as trimming keeps all that is visited. -/
theorem solves_enforcedLoop (hx₀ : x₀ ∈ g.initial) :
    (c.enforcer g plantMarking x₀).Solves c (c.enforcedLoop g plantMarking) label plantMarking x₀ :=
  hg.keeps_enforcedLoop.solves (hg.solves_feedbackLoop hc hx₀)

/-- **Paths from the start** are the runs of the candidate under the feedback. -/
theorem isPath_enforcedLoop_iff (hx₀ : x₀ ∈ g.initial) :
    (c.enforcedLoop g plantMarking).IsPath x₀ ts ↔
      (c.enforcer g plantMarking x₀).IsRun g x₀ ts := by
  have hkeeps := hg.keeps_enforcedLoop
  constructor
  · exact fun hts => (hg.isRun_enforcer_iff hc hx₀).mpr (hkeeps.isPart.isPath hts)
  · intro hts
    have hkept := hkeeps.visited_subset _ x₀ (hg.solves_feedbackLoop hc hx₀)
    exact ((Supervisor.isRun_iff_of_isPart hkeeps.isPart hkept).mpr
      ((hg.isRun_feedbackLoop_iff hc hx₀).mpr hts)).1

/-- The start is left if there was one. -/
theorem mem_initial_enforcedLoop :
    x₀ ∈ (c.enforcedLoop g plantMarking).initial ↔ x₀ ∈ g.initial := by
  constructor
  · exact fun hx => hg.initial_feedbackLoop ▸ (hg.keeps_enforcedLoop.isPart.mem_initial.mp hx).1
  · exact fun hx => (hg.solves_enforcedLoop hc hx).start

/-- Each state that is left is visited under the feedback. -/
theorem mem_visited_of_mem (hx : x ∈ (c.enforcedLoop g plantMarking).states) : ∃ x₀ ∈ g.initial,
    x ∈ (c.enforcer g plantMarking x₀).visited (c.enforcedLoop g plantMarking) x₀ := by
  have hx := (Automaton.mem_states_restrictStates.mp hx).1
  obtain ⟨x₀, hx₀, ts, hts, rfl⟩ :=
    Automaton.mem_accessibleSet.mp (Automaton.mem_states_restrictStates.mp hx).2
  rw [hg.initial_feedbackLoop] at hx₀
  have hrun := (hg.isRun_enforcer_iff hc hx₀).mpr hts
  exact ⟨x₀, hx₀, ts, ⟨(hg.isPath_enforcedLoop_iff hc hx₀).mpr hrun, hrun.2⟩, rfl⟩

/-- So each state is reached. -/
theorem allReached_enforcedLoop : (c.enforcedLoop g plantMarking).AllReached := by
  intro x hx
  obtain ⟨x₀, hx₀, ts, hts, rfl⟩ := hg.mem_visited_of_mem hc hx
  exact ⟨_, x₀, (hg.mem_initial_enforcedLoop hc).mpr hx₀, ts, hts.1, rfl, rfl⟩

/-- Marked states are ahead of each state that is left. -/
theorem marked_ahead_enforcedLoop (hx : x ∈ (c.enforcedLoop g plantMarking).states) :
    ∃ us, us ≠ [] ∧ (c.enforcedLoop g plantMarking).IsPath x us ∧
      endOf x us ∈ (c.enforcedLoop g plantMarking).marked := by
  obtain ⟨x₀, hx₀, ts, hts, rfl⟩ := hg.mem_visited_of_mem hc hx
  obtain ⟨us, hne, hus, hmarked⟩ := (hg.solves_enforcedLoop hc hx₀).enforces.marked_ahead ts hts
  rw [endOf_append] at hmarked
  exact ⟨us, hne, (Automaton.isPath_append.mp hus.1).2, hmarked⟩

/-- So trimming for infinite words takes away the same states. -/
theorem omegaTrim_feedbackLoop :
    (c.feedbackLoop g plantMarking).omegaTrim = c.enforcedLoop g plantMarking :=
  (hg.feedbackLoop_wellFormed.restrictStates _).settle_eq_of_ahead
    fun _ hx => hg.marked_ahead_enforcedLoop hc hx

/-! ## Verification

Each of the tests is passed for a reason of its own. -/

/-- The candidate moves along with the plant, and so does what is left of it. -/
theorem accompanied :
    Accompanied c.plant (c.enforcedLoop g plantMarking) fun x => (label x).plant where
  plant_wellFormed := hc.plant_wellFormed
  plant_isDeterministic := hc.plant_isDeterministic
  isDeterministic := by
    refine Automaton.HasUniqueSuccessors.isDeterministic ?_ ?_
    · exact fun s hs t ht => hg.represents.hasUniqueSuccessors hc s
        (hg.mem_transitions_of_enforcedLoop hs) t (hg.mem_transitions_of_enforcedLoop ht)
    · refine IdentSet.size_le_one_of_forall_eq fun x hx y hy => ?_
      exact hg.represents.initial_unique hc ((hg.mem_initial_enforcedLoop hc).mp hx)
        ((hg.mem_initial_enforcedLoop hc).mp hy)
  wellFormed := hg.enforcedLoop_wellFormed
  along t ht :=
    ((hg.represents.mem_transitions t).mp (hg.mem_transitions_of_enforcedLoop ht)).2.2.plant_mem
  start x hx :=
    ((hg.represents.mem_initial x).mp ((hg.mem_initial_enforcedLoop hc).mp hx)).2.plant_mem

/-- No uncontrollable event of the plant is missing. -/
theorem isControllable_enforcedLoop :
    isControllable c.plant c.controllable (c.enforcedLoop g plantMarking) = true := by
  refine (hg.accompanied hc).isControllable fun x hx l hl hsource hev => ?_
  obtain ⟨x₀, hx₀, hvisited⟩ := hg.mem_visited_of_mem hc hx
  obtain ⟨r, hr, hrsource, hevent, -⟩ :=
    (hg.solves_enforcedLoop hc hx₀).complies x hvisited l hl hsource hev
  exact ⟨r, hr, hrsource, hevent, trivial⟩

/-- A cycle that visits the marking of the plant visits a marked state, since the
feedback makes progress: the outer number would fall around the cycle otherwise. -/
theorem exists_marked_of_cycle (hx : x ∈ (c.enforcedLoop g plantMarking).states)
    (hplant : (label x).plant ∈ c.plant.marked) (hne : ts ≠ [])
    (hts : (c.enforcedLoop g plantMarking).IsPath x ts) (hcycle : endOf x ts = x) :
    ∃ t ∈ ts, t.target ∈ (c.enforcedLoop g plantMarking).marked := by
  have hstate := hg.enforcedLoop_subset hx
  obtain ⟨outer, inner, hmeasure⟩ := exists_progressMeasure c.controllable plantMarking
    hg.represents.wellFormed (hg.represents.hasUniqueSuccessors hc)
  obtain ⟨u, hu, hend⟩ := exists_target_eq_endOf hne x
  rw [hcycle] at hend
  have hvisited : ∃ u ∈ ts, u.target ∈ plantMarking :=
    ⟨u, hu, hend ▸ (hg.marking x hstate).mpr hplant⟩
  obtain ⟨t, ht, hmarked⟩ := hmeasure.marked_of_cycle (hg.settled.mem_restricted hstate)
    (hg.keeps_enforcedLoop.isPart.isPath hts) hcycle hvisited
  rw [hg.marked_feedbackLoop] at hmarked
  exact ⟨t, ht, hg.mem_marked_enforcedLoop.mpr
    ⟨hmarked, hg.enforcedLoop_wellFormed.target_mem t (hts.mem_transitions ht)⟩⟩

/-- No infinite word is accepted by one side only, since no cycle is marked on one
side only. -/
theorem isRelativelyClosed_enforcedLoop (hfits : c.Fits) :
    isRelativelyClosed c.plant (c.enforcedLoop g plantMarking) = true := by
  refine (hg.accompanied hc).isRelativelyClosed ?_ ?_ ?_
  · exact Nat.lt_of_le_of_lt (IdentSet.size_le_of_subset fun _ => hg.enforcedLoop_subset)
      (hg.size_lt hfits)
  · exact fun x hx hplant ts hne hts hcycle => hg.exists_marked_of_cycle hc hx hplant hne hts hcycle
  · intro x _ hmarked ts hne hts hcycle
    exact hg.represents.tracks.exists_plant_marked_of_cycle (hg.mem_marked_enforcedLoop.mp hmarked).1 hne
      (hts.mono fun _ => hg.mem_transitions_of_enforcedLoop) hcycle

/-- **Verification succeeds.** -/
theorem verifyClosedLoop_enforcedLoop (hfits : c.Fits) :
    c.verifyClosedLoop (c.enforcedLoop g plantMarking) = .ok () := by
  rw [verifyClosedLoop, hg.isControllable_enforcedLoop hc,
    hg.isRelativelyClosed_enforcedLoop hc hfits]
  rfl

/-! ## Words

What the loop generates and accepts is what the feedback allows as a supervisor. -/

/-- **The words of the closed loop** are the beginnings of a solution. -/
theorem words_enforcedLoop (hx₀ : x₀ ∈ g.initial) : (c.enforcedLoop g plantMarking).words =
    beginnings (c.allowed g (c.enforcer g plantMarking x₀) x₀) := by
  ext s
  rw [mem_beginnings_allowed hc hg.represents.tracks (hg.solves_enforcer hc hx₀)]
  constructor
  · rintro ⟨x, hx, ts, hts, rfl⟩
    obtain rfl := hg.represents.initial_unique hc hx₀ ((hg.mem_initial_enforcedLoop hc).mp hx)
    exact ⟨ts, (hg.isPath_enforcedLoop_iff hc hx₀).mp hts, rfl⟩
  · rintro ⟨ts, hts, rfl⟩
    exact ⟨x₀, (hg.mem_initial_enforcedLoop hc).mpr hx₀, ts,
      (hg.isPath_enforcedLoop_iff hc hx₀).mpr hts, rfl⟩

/-- A word that is generated belongs to a solution, whose beginnings are generated. -/
theorem exists_isSolution_of_mem_words {s : List EventId}
    (hs : s ∈ (c.enforcedLoop g plantMarking).words) :
    ∃ x₀ ∈ g.initial, c.IsSolution (c.allowed g (c.enforcer g plantMarking x₀) x₀) ∧
      (c.enforcedLoop g plantMarking).words =
        beginnings (c.allowed g (c.enforcer g plantMarking x₀) x₀) := by
  obtain ⟨x₀, hx, -⟩ := hs
  have hx₀ := (hg.mem_initial_enforcedLoop hc).mp hx
  exact ⟨x₀, hx₀, isSolution_allowed hc hg.represents.tracks
    (hg.represents.hasUniqueSuccessors hc) (hg.solves_enforcer hc hx₀) hg.marking,
    hg.words_enforcedLoop hc hx₀⟩

/-- What the feedback allows is accepted: the plant accepts it, so the plant marking
is visited infinitely often, and so are marked states. -/
theorem allowed_subset_acceptedWords (hx₀ : x₀ ∈ g.initial) :
    c.allowed g (c.enforcer g plantMarking x₀) x₀ ⊆
      (c.enforcedLoop g plantMarking).acceptedWords := by
  intro w hw
  obtain ⟨r, hr, rfl⟩ := exists_infiniteRun_of_mem_allowed
    (hg.represents.hasUniqueSuccessors hc) hw
  have hpath : (c.enforcedLoop g plantMarking).IsInfinitePath x₀ r :=
    fun n => (hg.isPath_enforcedLoop_iff hc hx₀).mpr (hr n)
  have hsolution := isSolution_allowed hc hg.represents.tracks
    (hg.represents.hasUniqueSuccessors hc) (hg.solves_enforcer hc hx₀) hg.marking
  have hmarked := (infinitelyOften_marked_iff_mem hc hg.represents.tracks hx₀ fun n => (hr n).1).mpr
    ⟨hw.1, hsolution.subset_spec hw⟩
  refine ⟨fun n => endOf x₀ (upTo r n), (hg.mem_initial_enforcedLoop hc).mpr hx₀, hpath.reads,
    hmarked.mono fun n hn => hg.mem_marked_enforcedLoop.mpr ⟨hn, ?_⟩⟩
  exact (hpath n).endOf_mem hg.enforcedLoop_wellFormed
    (hg.enforcedLoop_wellFormed.initial_subset x₀ ((hg.mem_initial_enforcedLoop hc).mpr hx₀))

/-- Nothing is left only if there was no candidate: the start of a candidate is
never taken away. -/
theorem isEmpty_enforcedLoop_iff : (c.enforcedLoop g plantMarking).isEmpty = true ↔
    g.isEmpty = true := by
  rw [Automaton.isEmpty, Automaton.isEmpty, IdentSet.isEmpty_iff, IdentSet.isEmpty_iff]
  constructor
  · intro hnone x hx
    obtain ⟨x₀, hx₀, -⟩ := hg.settled.reached x hx
    exact hnone x₀ (hg.enforcedLoop_wellFormed.initial_subset x₀
      ((hg.mem_initial_enforcedLoop hc).mpr hx₀))
  · exact fun hnone x hx => hnone x (hg.enforcedLoop_subset hx)

end Supremal

/-! ## The result

All parts of the statement are read off the solution that the feedback gives. -/

/-- What is returned if verification succeeds. -/
theorem result_closedLoop (hcheck : c.check = .ok ()) (config : SynthesisConfig)
    (hverify : c.verifyClosedLoop (c.enforcedLoop (c.supremalCandidate config).value.automaton
      (c.supremalCandidate config).value.plantMarking) = .ok ()) :
    Checked.result (c.closedLoop config) =
      .ok ((c.enforcedLoop (c.supremalCandidate config).value.automaton
        (c.supremalCandidate config).value.plantMarking).setName (c.resultName "BuechiCon")) := by
  rw [ControlProblem.closedLoop]
  simp only [Checked.result_bind, Checked.result_lift, Checked.result_liftExcept, hcheck]
  change Checked.result (do
    if config.verify then c.verifyClosedLoop (c.enforcedLoop _ _)
    pure ((c.enforcedLoop _ _).setName (c.resultName "BuechiCon"))) = _
  split
  next =>
    rw [Checked.result_bind, Checked.result_liftExcept, hverify]
    rfl
  next => rfl

/-- **The closed loop**: if nobody cancels, it is returned, and verification does not fail.
It goes along with the uncontrollable events of the plant. Each of its finite words begins
an infinite word that it accepts, and so do plant and specification. It accepts each infinite
word that it generates and the plant accepts, and so does the specification. It is empty
if and only if the supremal solution is. -/
theorem closedLoop_result {σ : Type} {o : Observer σ} (ho : o.NeverCancels)
    (hplant : c.plant.WellFormed) (hspec : c.spec.WellFormed) (hcheck : c.check = .ok ())
    (hfits : c.Fits) (config config' : SynthesisConfig) :
    ∃ res sup, (o.watchChecked (c.closedLoop { config with verify := true })).2 = .ok res ∧
      (o.watchChecked (c.supremal config')).2 = .ok sup ∧
      (∀ s ∈ res.words, ∀ ev ∉ c.controllable, s ++ [ev] ∈ c.plant.words →
        s ++ [ev] ∈ res.words) ∧
      (∀ s ∈ res.words, ∃ w ∈ res.acceptedWords,
        upTo w s.length = s ∧ w ∈ c.plant.acceptedWords ∧ w ∈ c.spec.acceptedWords) ∧
      (∀ w ∈ c.plant.acceptedWords, (∀ n, upTo w n ∈ res.words) →
        w ∈ res.acceptedWords ∧ w ∈ c.spec.acceptedWords) ∧
      (res.isEmpty = true ↔ sup.isEmpty = true) := by
  have hc := WellPosed.of_check hplant hspec hcheck
  obtain ⟨label, hg⟩ := supremal_supremalCandidate hc hfits { config with verify := true }
  obtain ⟨sup, _, _, hsup, hg'⟩ := exists_supremal ho hc hcheck hfits config'
  have hresult := result_closedLoop hcheck { config with verify := true }
    (hg.verifyClosedLoop_enforcedLoop hc hfits)
  refine ⟨_, sup, (Checked.watchChecked_eq_result ho _).trans hresult, hsup, ?_, ?_, ?_, ?_⟩
  · -- uncontrollable events of the plant are in its alphabet, and so the solution
    -- goes along with them
    intro s hs ev hev hword
    have halphabet : ev ∈ c.plant.alphabet :=
      Automaton.mem_alphabet_of_mem_words hplant hword (List.mem_append_right s List.mem_cons_self)
    rw [Automaton.words_setName] at hs ⊢
    obtain ⟨x₀, -, hsolution, hwords⟩ := hg.exists_isSolution_of_mem_words hc hs
    rw [hwords] at hs ⊢
    exact hsolution.complies s hs ev halphabet hev hword
  · intro s hs
    rw [Automaton.words_setName] at hs
    obtain ⟨x₀, hx₀, hsolution, hwords⟩ := hg.exists_isSolution_of_mem_words hc hs
    rw [hwords] at hs
    obtain ⟨w, hw, n, rfl⟩ := hs
    refine ⟨w, hg.allowed_subset_acceptedWords hc hx₀ hw, ?_, hsolution.subset_plant hw,
      hsolution.subset_spec hw⟩
    rw [length_upTo]
  · intro w hw hgenerated
    simp only [Automaton.words_setName] at hgenerated
    obtain ⟨x₀, hx₀, hsolution, hwords⟩ := hg.exists_isSolution_of_mem_words hc (hgenerated 0)
    rw [hwords] at hgenerated
    have hallowed := hsolution.eq_closure.ge ⟨hw, hgenerated⟩
    exact ⟨hg.allowed_subset_acceptedWords hc hx₀ hallowed, hsolution.subset_spec hallowed⟩
  · rw [hg'.isEmpty_iff hc, ← hg.isEmpty_iff hc]
    exact hg.isEmpty_enforcedLoop_iff hc

/-- The machine has a closed loop, which verification accepts. -/
theorem closedLoop_result_machine :
    Observer.patient.NeverCancels ∧ machineProblem.plant.WellFormed ∧
      machineProblem.spec.WellFormed ∧ machineProblem.check = .ok () ∧ machineProblem.Fits ∧
      ∃ res sup,
        (Observer.patient.watchChecked (machineProblem.closedLoop { verify := true })).2 = .ok res ∧
        (Observer.patient.watchChecked (machineProblem.supremal {})).2 = .ok sup ∧
        (∀ s ∈ res.words, ∀ ev ∉ machineProblem.controllable,
          s ++ [ev] ∈ machineProblem.plant.words → s ++ [ev] ∈ res.words) ∧
        (∀ s ∈ res.words, ∃ w ∈ res.acceptedWords, upTo w s.length = s ∧
          w ∈ machineProblem.plant.acceptedWords ∧ w ∈ machineProblem.spec.acceptedWords) ∧
        (∀ w ∈ machineProblem.plant.acceptedWords, (∀ n, upTo w n ∈ res.words) →
          w ∈ res.acceptedWords ∧ w ∈ machineProblem.spec.acceptedWords) ∧
        (res.isEmpty = true ↔ sup.isEmpty = true) :=
  ⟨Observer.neverCancels_patient, Automaton.machine_wellFormed, Automaton.repairedMachine_wellFormed,
    machineProblem_check, machineProblem_fits,
    closedLoop_result Observer.neverCancels_patient Automaton.machine_wellFormed
      Automaton.repairedMachine_wellFormed machineProblem_check machineProblem_fits {} {}⟩

end OmegaControl.ControlProblem
