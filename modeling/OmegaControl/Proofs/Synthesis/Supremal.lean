import OmegaControl.Proofs.Synthesis.Checked
import OmegaControl.Proofs.Synthesis.ControlledProduct
import OmegaControl.Proofs.Synthesis.Solution

/-!
# The supremal solution

The loop ends with a candidate that has lost nothing that a solution needs, and
whose states are all as they should be (`ControlProblem.Supremal`). This says what
the words of the candidate are.

* A word of a solution is accepted, since the supervisor of the solution allows it.
* An accepted word belongs to a solution, that of a supervisor which lets the run
  along this word go on, and enforces the marking by the feedback as soon as the run
  leaves it (`Admissible.exists_isSolution`).

So the accepted words are those of all solutions together. They need not be a
solution themselves: a supervisor that allows all of them might have to put off the
marking forever. What the result promises is that each of them is allowed by some
supervisor, and that nothing is generated that is not the beginning of one.
-/

namespace OmegaControl

namespace ControlProblem

variable {c : ControlProblem} {g : Automaton} {label : StateId → ProductState}
  {plantMarking : StateSet} {x₀ : StateId} {E : Set (ℕ → EventId)}

/-! ## Admissible candidates

What is true of candidates for both kinds of supervisors, those that see all events
and those that do not. -/

/-- The candidate tracks the product, and each of its states is as it should be. The
marking can be enforced from each of them, so a supervisor can start wherever the
candidate does. -/
structure Admissible (c : ControlProblem) (g : Automaton) (label : StateId → ProductState)
    (plantMarking : StateSet) : Prop where
  /-- its runs are runs of the product -/
  tracks : c.Tracks g label
  hasUniqueSuccessors : g.HasUniqueSuccessors
  /-- the plant marking is known -/
  marking : ∀ x ∈ g.states, x ∈ plantMarking ↔ (label x).plant ∈ c.plant.marked
  /-- each state is as it should be -/
  settled : c.Settled g label plantMarking

/-- Every state that is settled is one of those for which there is feedback, so
restricting takes none away. -/
theorem Settled.mem_restricted (hg : c.Settled g label plantMarking) {x : StateId}
    (hx : x ∈ g.states) : x ∈ (restricted g c.controllable plantMarking).1.states := by
  rw [states_restricted, ← IdentSet.mem_carrier, carrier_foundWithRecords]
  exact hg.enforceable x hx

namespace Admissible

variable (hg : c.Admissible g label plantMarking)
include hg

/-- Marked states are ahead of every state, since each is enforceable. -/
theorem marked_ahead {x : StateId} (hx : x ∈ g.states) :
    ∃ us, us ≠ [] ∧ g.IsPath x us ∧ endOf x us ∈ g.marked := by
  obtain ⟨S, hS⟩ := exists_enforces hg.tracks.wellFormed
    hg.hasUniqueSuccessors (hg.settled.enforceable x hx)
  obtain ⟨us, hne, hus, hmarked⟩ := hS.marked_ahead [] Supervisor.isRun_nil
  exact ⟨us, hne, hus.1, hmarked⟩

/-- A supervisor that enforces the marking solves the control problem, since every state
complies. -/
theorem solves_of_enforces {S : Supervisor c.controllable} (hx₀ : x₀ ∈ g.initial)
    (hS : S.Enforces g plantMarking x₀) : S.Solves c g label plantMarking x₀ := by
  have hwf := hg.tracks.wellFormed
  refine ⟨hx₀, hS, ?_⟩
  rintro x ⟨ts, hts, rfl⟩ l hl hsource hev
  have hx := hts.1.endOf_mem hwf (hwf.initial_subset x₀ hx₀)
  obtain ⟨t, ht, htsource, hevent, -⟩ := hg.settled.complies _ hx l hl hsource hev
  refine ⟨t, ht, htsource, hevent, ts ++ [t], ?_, endOf_concat x₀ ts t⟩
  exact hts.concat_of_not_mem ht htsource (hevent ▸ hev)

/-- A supervisor that lets everything happen on a run along which marked states are visited
infinitely often, and applies the feedback after any other run. -/
theorem solves_feedbackOutside {r : ℕ → Transition} (hx₀ : x₀ ∈ g.initial)
    (hr : g.IsInfinitePath x₀ r)
    (hmarked : InfinitelyOften fun n => endOf x₀ (upTo r n) ∈ g.marked) :
    (Supervisor.feedbackOutside g c.controllable plantMarking x₀ {ts | ∃ n, upTo r n = ts}).Solves c
        g label plantMarking x₀ ∧
      (Supervisor.feedbackOutside g c.controllable plantMarking x₀
        {ts | ∃ n, upTo r n = ts}).IsInfiniteRun g x₀ r := by
  have hwf := hg.tracks.wellFormed
  have hunique := hg.hasUniqueSuccessors
  -- along the path nothing is disabled, as all its beginnings are free
  have hrun : ∀ n, (Supervisor.feedbackOutside g c.controllable plantMarking x₀
      {ts | ∃ n, upTo r n = ts}).IsRun g x₀ (upTo r n) := by
    intro n
    induction n with
    | zero => exact Supervisor.isRun_nil
    | succ n ih =>
      obtain ⟨ht, hsource⟩ := hr.step n
      exact upTo_succ n ▸ Supervisor.isRun_concat.mpr ⟨ih, ht, hsource, fun hd => hd.1 ⟨n, rfl⟩⟩
  refine ⟨hg.solves_of_enforces hx₀ ?_, hrun⟩
  refine Supervisor.enforces_feedbackOutside hwf hunique ?_ ?_ ?_ ?_
  · rintro ts us ⟨n, hn⟩
    exact ⟨ts.length, (eq_upTo_of_isPrefix (hn ▸ List.prefix_append ts us)).symm⟩
  · exact fun ts hts _ => hg.settled.mem_restricted (hts.1.endOf_mem hwf (hwf.initial_subset x₀ hx₀))
  · -- marked states are ahead on the path itself
    rintro ts ⟨n, rfl⟩ -
    obtain ⟨m, hnm, hm⟩ := hmarked (n + 1)
    obtain ⟨k, rfl⟩ := Nat.exists_eq_add_of_le hnm
    refine ⟨upTo (fun i => r (n + i)) (1 + k), fun hnil => ?_, ?_⟩
    · have hlen := congrArg List.length hnil
      rw [length_upTo, List.length_nil] at hlen
      omega
    · rw [← upTo_add, ← Nat.add_assoc]
      exact ⟨hrun _, hm⟩
  · -- a run that is free forever is this path
    intro r' hfree _ _
    have heq : r' = r := by
      refine eq_of_upTo_eq fun n => ?_
      obtain ⟨m, hm⟩ := hfree n
      have hlen := congrArg List.length hm
      rw [length_upTo, length_upTo] at hlen
      exact hlen ▸ hm.symm
    exact heq ▸ hmarked

/-- **A word that is accepted** belongs to a solution, that of a supervisor. The
supervisor lets the word go on as long as the run follows it. -/
theorem exists_isSolution (hc : c.WellPosed) {w : ℕ → EventId} (hw : w ∈ g.acceptedWords) :
    ∃ E, c.IsSolution E ∧ w ∈ E := by
  obtain ⟨xs, hxs, hreads, hmarked⟩ := hw
  have hpath := hreads.isInfinitePath
  have hoften : InfinitelyOften fun n =>
      endOf (xs 0) (upTo (Automaton.stepAt w xs) n) ∈ g.marked := by
    simpa only [Automaton.endOf_stepAt] using hmarked
  obtain ⟨hS, hrun⟩ := hg.solves_feedbackOutside hxs hpath hoften
  refine ⟨_, isSolution_allowed hc hg.tracks hg.hasUniqueSuccessors hS hg.marking, ?_, fun n => ?_⟩
  · exact ((infinitelyOften_marked_iff_mem hc hg.tracks hxs hpath).mp hoften).1
  · exact ⟨_, hrun n, Automaton.events_stepAt n⟩

/-- What is generated is what accepted words begin with, as marked states are always
ahead. -/
theorem words_eq : g.words = beginnings g.acceptedWords :=
  Automaton.words_eq_beginnings hg.tracks.wellFormed fun _ hx => hg.marked_ahead hx

end Admissible

/-! ## Supremal candidates

A candidate for a supervisor that sees all events. It has all steps of the product
between its states. -/

/-- The candidate represents a part of the product, each of its states is as it should be,
and every solution is allowed by a supervisor that solves the control problem in it. -/
structure Supremal (c : ControlProblem) (g : Automaton) (label : StateId → ProductState)
    (plantMarking : StateSet) : Prop where
  /-- it is a part of the product -/
  represents : c.Represents g label
  /-- the plant marking is known -/
  marking : ∀ x ∈ g.states, x ∈ plantMarking ↔ (label x).plant ∈ c.plant.marked
  /-- each state is as it should be -/
  settled : c.Settled g label plantMarking
  /-- no solution has been lost -/
  exists_solves : ∀ E, c.IsSolution E → E.Nonempty →
    ∃ (S : Supervisor c.controllable) (x₀ : StateId),
      S.Solves c g label plantMarking x₀ ∧ E ⊆ c.allowed g S x₀

namespace Supremal

variable (hg : c.Supremal g label plantMarking)
include hg

/-- In particular it is admissible. -/
theorem admissible (hc : c.WellPosed) : c.Admissible g label plantMarking :=
  ⟨hg.represents.tracks, hg.represents.hasUniqueSuccessors hc, hg.marking, hg.settled⟩

/-- **The words that are accepted** are those of all solutions. -/
theorem acceptedWords_eq (hc : c.WellPosed) : g.acceptedWords = ⋃₀ {E | c.IsSolution E} := by
  have hrep := hg.represents
  ext w
  constructor
  · intro hw
    obtain ⟨E, hE, hw⟩ := (hg.admissible hc).exists_isSolution hc hw
    exact ⟨E, hE, hw⟩
  · rintro ⟨E, hE, hw⟩
    obtain ⟨S, x₀, hS, hsub⟩ := hg.exists_solves E hE ⟨w, hw⟩
    obtain ⟨r, hr, rfl⟩ := exists_infiniteRun_of_mem_allowed (hrep.hasUniqueSuccessors hc) (hsub hw)
    have hpath : g.IsInfinitePath x₀ r := fun n => (hr n).1
    have hmarked := (infinitelyOften_marked_iff_mem hc hrep.tracks hS.start hpath).mpr
      ⟨hE.subset_plant hw, hE.subset_spec hw⟩
    exact ⟨fun n => endOf x₀ (upTo r n), hS.start, hpath.reads, hmarked⟩

theorem words_eq (hc : c.WellPosed) : g.words = beginnings g.acceptedWords :=
  (hg.admissible hc).words_eq

/-- Nothing is left only if there is no solution but the empty one. A word of a
solution begins in the initial state, and an initial state that is left has an
infinite word ahead. -/
theorem isEmpty_iff (hc : c.WellPosed) : g.isEmpty = true ↔ ∀ E, c.IsSolution E → E = ∅ := by
  have hwf := hg.represents.wellFormed
  constructor
  · intro hempty E hE
    by_contra hne
    obtain ⟨S, x₀, hS, -⟩ := hg.exists_solves E hE (Set.nonempty_iff_ne_empty.mpr hne)
    exact IdentSet.isEmpty_iff.mp hempty x₀ (hwf.initial_subset x₀ hS.start)
  · intro hnone
    refine IdentSet.isEmpty_iff.mpr fun x hx => ?_
    obtain ⟨x₀, hx₀, -⟩ := hg.settled.reached x hx
    have hnil : [] ∈ beginnings g.acceptedWords := by
      rw [← hg.words_eq hc]
      exact ⟨x₀, hx₀, [], trivial, rfl⟩
    obtain ⟨w, hw, -⟩ := hnil
    rw [hg.acceptedWords_eq hc] at hw
    obtain ⟨E, hE, hw⟩ := hw
    rw [hnone E hE] at hw
    exact hw

end Supremal

/-! ## The candidate of a synthesis

The product, the loop, and names for the states that are left. Names do not matter
for what has been proved, so they are dealt with first. -/

section

variable (hg : g.WellFormed) {name : String} {names : Std.ExtTreeMap StateId String}
  {enabled : Bool}
include hg

/-- Names do not matter: to change them is a deletion that deletes nothing. -/
theorem keeps_rename (hwf : Automaton.WellFormed
      { g with name := name, stateNames := names, stateNamesEnabled := enabled }) :
    c.Keeps label plantMarking g
      { g with name := name, stateNames := names, stateNamesEnabled := enabled } :=
  ⟨{ hg.isPart with }, hwf, fun _ _ hS => hS.visited_subset hg⟩

/-- Neither do they for states to be as they should be. -/
theorem settled_rename (hsettled : c.Settled g label plantMarking) :
    c.Settled { g with name := name, stateNames := names, stateNamesEnabled := enabled } label
      plantMarking := by
  have hpart : g.IsPart { g with name := name, stateNames := names, stateNamesEnabled := enabled } :=
    { hg.isPart with }
  refine ⟨hsettled.complies, fun x hx => ?_, hsettled.enforceable⟩
  obtain ⟨x₀, hx₀, ts, hts, hend⟩ := hsettled.reached x hx
  exact ⟨x₀, hx₀, ts, hpart.isPath hts, hend⟩

end

/-- A candidate may be named. -/
theorem Supremal.setName (hg : c.Supremal g label plantMarking) (name : String) :
    c.Supremal (g.setName name) label plantMarking := by
  have hwf := hg.represents.wellFormed
  have hkeeps : c.Keeps label plantMarking g (g.setName name) := keeps_rename hwf (hwf.setName name)
  refine ⟨hkeeps.represents hg.represents, hg.marking, settled_rename hwf hg.settled,
    fun E hE hne => ?_⟩
  obtain ⟨S, x₀, hS, hsub⟩ := hg.exists_solves E hE hne
  exact ⟨S, x₀, hkeeps.solves hS, hsub.trans (hkeeps.allowed_subset hS)⟩

/-- Naming states changes nothing but their names. So words, marked states and all
that is proved of a candidate before it is named still holds. -/
theorem nameStates_eq (c : ControlProblem) (composition : ProductComposition) (hg : g.WellFormed) :
    (c.nameStates composition g).WellFormed ∧
      ∃ names, c.nameStates composition g = { g with stateNames := names } := by
  rw [nameStates]
  generalize composition.toList = ps
  induction ps generalizing g with
  | nil => exact ⟨hg, g.stateNames, rfl⟩
  | cons p ps ih =>
    obtain ⟨p, x⟩ := p
    rw [List.foldl_cons]
    dsimp only
    split
    next =>
      obtain ⟨hwf, names, hnames⟩ := ih (hg.setStateName x _)
      refine ⟨hwf, names, hnames.trans ?_⟩
      rw [Automaton.setStateName]
      split <;> rfl
    next => exact ih hg

/-- The candidate of a synthesis is what the loop ends with, but for the names of states. -/
theorem automaton_supremalCandidate (c : ControlProblem) (config : SynthesisConfig)
    (hg : g.WellFormed) (heq : (c.refine c.controlledProduct.value.plantMarking
      c.controlledProduct.value.automaton.size c.controlledProduct.value.automaton).value = g) :
    (c.supremalCandidate config).value.automaton.WellFormed ∧ ∃ names enabled,
      (c.supremalCandidate config).value.automaton =
        { g with stateNames := names, stateNamesEnabled := enabled } := by
  rw [supremalCandidate, Watched.value_bind, Watched.value_bind, heq]
  dsimp only [Watched.value]
  split
  next =>
    obtain ⟨hwf, names, hnames⟩ := c.nameStates_eq c.controlledProduct.value.composition hg
    exact ⟨hwf, names, g.stateNamesEnabled, hnames⟩
  next => exact ⟨hg.setStateNamesEnabled false, ∅, false, rfl⟩

/-- **The candidate of a synthesis** is supremal. The product has all states that a
solution needs, and the loop keeps what supervisors visit that solve the problem. -/
theorem supremal_supremalCandidate (hc : c.WellPosed) (hfits : c.Fits) (config : SynthesisConfig) :
    ∃ label, c.Supremal (c.supremalCandidate config).value.automaton label
      (c.supremalCandidate config).value.plantMarking := by
  obtain ⟨label, hrep, hmarking, hshown⟩ := controlledProduct_spec hc hfits
  have hplantMarking : (c.supremalCandidate config).value.plantMarking =
      c.controlledProduct.value.plantMarking := by
    rw [supremalCandidate, Watched.value_bind, Watched.value_bind]
    rfl
  rw [hplantMarking]
  obtain ⟨hkeeps, hsettled⟩ := refine_spec c.controlledProduct.value.plantMarking hc hrep
    c.controlledProduct.value.automaton.size
  generalize hg : (c.refine c.controlledProduct.value.plantMarking
    c.controlledProduct.value.automaton.size c.controlledProduct.value.automaton).value = g
    at hkeeps hsettled
  obtain ⟨hwf, names, enabled, heq⟩ := c.automaton_supremalCandidate config hkeeps.wellFormed hg
  rw [heq] at hwf ⊢
  -- names are given last, and they change no word
  have hkept := hkeeps.trans (keeps_rename hkeeps.wellFormed hwf)
  refine ⟨label, hkept.represents hrep, fun x hx => ?_, settled_rename hkeeps.wellFormed hsettled,
    fun E hE hne => ?_⟩
  · exact hmarking x (hkept.isPart.states_subset x hx)
  · -- a solution survives every pruning, since each of them deletes only what no
    -- solution can use
    have hwords := (hE.compliant hc).subset_words hc hrep hshown
    have hdet := hrep.isDeterministic hc
    obtain ⟨x₀, hx₀⟩ := IsSolution.exists_initial hwords hne
    have hS := hE.solves_allowing hc hrep.tracks hdet hx₀ hwords hmarking hne
    exact ⟨_, x₀, hkept.solves hS,
      (IsSolution.subset_allowed hdet hx₀ hwords hE).trans (hkept.allowed_subset hS)⟩

/-! ## The result

After the checks have passed, the candidate is named and returned. -/

/-- The result is the candidate with its name. -/
theorem result_supremal (hcheck : c.check = .ok ()) (config : SynthesisConfig) :
    Checked.result (c.supremal config) =
      .ok ((c.supremalCandidate config).value.automaton.setName (c.resultName "SupBuechiCon")) := by
  rw [supremal, supremalUnchecked]
  simp only [Checked.result_bind, Checked.result_lift, Checked.result_liftExcept,
    Checked.result_pure, hcheck]
  rw [Watched.value_bind]
  rfl

/-- What a synthesis returns that nobody cancels. -/
theorem exists_supremal {σ : Type} {o : Observer σ} (ho : o.NeverCancels) (hc : c.WellPosed)
    (hcheck : c.check = .ok ()) (hfits : c.Fits) (config : SynthesisConfig) :
    ∃ res label plantMarking, (o.watchChecked (c.supremal config)).2 = .ok res ∧
      c.Supremal res label plantMarking := by
  obtain ⟨label, hg⟩ := supremal_supremalCandidate hc hfits config
  exact ⟨_, label, _, (Checked.watchChecked_eq_result ho _).trans (result_supremal hcheck config),
    hg.setName _⟩

/-- **The supremal solution**: a synthesis that nobody cancels returns an automaton that
accepts the words of all solutions, and generates the beginnings of these words. Nothing is
left of it only if there is no solution. -/
theorem supremal_result {σ : Type} {o : Observer σ} (ho : o.NeverCancels)
    (hplant : c.plant.WellFormed) (hspec : c.spec.WellFormed) (hcheck : c.check = .ok ())
    (hfits : c.Fits) (config : SynthesisConfig) :
    ∃ res, (o.watchChecked (c.supremal config)).2 = .ok res ∧
      res.acceptedWords = ⋃₀ {E | c.IsSolution E} ∧
      res.words = beginnings res.acceptedWords ∧
      (res.isEmpty = true ↔ ∀ E, c.IsSolution E → E = ∅) := by
  have hc := WellPosed.of_check hplant hspec hcheck
  obtain ⟨res, label, plantMarking, hres, hg⟩ := exists_supremal ho hc hcheck hfits config
  exact ⟨res, hres, hg.acceptedWords_eq hc, hg.words_eq hc, hg.isEmpty_iff hc⟩

/-- The machine has a supremal solution: it is started, and started again only after
it has been repaired. -/
theorem supremal_result_machine :
    Observer.patient.NeverCancels ∧ machineProblem.plant.WellFormed ∧
      machineProblem.spec.WellFormed ∧ machineProblem.check = .ok () ∧ machineProblem.Fits ∧
      ∃ res, (Observer.patient.watchChecked (machineProblem.supremal {})).2 = .ok res ∧
        res.acceptedWords = ⋃₀ {E | machineProblem.IsSolution E} ∧
        res.words = beginnings res.acceptedWords ∧
        (res.isEmpty = true ↔ ∀ E, machineProblem.IsSolution E → E = ∅) :=
  ⟨Observer.neverCancels_patient, Automaton.machine_wellFormed, Automaton.repairedMachine_wellFormed,
    machineProblem_check, machineProblem_fits,
    supremal_result Observer.neverCancels_patient Automaton.machine_wellFormed
      Automaton.repairedMachine_wellFormed machineProblem_check machineProblem_fits {}⟩

end ControlProblem

end OmegaControl
