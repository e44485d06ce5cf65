import OmegaControl.Proofs.Synthesis.NormalSolution

/-!
# The normal solution

What the loop starts from: a part of the product of plant and specification, with
its observer attached (`ObservedProblem.exists_attachment`). So what it returns is a
normal solution (`ObservedProblem.normal_result`).

The start is built in three steps. The product of plant and specification is
trimmed, which leaves a part of it; this part is observed, all its states being
marked; and the part is joined with its observer. Only then does the loop begin.

Numbers can run out three times: for the states of the product, for what can be
believed about them, and for the two together. This is what `ObservedProblem.Fits`
asks for; a bound on the sizes of plant and specification ensures it
(`ObservedProblem.fits_of_size_lt`).
-/

namespace OmegaControl.ObservedProblem

open NormalPart Automaton

variable {c : ObservedProblem}

/-! ## What the loop starts from
 -/

/-- The part of the product of plant and specification that the synthesis starts from. -/
def trimmedProduct (c : ObservedProblem) : Automaton :=
  c.controlledProduct.value.automaton.omegaTrim.setStateNamesEnabled false

/-- The same with its observer attached. It keeps no names of states. -/
def attachedStart (c : ObservedProblem) : ObservedCandidate where
  observer := c.observerOf c.trimmedProduct
  cand := ((c.trimmedProduct.product (c.observerOf c.trimmedProduct)).1.setName
    c.trimmedProduct.name).setStateNamesEnabled false

/-- The states in which the plant is marked. -/
def attachedMarking (c : ObservedProblem) : StateSet :=
  statesWhere (c.trimmedProduct.product (c.observerOf c.trimmedProduct)).2 fun p =>
    p.left ∈ c.controlledProduct.value.plantMarking

/-- The states of the observer that are attached. -/
def attachedClasses (c : ObservedProblem) : ObserverMap :=
  .ofList ((c.trimmedProduct.product (c.observerOf c.trimmedProduct)).2.toList.map
    fun (p, x) => (x, p.right))

/-- The candidate of a synthesis is what the loop makes of the start. -/
theorem value_normalCandidate (c : ObservedProblem) : c.normalCandidate.value =
    { automaton := (c.refine c.attachedMarking c.attachedClasses c.attachedStart.cand.size
        c.attachedStart).value
      plantMarking := c.attachedMarking
      observerMap := c.attachedClasses.filter fun x _ => x ∈ (c.refine c.attachedMarking
        c.attachedClasses c.attachedStart.cand.size c.attachedStart).value.states } := by
  rw [normalCandidate, Watched.value_bind]
  exact Watched.value_bind ..

/-- There are enough numbers for the states of the product, for what can be believed about them,
and for pairs of the two. -/
structure Fits (c : ObservedProblem) : Prop where
  product : c.toControlProblem.Fits
  beliefs : (c.trimmedProduct.markAllStates.beliefs
    (c.trimmedProduct.alphabet ∩ c.observable)).length < UInt32.size
  pairs : (c.trimmedProduct.jointPairs (c.observerOf c.trimmedProduct)).length < UInt32.size

section

variable (hc : c.WellPosed) (hfits : c.toControlProblem.Fits)
include hc hfits

/-- Trimming leaves a part of the product, and the states that the plant marks are
still known. -/
theorem represents_trimmedProduct : ∃ label, c.Represents c.trimmedProduct label ∧
    c.trimmedProduct.alphabet = c.plant.alphabet ∧
    (∀ x ∈ c.trimmedProduct.states, c.toControlProblem.Reachable (label x)) ∧
    ∀ x ∈ c.trimmedProduct.states,
      x ∈ c.controlledProduct.value.plantMarking ↔ (label x).plant ∈ c.plant.marked := by
  obtain ⟨label, hrep, hmarking, -⟩ := ControlProblem.controlledProduct_spec hc hfits
  have halphabet := ControlProblem.alphabet_controlledProduct hc
  rw [trimmedProduct]
  generalize c.controlledProduct.value.automaton = g at hrep hmarking halphabet
  obtain ⟨haccessible, hpart, hwf⟩ := hrep.wellFormed.isPart_omegaTrim
  have hrenamed : (g.omegaTrim.setStateNamesEnabled false).IsPart g :=
    IsPart.trans { hwf.isPart with } hpart
  refine ⟨label, hrep.of_isPart hrenamed (hwf.setStateNamesEnabled false),
    hpart.alphabet_eq.trans halphabet, fun x hx => ?_, fun x hx => hmarking x (hpart.states_subset x hx)⟩
  obtain ⟨-, hx⟩ := mem_states_restrictStates.mp (haccessible.states_subset x hx)
  obtain ⟨x₀, hx₀, ts, hts, rfl⟩ := mem_accessibleSet.mp hx
  exact ⟨label x₀, _, hrep.tracks.start x₀ hx₀, hrep.tracks.leads hts⟩

end

/-- What is known of a state that is left is the state of the observer that is attached to it. -/
theorem of_filter_classes {a g : Automaton} {cls : StateId → StateId} {classes : ObserverMap}
    {x : StateId} (hclasses : ∀ x ∈ a.states, classes[x]? = some (cls x)) (hsub : g.states ⊆ a.states)
    (hx : x ∈ g.states) :
    ObservationClass.of (classes.filter fun x _ => x ∈ g.states) x = .observed (cls x) := by
  rw [ObservationClass.of, Std.ExtTreeMap.getElem?_filter', hclasses x (hsub x hx),
    Option.filter_some, if_pos (decide_eq_true hx)]

/-- **The start of the loop**: the observer is attached, and no word is lost,
because the observer goes along with every word. -/
theorem exists_attachment (hc : c.WellPosed) (hfits : c.Fits) : ∃ label cls,
    c.Attachment c.attachedStart.observer c.attachedStart.cand label cls ∧
      (∀ x ∈ c.attachedStart.cand.states,
        x ∈ c.attachedMarking ↔ (label x).plant ∈ c.plant.marked) ∧
      (∀ x ∈ c.attachedStart.cand.states, c.attachedClasses[x]? = some (cls x)) ∧
      c.trimmedProduct.words ⊆ c.attachedStart.cand.words := by
  obtain ⟨label, hrep, halphabet, -, hmarking⟩ := represents_trimmedProduct hc hfits.product
  obtain ⟨hobserver, belief, value, h⟩ := exists_attachedProduct hc hrep hfits.beliefs hfits.pairs
  have hattachment := h.attachment halphabet hobserver hfits.pairs
  have hmarking := fun x hx => hmarking (value x).left
    ((h.left (hattachment.allReached x hx).choose_spec).mem_states hrep.wellFormed)
  rw [attachedStart, attachedMarking, attachedClasses]
  generalize c.trimmedProduct.product (c.observerOf c.trimmedProduct) = out at h hattachment hmarking ⊢
  obtain ⟨a, numbers⟩ := out
  dsimp only at h hattachment hmarking ⊢
  refine ⟨_, _, hattachment.rename c.trimmedProduct.name false, fun x hx => ?_,
    fun x hx => (getElem?_ofList_numbers h.unfolds.injective (·.right)).mpr
      ⟨_, h.getElem?_value x hx, rfl⟩, fun s hs => ?_⟩
  · rw [← hmarking x hx, mem_statesWhere]
    constructor
    · rintro ⟨p, hp, hmarked⟩
      obtain rfl := h.unfolds.injective hp (h.getElem?_value x hx)
      exact of_decide_eq_true hmarked
    · exact fun hmarked => ⟨_, h.getElem?_value x hx, decide_eq_true hmarked⟩
  · obtain ⟨y, hy⟩ := mem_words_iff.mp hs
    obtain ⟨x, hx, -⟩ := h.exists_reaches hy
    exact ((reaches_rename c.trimmedProduct.name false).mpr hx).mem_words

/-- **The end of the loop** is a normal solution, of which patterns leave all states. -/
theorem exists_normalSolution (hc : c.WellPosed) (hfits : c.Fits) : ∃ label cls q,
    c.normalCandidate.value.automaton = q.cand ∧ c.NormalSolution c.attachedStart.observer
      c.attachedStart.cand label cls c.attachedMarking q ∧
      (∀ x ∈ c.attachedStart.cand.states, c.attachedClasses[x]? = some (cls x)) ∧
      c.Enforced c.attachedMarking c.attachedClasses q.cand := by
  obtain ⟨label, cls, hattachment, hmarking, hclasses, -⟩ := exists_attachment hc hfits
  rw [value_normalCandidate]
  dsimp only
  generalize c.attachedStart = start at hattachment hmarking hclasses ⊢
  obtain ⟨o, a⟩ := start
  obtain ⟨q, hq, hreduct, hpruned, henforced⟩ := refine_spec (hattachment.attached hc)
    c.attachedMarking c.attachedClasses a.size hattachment.noticed
  exact ⟨label, cls, q, hq, ⟨⟨hattachment, hreduct, hpruned⟩, hmarking,
    fun x hx => states_restrictObserved_subset (henforced x hx)⟩, hclasses, henforced⟩

/-! ## Numbers suffice -/

/-- With `n` states of the product, there are at most `2 ^ n` things to believe about them. -/
theorem fits_of_size_lt (hc : c.WellPosed)
    (hsize : c.plant.size * (c.spec.size * 2) * 2 ^ (c.plant.size * (c.spec.size * 2)) <
      UInt32.size) : c.Fits := by
  obtain ⟨ps, hlen, hps⟩ :=
    ControlProblem.exists_length_eq hc.plant_wellFormed hc.spec_wellFormed
  rw [← hlen] at hsize
  have hlarge : ps.length < UInt32.size :=
    Nat.lt_of_le_of_lt (Nat.le_mul_of_pos_right _ (Nat.two_pow_pos _)) hsize
  have hproduct : c.toControlProblem.Fits := ⟨ps, hlarge, hps⟩
  obtain ⟨label, hrep, halphabet, hreachable, -⟩ := represents_trimmedProduct hc hproduct
  have hstates : c.trimmedProduct.size ≤ ps.length := IdentSet.size_le_length
    (fun x hx => hps _ (hreachable x hx)) hrep.label_injective
  have hwf : c.trimmedProduct.markAllStates.WellFormed :=
    { hrep.wellFormed with marked_subset := fun _ hx => hx }
  have h : c.trimmedProduct.markAllStates.ObserverFits c.observable c.trimmedProduct.alphabet :=
    observerFits_of_size_le hwf (fun _ hev => hev) hstates hsize
  exact ⟨hproduct, h.beliefs, h.pairs⟩

/-! ## The result -/

/-- What is checked. -/
theorem check_eq_ok_iff : c.check = .ok () ↔
    c.toControlProblem.check = .ok () ∧ c.observable ⊆ c.plant.alphabet := by
  have hevents : checkEvents "observable" c.plant c.observable = .ok () ↔
      c.observable ⊆ c.plant.alphabet := by
    rw [checkEvents]
    split <;> simp_all
  rw [check, ControlProblem.bind_eq_ok_iff, hevents]

/-- Once the checks are passed the synthesis returns the candidate under its name. -/
theorem result_normal (hcheck : c.check = .ok ()) : Checked.result c.normal =
    .ok (c.normalCandidate.value.automaton.setName (c.resultName "SupBuechiConNorm")) := by
  rw [normal, normalUnchecked]
  simp only [Checked.result_bind, Checked.result_lift, Checked.result_liftExcept,
    Checked.result_pure, hcheck]
  rw [Watched.value_bind]
  rfl

/-- What is left of a candidate when patterns are enforced. Patterns may leave
states behind that reach no marked state, so it is trimmed once more. -/
def enforcedLoop (c : ObservedProblem) (candidate : Candidate) : Automaton :=
  (applyFeedback
    (restrictObserved candidate.automaton c.controllable candidate.plantMarking
      candidate.observerMap).value.1
    (restrictObserved candidate.automaton c.controllable candidate.plantMarking
      candidate.observerMap).value.2).omegaTrim

/-- The loop is returned unless verification is asked for and fails. What is
verified is the loop that is returned, and not the candidate. -/
theorem result_normalClosedLoop (hcheck : c.check = .ok ()) (config : SynthesisConfig) :
    Checked.result (c.normalClosedLoop config) =
      ((if config.verify then c.verifyClosedLoop (c.enforcedLoop c.normalCandidate.value)
        else .ok ()) >>= fun _ => .ok ((c.enforcedLoop c.normalCandidate.value).setName
          (c.resultName "BuechiConNorm"))) := by
  rw [normalClosedLoop]
  simp only [Checked.result_bind, Checked.result_lift, Checked.result_liftExcept, hcheck]
  change Checked.result (do
    if config.verify then c.verifyClosedLoop (c.enforcedLoop _)
    pure ((c.enforcedLoop _).setName (c.resultName "BuechiConNorm"))) = _
  split
  next => rw [Checked.result_bind, Checked.result_liftExcept]; rfl
  next => rfl

/-- **The normal solution**: a synthesis that nobody cancels returns an automaton that is
controllable, normal and omega-trim. It accepts what it generates and plant and specification
accept, and it generates no more than the supremal solution does. -/
theorem normal_result {σ : Type} {o : Observer σ} (ho : o.NeverCancels)
    (hplant : c.plant.WellFormed) (hspec : c.spec.WellFormed) (hcheck : c.check = .ok ())
    (hfits : c.Fits) (config : SynthesisConfig) :
    ∃ res sup, (o.watchChecked c.normal).2 = .ok res ∧
      (o.watchChecked (c.toControlProblem.supremal config)).2 = .ok sup ∧
      isControllable c.plant c.controllable res = true ∧
      isNormal c.plant c.observable res = true ∧
      res.isOmegaTrim = true ∧
      res.acceptedWords = {w | (∀ n, upTo w n ∈ res.words) ∧
        w ∈ c.plant.acceptedWords ∧ w ∈ c.spec.acceptedWords} ∧
      res.words ⊆ sup.words := by
  obtain ⟨hcheck', -⟩ := check_eq_ok_iff.mp hcheck
  have hc := ControlProblem.WellPosed.of_check hplant hspec hcheck'
  obtain ⟨label, cls, q, hq, h, -, -⟩ := exists_normalSolution hc hfits
  obtain ⟨sup, label', plantMarking', hsup, hsupremal⟩ :=
    ControlProblem.exists_supremal ho hc hcheck' hfits.product config
  have hresult := (Checked.watchChecked_eq_result ho _).trans (result_normal hcheck)
  rw [hq] at hresult
  have h := h.setName (c.resultName "SupBuechiConNorm")
  exact ⟨_, sup, hresult, hsup, h.isControllable hc, h.isNormal hc, h.isOmegaTrim,
    h.admissible.acceptedWords_eq hc fun _ hx _ hy => h.isDeterministic.initial_unique hx hy,
    h.admissible.words_subset hc hsupremal⟩

/-- Of the machine, failures are not seen. -/
def observedMachine : ObservedProblem where
  toControlProblem := ControlProblem.machineProblem
  observable := .ofList [⟨1⟩, ⟨2⟩, ⟨4⟩]

/-- All checks are passed. -/
theorem observedMachine_check : observedMachine.check = .ok () := by
  have hobservable : (.ofList [⟨1⟩, ⟨2⟩, ⟨4⟩] : EventSet) ⊆ machine.alphabet := by decide +kernel
  exact check_eq_ok_iff.mpr ⟨ControlProblem.machineProblem_check, hobservable⟩

/-- The machine is small enough. -/
theorem observedMachine_fits : observedMachine.Fits := fits_of_size_lt
  (ControlProblem.WellPosed.of_check machine_wellFormed repairedMachine_wellFormed
    ControlProblem.machineProblem_check) (by decide +kernel)

/-- The machine has a normal solution. -/
theorem normal_result_machine :
    Observer.patient.NeverCancels ∧ observedMachine.plant.WellFormed ∧
      observedMachine.spec.WellFormed ∧ observedMachine.check = .ok () ∧ observedMachine.Fits ∧
      ∃ res sup, (Observer.patient.watchChecked observedMachine.normal).2 = .ok res ∧
        (Observer.patient.watchChecked (observedMachine.toControlProblem.supremal {})).2 = .ok sup ∧
        isControllable observedMachine.plant observedMachine.controllable res = true ∧
        isNormal observedMachine.plant observedMachine.observable res = true ∧
        res.isOmegaTrim = true ∧
        res.acceptedWords = {w | (∀ n, upTo w n ∈ res.words) ∧
          w ∈ observedMachine.plant.acceptedWords ∧ w ∈ observedMachine.spec.acceptedWords} ∧
        res.words ⊆ sup.words :=
  ⟨Observer.neverCancels_patient, machine_wellFormed, repairedMachine_wellFormed,
    observedMachine_check, observedMachine_fits,
    normal_result Observer.neverCancels_patient machine_wellFormed repairedMachine_wellFormed
      observedMachine_check observedMachine_fits {}⟩

end OmegaControl.ObservedProblem
