import OmegaControl.Proofs.Liveness.Confinement
import OmegaControl.Proofs.OmegaTrim
import OmegaControl.Proofs.RelativeClosedness
import OmegaControl.Proofs.Synthesis.NormalCandidate

/-!
# When the closed loop of a normal solution passes its verification

The closed loop is the normal solution with the patterns of its observation classes
enforced, and trimmed. Of the three tests, one never fails: as patterns confine what
they leave, no cycle visits the plant marking without a marked state
(`NormalSolution.isRelativelyClosed_loop`).

The other two look at words. Patterns disable neither uncontrollable events nor an
event at one state of a class only. So before it is trimmed the loop is
controllable, and if all controllable events are observable it is normal, too
(`NormalSolution.normalWithin_loop`).

Trimming keeps it so if it takes no state away that is reached, that is, if marked
states stay ahead (`MakesProgress`). Patterns do not see to this in general, and
then even an uncontrollable event may lead to a state that is trimmed away
(`normalClosedLoop_not_controllable`). They do if no two states of one class have a
controllable event in common (`makesProgress_of_classesApart`).

Nor do patterns see to normality if an event can be disabled that is not seen: the
observer does not notice that it does not happen (`normalClosedLoop_not_normal`).
-/

namespace OmegaControl.ObservedProblem

open NormalPart Automaton

variable {c : ObservedProblem} {o a : Automaton} {label : StateId → ProductState}
  {cls : StateId → StateId} {plantMarking : StateSet} {classes : ObserverMap} {q : ObservedCandidate}
  {s : List EventId} {x : StateId}

/-- What is left of the automaton when patterns are enforced for those classes that are left. -/
abbrev loop (c : ObservedProblem) (plantMarking : StateSet) (classes : ObserverMap) (g : Automaton) :
    Automaton :=
  observedLoop g c.controllable plantMarking (classes.filter fun x _ => x ∈ g.states)

namespace NormalSolution

variable (h : c.NormalSolution o a label cls plantMarking q)
include h

/-! ## What is left -/

variable (classes) in
/-- Enforcing patterns leaves out states and transitions only. -/
theorem reduct_loop : Reduct { q with cand := c.loop plantMarking classes q.cand } q where
  cand :=
    { (isPart_restrictObserved h.reduct.wellFormed).isSubautomaton with
      transitions_subset := fun _ ht =>
        ((mem_transitions_observedLoop h.reduct.wellFormed).mp ht).1.1 }
  wellFormed := h.reduct.wellFormed.applyFeedback_observed ..
  observer_initial := rfl
  observer_transitions _ ho := ho

variable (classes) in
/-- So does trimming. -/
theorem reduct_omegaTrim :
    Reduct { q with cand := (c.loop plantMarking classes q.cand).omegaTrim } q := by
  have hloop := h.reduct_loop classes
  obtain ⟨-, hpart, hwf⟩ := hloop.wellFormed.isPart_omegaTrim
  exact (Reduct.of_isPart (c := { q with cand := c.loop plantMarking classes q.cand }) hpart hwf).trans
    hloop

variable (hc : c.WellPosed)
include hc

variable (classes) in
/-- The plant goes along with what is left. -/
theorem accompanied_loop : Accompanied c.plant (c.loop plantMarking classes q.cand).omegaTrim
    fun x => (label x).plant :=
  ((h.attachment.attached hc).of_reduct
    ((h.reduct_omegaTrim classes).trans h.reduct)).toAccompanied

omit hc in
/-- There are not more states left than there are numbers. -/
theorem size_lt (classes : ObserverMap) :
    (c.loop plantMarking classes q.cand).omegaTrim.size < UInt32.size :=
  Nat.lt_of_le_of_lt (IdentSet.size_le_of_subset
    ((h.reduct_omegaTrim classes).trans h.reduct).cand.states_subset) h.attachment.size_lt

variable (classes) in
/-- **Relative closedness**: a cycle that visits marked states of one side visits marked states of the
other, whatever the patterns are. -/
theorem isRelativelyClosed_loop :
    isRelativelyClosed c.plant (c.loop plantMarking classes q.cand).omegaTrim = true := by
  obtain ⟨-, hpart, hwf⟩ := (h.reduct_loop classes).wellFormed.isPart_omegaTrim
  have hcand := (h.reduct_omegaTrim classes).cand
  refine (h.accompanied_loop classes hc).isRelativelyClosed (h.size_lt classes) ?_ ?_
  · intro x hx hplant ts hne hts hcycle
    obtain ⟨u, hu, hend⟩ := exists_target_eq_endOf hne x
    have hvisited : u.target ∈ plantMarking := by
      rw [hend, hcycle]
      exact (h.admissible.marking x (hcand.states_subset x hx)).mpr hplant
    obtain ⟨t, ht, hmarked⟩ :=
      marked_of_cycle_observedLoop h.reduct.wellFormed (hpart.isPath hts) hcycle ⟨u, hu, hvisited⟩
    exact ⟨t, ht, hpart.mem_marked.mpr ⟨hmarked, hwf.target_mem t (hts.mem_transitions ht)⟩⟩
  · intro x _ hmarked ts hne hts hcycle
    exact h.tracks.exists_plant_marked_of_cycle (hcand.mem_marked.mp hmarked).1 hne
      (hts.mono hcand.transitions_subset) hcycle

/-! ## What patterns leave -/

section

variable (hclasses : ∀ x ∈ a.states, classes[x]? = some (cls x))
  (henforced : c.Enforced plantMarking classes q.cand)
include henforced

omit hc in
/-- Between the states of the solution patterns take transitions away only. -/
theorem mem_transitions_loop {t : Transition} :
    t ∈ (c.loop plantMarking classes q.cand).transitions ↔
      t ∈ q.cand.allowedUnder (classes.filter fun x _ => x ∈ q.cand.states)
        (observedPatterns q.cand c.controllable plantMarking
          (classes.filter fun x _ => x ∈ q.cand.states)) := by
  have hwf := h.reduct.wellFormed
  refine (mem_transitions_observedLoop hwf).trans (and_iff_left_of_imp fun ⟨ht, _⟩ => ?_)
  exact ⟨henforced _ (hwf.source_mem t ht), henforced _ (hwf.target_mem t ht)⟩

omit hc in
/-- Uncontrollable events stay. -/
theorem mem_loop_of_not_mem {t : Transition} (ht : t ∈ q.cand.transitions)
    (hev : t.event ∉ c.controllable) : t ∈ (c.loop plantMarking classes q.cand).transitions :=
  (h.mem_transitions_loop henforced).mpr
    (mem_allowedUnder_observedPatterns h.reduct.wellFormed ht hev)

include hclasses

omit hc in
/-- An event that stays at one state stays at all that are attached to the same state of the
observer. -/
theorem mem_loop_of_cls_eq {t u : Transition} (ht : t ∈ q.cand.transitions)
    (hu : u ∈ (c.loop plantMarking classes q.cand).transitions) (hevent : t.event = u.event)
    (hcls : cls t.source = cls u.source) : t ∈ (c.loop plantMarking classes q.cand).transitions := by
  have hwf := h.reduct.wellFormed
  have hu := (h.mem_transitions_loop henforced).mp hu
  refine (h.mem_transitions_loop henforced).mpr (mem_allowedUnder_congr ht hu hevent ?_)
  rw [of_filter_classes hclasses h.reduct.cand.states_subset (hwf.source_mem t ht),
    of_filter_classes hclasses h.reduct.cand.states_subset (hwf.source_mem u hu.1), hcls]

/-- **Normality** before trimming, if patterns disable observable events only: what looks like a word
of the loop is a word of the solution, and goes on with an event that is seen if the other word does,
as patterns do the same after both. -/
theorem normalWithin_loop (hobservable : c.controllable ⊆ c.observable) :
    NormalWithin c.plant c.observable (c.loop plantMarking classes q.cand) := by
  have hloop := (h.reduct_loop classes).cand
  intro s hs
  induction s using List.reverseRecOn with
  | nil => exact fun s' hs' _ => words_of_append hs'
  | append_singleton s ev ih =>
    intro s' hs' hlook
    have hcand := h.normalWithin hc _ hs s' (hloop.words_subset hs') hlook
    -- a word that looks like the beginning, which goes on with the event if that is seen
    obtain ⟨s₁, hs₁, hlook₁, hnext⟩ := exists_lookalike_beginning hs' hlook
    obtain ⟨x, hx⟩ := mem_words_iff.mp (ih (words_of_append hs) s₁ hs₁ hlook₁)
    obtain ⟨y, ht⟩ := (h.isDeterministic.concat_mem_words (hloop.reaches hx)).mp hcand
    refine (hx.concat (y := y) ?_).mem_words
    by_cases hev : ev ∈ c.observable
    · obtain ⟨z, hz⟩ := mem_words_iff.mp (hnext hev)
      obtain ⟨x₁, hx₁, hu⟩ := reaches_concat.mp hz
      refine h.mem_loop_of_cls_eq hclasses henforced ht hu rfl ?_
      exact h.attachment.cls_eq (h.reaches (hloop.reaches hx)) (h.reaches (hloop.reaches hx₁)) hlook₁
    · exact h.mem_loop_of_not_mem henforced ht fun hmem => hev (hobservable ev hmem)

/-! ## Trimming -/

section

variable (hahead : ∀ x ∈ (c.loop plantMarking classes q.cand).accessible.states, ∃ us, us ≠ [] ∧
  (c.loop plantMarking classes q.cand).IsPath x us ∧
    endOf x us ∈ (c.loop plantMarking classes q.cand).marked)
include hahead

omit hc hclasses henforced in
/-- If marked states stay ahead, trimming takes no word away. -/
theorem words_omegaTrim : (c.loop plantMarking classes q.cand).omegaTrim.words =
    (c.loop plantMarking classes q.cand).words := by
  have hwf := (h.reduct_loop classes).wellFormed
  refine Set.Subset.antisymm hwf.isPart_omegaTrim.2.1.isSubautomaton.words_subset ?_
  rw [hwf.omegaTrim_eq_of_ahead hahead]
  exact hwf.subset_words_accessible subset_rfl

omit hc hclasses in
/-- Then what is left goes along with the uncontrollable events of the plant. The
solution does, the patterns do not disable them, and where they lead to is not
trimmed away. -/
theorem complies_loop (hx : x ∈ (c.loop plantMarking classes q.cand).omegaTrim.states) :
    CompliesWithin c.plant c.controllable (c.loop plantMarking classes q.cand).omegaTrim
      (fun x => (label x).plant) Set.univ x := by
  have hwf := (h.reduct_loop classes).wellFormed
  intro l hl hsource hev
  obtain ⟨r, hr, rfl, hevent, -⟩ := h.pruned.complies x
    ((h.reduct_omegaTrim classes).cand.states_subset x hx) l hl hsource hev
  have hr := h.mem_loop_of_not_mem henforced hr (hevent ▸ hev)
  rw [hwf.omegaTrim_eq_of_ahead hahead] at hx ⊢
  have htarget := target_mem_accessibleSet hr (mem_states_restrictStates.mp hx).2
  exact ⟨r, (hwf.isPart_restrictStates _).mem_transitions.mpr ⟨hr, hx,
    mem_states_restrictStates.mpr ⟨hwf.target_mem r hr, htarget⟩⟩, rfl, hevent, trivial⟩

omit hclasses in
/-- So the test for controllability succeeds. -/
theorem isControllable_loop : isControllable c.plant c.controllable
    (c.loop plantMarking classes q.cand).omegaTrim = true :=
  (h.accompanied_loop classes hc).isControllable fun _ hx => h.complies_loop henforced hahead hx

variable (hobservable : c.controllable ⊆ c.observable)
include hobservable

/-- **Normality** after trimming, which has taken no word away. -/
theorem normalWithin_omegaTrim :
    NormalWithin c.plant c.observable (c.loop plantMarking classes q.cand).omegaTrim := by
  rw [NormalWithin, h.words_omegaTrim hahead]
  exact h.normalWithin_loop hc hclasses henforced hobservable

/-- The test is made with the plant trimmed. There are numbers enough for it, as a
state tells what is believed when it is reached. -/
theorem isNormal_loop : OmegaControl.isNormal c.plant.trim.markAllStates c.observable
    (c.loop plantMarking classes q.cand).omegaTrim.markAllStates = true := by
  have hreduct := (h.reduct_omegaTrim classes).trans h.reduct
  have hnormal := h.normalWithin_omegaTrim hc hclasses henforced hahead hobservable
  refine (h.accompanied_loop classes hc).isNormal_trim
    (hreduct.cand.alphabet_eq.trans h.attachment.alphabet_eq) hnormal
    (h.reduct_loop classes).wellFormed.allReached_omegaTrim (fun s hs => ?_) cls (h.size_lt classes)
    ((h.attachment.mirrors hc).beliefAfter_eq hreduct hnormal)
  -- words of the solution begin accepted words of the plant
  have hs := (h.reduct_omegaTrim classes).cand.words_subset hs
  rw [h.admissible.words_eq, h.admissible.acceptedWords_eq hc
    fun _ hx _ hy => h.isDeterministic.initial_unique hx hy] at hs
  exact hc.plant_isDeterministic.beginnings_subset_words_trim hc.plant_wellFormed
    (beginnings_mono (fun _ hw => hw.2.1) hs)

end

end

end NormalSolution

/-! ## The closed loop -/

/-- What is left of the normal solution when patterns are enforced, before it is trimmed. -/
def patternLoop (c : ObservedProblem) : Automaton :=
  observedLoop c.normalCandidate.value.automaton c.controllable
    c.normalCandidate.value.plantMarking c.normalCandidate.value.observerMap

/-- The closed loop that is returned is this one, trimmed. -/
theorem enforcedLoop_normalCandidate :
    c.enforcedLoop c.normalCandidate.value = c.patternLoop.omegaTrim := rfl

/-- Marked states stay ahead when patterns are enforced. -/
def MakesProgress (c : ObservedProblem) : Prop :=
  ∀ x ∈ c.patternLoop.accessible.states, ∃ us, us ≠ [] ∧ c.patternLoop.IsPath x us ∧
    endOf x us ∈ c.patternLoop.marked

/-- They do if no two states of a class have a controllable event in common. Then
the closed loop is that under the recorded feedback, in which marked states are
ahead of every state. -/
theorem makesProgress_of_classesApart (hc : c.WellPosed) (hfits : c.Fits)
    (hapart : c.normalCandidate.value.automaton.ClassesApart c.controllable
      c.normalCandidate.value.observerMap) : c.MakesProgress := by
  obtain ⟨label, cls, q, hq, h, -, -⟩ := exists_normalSolution hc hfits
  have hwf : c.normalCandidate.value.automaton.WellFormed := hq ▸ h.reduct.wellFormed
  have hunique : c.normalCandidate.value.automaton.HasUniqueSuccessors :=
    hq ▸ h.isDeterministic.hasUniqueSuccessors
  obtain ⟨outer, inner, hmeasure⟩ := exists_progressMeasure c.controllable
    c.normalCandidate.value.plantMarking hwf hunique
  rw [MakesProgress, patternLoop, observedLoop,
    applyFeedback_restrictObserved hunique hapart hwf]
  exact fun x hx => hmeasure.marked_ahead (mem_states_restrictStates.mp hx).1

section

variable (hc : c.WellPosed) (hfits : c.Fits)
include hc hfits

/-- What is known of loops for a normal solution is known of this one. -/
theorem exists_patternLoop_eq : ∃ label cls q,
    c.NormalSolution c.attachedStart.observer c.attachedStart.cand label cls c.attachedMarking q ∧
      (∀ x ∈ c.attachedStart.cand.states, c.attachedClasses[x]? = some (cls x)) ∧
      c.Enforced c.attachedMarking c.attachedClasses q.cand ∧
      c.patternLoop = c.loop c.attachedMarking c.attachedClasses q.cand := by
  obtain ⟨label, cls, q, hq, h, hclasses, henforced⟩ := exists_normalSolution hc hfits
  rw [value_normalCandidate] at hq
  dsimp only at hq
  refine ⟨label, cls, q, h, hclasses, henforced, ?_⟩
  rw [patternLoop, value_normalCandidate, loop, hq]

/-- The plant goes along with the closed loop. -/
theorem exists_accompanied_patternLoop : ∃ plantState,
    Accompanied c.plant c.patternLoop.omegaTrim plantState ∧
      c.patternLoop.omegaTrim.alphabet = c.plant.alphabet ∧
      c.patternLoop.omegaTrim.size < UInt32.size := by
  obtain ⟨label, cls, q, h, -, -, heq⟩ := exists_patternLoop_eq hc hfits
  rw [heq]
  exact ⟨_, h.accompanied_loop c.attachedClasses hc,
    ((h.reduct_omegaTrim c.attachedClasses).trans h.reduct).cand.alphabet_eq.trans
      h.attachment.alphabet_eq, h.size_lt c.attachedClasses⟩

/-- The test for relative closedness succeeds in any case. -/
theorem isRelativelyClosed_patternLoop :
    isRelativelyClosed c.plant c.patternLoop.omegaTrim = true := by
  obtain ⟨label, cls, q, h, -, -, heq⟩ := exists_patternLoop_eq hc hfits
  exact heq ▸ h.isRelativelyClosed_loop c.attachedClasses hc

variable (hprogress : c.MakesProgress)
include hprogress

/-- The test for controllability succeeds if the loop makes progress. -/
theorem isControllable_patternLoop :
    isControllable c.plant c.controllable c.patternLoop.omegaTrim = true := by
  obtain ⟨label, cls, q, h, -, henforced, heq⟩ := exists_patternLoop_eq hc hfits
  rw [MakesProgress, heq] at hprogress
  exact heq ▸ h.isControllable_loop hc henforced hprogress

variable (hobservable : c.controllable ⊆ c.observable)
include hobservable

/-- So does the test for normality, if what is controllable is observable; and what
is tested is true. -/
theorem isNormal_patternLoop :
    isNormal c.plant.trim.markAllStates c.observable c.patternLoop.omegaTrim.markAllStates = true ∧
      NormalWithin c.plant c.observable c.patternLoop.omegaTrim := by
  obtain ⟨label, cls, q, h, hclasses, henforced, heq⟩ := exists_patternLoop_eq hc hfits
  rw [MakesProgress, heq] at hprogress
  rw [heq]
  exact ⟨h.isNormal_loop hc hclasses henforced hprogress hobservable,
    h.normalWithin_omegaTrim hc hclasses henforced hprogress hobservable⟩

end

/-! ## The result -/

/-- Verification fails for the first test that fails. If it does not fail, two of
the tests tell something about what is returned. -/
theorem verifyClosedLoop_cases (c : ObservedProblem) (g : Automaton) :
    (c.verifyClosedLoop g = .ok () ∧ isControllable c.plant c.controllable g = true ∧
        isNormal c.plant.trim.markAllStates c.observable g.markAllStates = true) ∨
      (c.verifyClosedLoop g = .error (.verificationFailed "controllability") ∧
        isControllable c.plant c.controllable g = false) ∨
      (c.verifyClosedLoop g = .error (.verificationFailed "relative closedness") ∧
        isRelativelyClosed c.plant g = false) ∨
      (c.verifyClosedLoop g = .error (.verificationFailed "prefix normality") ∧
        isNormal c.plant.trim.markAllStates c.observable g.markAllStates = false) := by
  rw [verifyClosedLoop, ControlProblem.verifyClosedLoop]
  cases isControllable c.plant c.controllable g
  case false => exact .inr (.inl ⟨rfl, rfl⟩)
  cases isRelativelyClosed c.plant g
  case false => exact .inr (.inr (.inl ⟨rfl, rfl⟩))
  cases isNormal c.plant.trim.markAllStates c.observable g.markAllStates
  case false => exact .inr (.inr (.inr ⟨rfl, rfl⟩))
  case true => exact .inl ⟨rfl, rfl, rfl⟩

/-- **The closed loop of a normal solution**: if nobody cancels, it is returned, unless verification
fails. Verification never fails for relative closedness. It fails for controllability only if the loop
does not make progress, and for normality only then or if an event that is controllable is not
observable. What is returned goes along with the uncontrollable events of the plant, and it accepts
those infinite words that it generates and the plant accepts. If the loop makes progress and what is
controllable is observable, or else if numbers suffice for the test, it is normal. -/
theorem normalClosedLoop_result {σ : Type} {ob : Observer σ} (hob : ob.NeverCancels)
    (hplant : c.plant.WellFormed) (hspec : c.spec.WellFormed) (hcheck : c.check = .ok ())
    (hfits : c.Fits) (config : SynthesisConfig) :
    let outcome := (ob.watchChecked (c.normalClosedLoop { config with verify := true })).2
    (∃ res, outcome = .ok res ∧
      (∀ s ∈ res.words, ∀ ev ∉ c.controllable, s ++ [ev] ∈ c.plant.words → s ++ [ev] ∈ res.words) ∧
      res.words ⊆ c.plant.words ∧
      (∀ w, (∀ n, upTo w n ∈ res.words) → (w ∈ res.acceptedWords ↔ w ∈ c.plant.acceptedWords)) ∧
      (c.MakesProgress ∧ c.controllable ⊆ c.observable ∨
          2 ^ res.size * (c.plant.size + 1) < UInt32.size →
        NormalWithin c.plant.trim c.observable res)) ∨
    (outcome = .error (.verificationFailed "controllability") ∧ ¬c.MakesProgress) ∨
    (outcome = .error (.verificationFailed "prefix normality") ∧
      ¬(c.MakesProgress ∧ c.controllable ⊆ c.observable)) := by
  intro outcome
  have hc := ControlProblem.WellPosed.of_check hplant hspec (check_eq_ok_iff.mp hcheck).1
  have houtcome : outcome = (c.verifyClosedLoop c.patternLoop.omegaTrim >>= fun _ =>
      .ok (c.patternLoop.omegaTrim.setName (c.resultName "BuechiConNorm"))) :=
    (Checked.watchChecked_eq_result hob _).trans (result_normalClosedLoop hcheck _)
  have hclosed := isRelativelyClosed_patternLoop hc hfits
  obtain ⟨plantState, hloop, halphabet, hsize⟩ := exists_accompanied_patternLoop hc hfits
  rcases c.verifyClosedLoop_cases c.patternLoop.omegaTrim with ⟨hverify, hcontrollable, hnormal⟩ |
    ⟨hverify, hfails⟩ | ⟨hverify, hfails⟩ | ⟨hverify, hfails⟩ <;> rw [hverify] at houtcome
  · -- verification succeeds, so two of the tests have, and the third one always
    -- does
    have hwords := c.patternLoop.omegaTrim.words_setName (c.resultName "BuechiConNorm")
    obtain ⟨hsub, haccepted⟩ := (isRelativelyClosed_iff hc.plant_wellFormed hloop.wellFormed
      hc.plant_isDeterministic hloop.isDeterministic
      (Nat.lt_of_le_of_lt hloop.length_jointPairs_le hsize)).mp hclosed
    refine .inl ⟨_, houtcome, ?_, ?_, ?_, ?_⟩
    · rw [hwords]
      exact fun s hs ev hev hword => (isControllable_iff hc.plant_isDeterministic
        hloop.isDeterministic).mp hcontrollable s (words_of_append hword) hs ev hev hword
    · rw [hwords]
      exact hsub
    · rw [hwords]
      exact haccepted
    · rw [NormalWithin, hwords]
      rintro (⟨hprogress, hobservable⟩ | hsize)
      · have hnormal := (isNormal_patternLoop hc hfits hprogress hobservable).2
        exact fun s hs => hnormal s (hc.plant_wellFormed.isPart_trim.1.isSubautomaton.words_subset hs)
      · exact hloop.normalWithin_trim halphabet hsize hnormal
  · -- a test that fails has a reason, since it would succeed without it
    refine .inr (.inl ⟨houtcome, fun hprogress => ?_⟩)
    exact Bool.eq_false_iff.mp hfails (isControllable_patternLoop hc hfits hprogress)
  · exact absurd hclosed (Bool.eq_false_iff.mp hfails)
  · refine .inr (.inr ⟨houtcome, ?_⟩)
    rintro ⟨hprogress, hobservable⟩
    exact Bool.eq_false_iff.mp hfails (isNormal_patternLoop hc hfits hprogress hobservable).1

/-- No two states of one class have a controllable event in common. -/
theorem observedMachine_makesProgress : observedMachine.MakesProgress :=
  makesProgress_of_classesApart (ControlProblem.WellPosed.of_check machine_wellFormed
    repairedMachine_wellFormed ControlProblem.machineProblem_check) observedMachine_fits
    (by decide +kernel)

/-- The machine makes progress, and starts and repairs are seen. So its closed loop is returned, and it
is normal. -/
theorem normalClosedLoop_result_machine :
    Observer.patient.NeverCancels ∧ observedMachine.plant.WellFormed ∧
      observedMachine.spec.WellFormed ∧ observedMachine.check = .ok () ∧ observedMachine.Fits ∧
      observedMachine.MakesProgress ∧ observedMachine.controllable ⊆ observedMachine.observable ∧
      ∃ res, (Observer.patient.watchChecked
          (observedMachine.normalClosedLoop { verify := true })).2 = .ok res ∧
        (∀ s ∈ res.words, ∀ ev ∉ observedMachine.controllable,
          s ++ [ev] ∈ observedMachine.plant.words → s ++ [ev] ∈ res.words) ∧
        res.words ⊆ observedMachine.plant.words ∧
        (∀ w, (∀ n, upTo w n ∈ res.words) →
          (w ∈ res.acceptedWords ↔ w ∈ observedMachine.plant.acceptedWords)) ∧
        NormalWithin observedMachine.plant.trim observedMachine.observable res := by
  have hprogress := observedMachine_makesProgress
  have hobservable : observedMachine.controllable ⊆ observedMachine.observable := by decide +kernel
  refine ⟨Observer.neverCancels_patient, machine_wellFormed, repairedMachine_wellFormed,
    observedMachine_check, observedMachine_fits, hprogress, hobservable, ?_⟩
  rcases normalClosedLoop_result Observer.neverCancels_patient machine_wellFormed
      repairedMachine_wellFormed observedMachine_check observedMachine_fits {} with
    ⟨res, hres, hcontrollable, hsub, hclosed, hnormal⟩ | ⟨-, hstuck⟩ | ⟨-, hstuck⟩
  · exact ⟨res, hres, hcontrollable, hsub, hclosed, hnormal (.inl ⟨hprogress, hobservable⟩)⟩
  · exact absurd hprogress hstuck
  · exact absurd ⟨hprogress, hobservable⟩ hstuck

/-! ## Where verification fails -/

/-- The plant works (event 1) and may be told not to pause (event 2), but pauses are not seen. It is
asked to work infinitely often. -/
def unseenPauses : ObservedProblem where
  plant := ((((Automaton.new "plant").insertTransition ⟨⟨1⟩, ⟨1⟩, ⟨1⟩⟩).insertTransition
    ⟨⟨1⟩, ⟨2⟩, ⟨1⟩⟩).setInitialState ⟨1⟩).setMarkedState ⟨1⟩
  spec := ((((((Automaton.new "spec").insertTransition ⟨⟨1⟩, ⟨1⟩, ⟨1⟩⟩).insertTransition
    ⟨⟨1⟩, ⟨2⟩, ⟨2⟩⟩).insertTransition ⟨⟨2⟩, ⟨1⟩, ⟨1⟩⟩).insertTransition
    ⟨⟨2⟩, ⟨2⟩, ⟨2⟩⟩).setInitialState ⟨1⟩).setMarkedState ⟨1⟩
  controllable := .singleton ⟨2⟩
  observable := .singleton ⟨1⟩

/-- **Verification may fail for normality**: the patterns disable pauses, but a word
without pauses looks the same as one with them. The problem is well-posed, and its
solution is normal before patterns are enforced. -/
theorem normalClosedLoop_not_normal :
    unseenPauses.plant.WellFormed ∧ unseenPauses.spec.WellFormed ∧ unseenPauses.check = .ok () ∧
      Observer.patient.NeverCancels ∧ (Observer.patient.watchChecked
        (unseenPauses.normalClosedLoop { verify := true })).2 =
          .error (.verificationFailed "prefix normality") := by
  have hplant : unseenPauses.plant.WellFormed :=
    ((((WellFormed.new _).insertTransition _).insertTransition _).setInitialState _).setMarkedState _
  have hspec : unseenPauses.spec.WellFormed :=
    ((((((WellFormed.new _).insertTransition _).insertTransition _).insertTransition
      _).insertTransition _).setInitialState _).setMarkedState _
  have hcheck : unseenPauses.check = .ok () := by decide +kernel
  have hc := ControlProblem.WellPosed.of_check hplant hspec (check_eq_ok_iff.mp hcheck).1
  have hfits : unseenPauses.Fits := fits_of_size_lt hc (by decide +kernel)
  have hcontrollable : isControllable unseenPauses.plant unseenPauses.controllable
      unseenPauses.patternLoop.omegaTrim = true := by decide +kernel
  have hclosed := isRelativelyClosed_patternLoop hc hfits
  have hnormal : isNormal unseenPauses.plant.trim.markAllStates unseenPauses.observable
      unseenPauses.patternLoop.omegaTrim.markAllStates = false := by decide +kernel
  refine ⟨hplant, hspec, hcheck, Observer.neverCancels_patient, ?_⟩
  rw [Checked.watchChecked_eq_result Observer.neverCancels_patient, result_normalClosedLoop hcheck,
    if_pos rfl, enforcedLoop_normalCandidate, verifyClosedLoop, ControlProblem.verifyClosedLoop,
    hcontrollable, hclosed, hnormal]
  rfl

/-- Before an event is seen, event 2 is needed in state 2, where nothing but a loop is left without it,
and must not happen in state 3, from where it goes back to the start. -/
def divided (marked : StateId) : Automaton :=
  (((((((((((Automaton.new "divided").insertTransition ⟨⟨1⟩, ⟨1⟩, ⟨2⟩⟩).insertTransition
    ⟨⟨1⟩, ⟨3⟩, ⟨3⟩⟩).insertTransition ⟨⟨2⟩, ⟨1⟩, ⟨2⟩⟩).insertTransition
    ⟨⟨2⟩, ⟨2⟩, ⟨4⟩⟩).insertTransition ⟨⟨3⟩, ⟨1⟩, ⟨5⟩⟩).insertTransition
    ⟨⟨3⟩, ⟨2⟩, ⟨1⟩⟩).insertTransition ⟨⟨4⟩, ⟨4⟩, ⟨6⟩⟩).insertTransition
    ⟨⟨5⟩, ⟨4⟩, ⟨6⟩⟩).insertTransition ⟨⟨6⟩, ⟨4⟩, ⟨1⟩⟩).setInitialState ⟨1⟩).setMarkedState marked

/-- Whichever state is marked, the automaton is well-formed. -/
theorem divided_wellFormed (marked : StateId) : (divided marked).WellFormed :=
  (((((((((((WellFormed.new _).insertTransition _).insertTransition _).insertTransition
    _).insertTransition _).insertTransition _).insertTransition _).insertTransition
    _).insertTransition _).insertTransition _).setInitialState _).setMarkedState _

/-- What can be disabled is seen, but not which of the first states it is disabled
in. So those are in one class, and share what they disable. -/
def dividedProblem : ObservedProblem where
  plant := divided ⟨1⟩
  spec := divided ⟨6⟩
  controllable := .singleton ⟨2⟩
  observable := .ofList [⟨2⟩, ⟨4⟩]

/-- **Verification may fail for controllability** even if all controllable events are observable: the
second state is trimmed away, though an uncontrollable event leads to it. -/
theorem normalClosedLoop_not_controllable :
    dividedProblem.plant.WellFormed ∧ dividedProblem.spec.WellFormed ∧
      dividedProblem.check = .ok () ∧ dividedProblem.controllable ⊆ dividedProblem.observable ∧
      Observer.patient.NeverCancels ∧ (Observer.patient.watchChecked
        (dividedProblem.normalClosedLoop { verify := true })).2 =
          .error (.verificationFailed "controllability") := by
  have hcheck : dividedProblem.check = .ok () := by decide +kernel
  have hobservable : dividedProblem.controllable ⊆ dividedProblem.observable := by decide +kernel
  have hfails : isControllable dividedProblem.plant dividedProblem.controllable
      dividedProblem.patternLoop.omegaTrim = false := by decide +kernel
  refine ⟨divided_wellFormed _, divided_wellFormed _, hcheck, hobservable,
    Observer.neverCancels_patient, ?_⟩
  rw [Checked.watchChecked_eq_result Observer.neverCancels_patient, result_normalClosedLoop hcheck,
    if_pos rfl, enforcedLoop_normalCandidate, verifyClosedLoop, ControlProblem.verifyClosedLoop, hfails]
  rfl

end OmegaControl.ObservedProblem
