import OmegaControl.Proofs.Synthesis.Renaming
import OmegaControl.Proofs.Synthesis.Sustainable

/-!
# Full observation

If all events of the plant are observable, words that look alike are the same, so
each state of the observer goes with one state of the product, and what can be kept
up are the words of solutions (`sustainable_beginnings`). Nothing that a solution
needs is lost in the loop (`beginnings_subset_words_refine`), so it ends with a
supremal candidate. There is one only, up to names, and so the syntheses for full
and for partial observation agree (`ObservedProblem.agrees_of_observable_eq`).

There is no bound on numbers for the observer here, as there is for partial
observation in general: beliefs are single states, so there are enough numbers if
there are for the product (`fits_of_observable_eq`).
-/

namespace OmegaControl

namespace ObservedProblem

open NormalPart Automaton ControlProblem

variable {c : ObservedProblem} {o a g : Automaton} {label : StateId → ProductState}
  {cls : StateId → StateId} {p q : ObservedCandidate} {plantMarking : StateSet}
  {classes : ObserverMap} {E : Set (ℕ → EventId)} {s : List EventId} {x y : StateId}

section

variable (hfull : c.observable = c.plant.alphabet) (hc : c.WellPosed)
include hfull hc

/-! ## What is seen
 -/

/-- Words of the plant are seen as they are. -/
theorem seen_eq_of_mem_words (hs : s ∈ c.plant.words) : seen c.observable s = s :=
  seen_eq_self fun _ hev => hfull ▸ mem_alphabet_of_mem_words hc.plant_wellFormed hs hev

/-- **Solutions** can be kept up: the supervisor of a solution sees all events, so
it may decide by the word itself. -/
theorem sustainable_beginnings (hE : c.toControlProblem.IsSolution E) : c.Sustainable (beginnings E) where
  toCompliant := hE.compliant hc
  normal s hs s' hs' hlook := by
    have hplant := beginnings_acceptedWords_subset (beginnings_mono hE.subset_plant hs')
    rw [seen_eq_of_mem_words hfull hc hs, seen_eq_of_mem_words hfull hc hplant] at hlook
    exact hlook ▸ hs'
  alive := by
    rintro _ ⟨w, hw, n, rfl⟩
    obtain ⟨ps, hstart, hreads, hoften⟩ := hE.exists_reads hw
    obtain ⟨m, hnm, hm⟩ := hoften (n + 1)
    obtain ⟨k, rfl⟩ := Nat.exists_eq_add_of_le hnm
    refine ⟨upTo (fun i => w (n + i)) (1 + k), fun hnil => ?_, ?_, ps 0, _, hstart, ?_, hm⟩
    · have hlen := congrArg List.length hnil
      rw [length_upTo, List.length_nil] at hlen
      omega
    · rw [← upTo_add]
      exact upTo_mem_beginnings hw _
    · rw [← upTo_add, ← Nat.add_assoc]
      exact hreads.leads _

/-- A state of the observer goes with one state. Two states that are attached to it
are led to by words that look alike, so by the same words. -/
theorem Attachment.eq_of_cls_eq (ha : c.Attachment o a label cls) (hx : x ∈ a.states)
    (hy : y ∈ a.states) (heq : cls x = cls y) : x = y := by
  obtain ⟨s, hs⟩ := ha.allReached y hy
  obtain ⟨s', hs', hlook⟩ := ha.exists_lookalike hs hx heq
  have hplant := (ha.attached hc).toAccompanied
  rw [seen_eq_of_mem_words hfull hc (hplant.reaches hs').mem_words,
    seen_eq_of_mem_words hfull hc (hplant.reaches hs).mem_words] at hlook
  exact ha.isDeterministic.reaches_unique hs' (hlook ▸ hs)

/-- So states stand for different states of the product. -/
theorem Attachment.eq_of_label_eq (ha : c.Attachment o a label cls) (hx : x ∈ a.states)
    (hy : y ∈ a.states) (heq : label x = label y) : x = y := by
  have hbelieved : ∀ {x}, x ∈ a.states → believed a label cls x = {label x} := by
    intro x hx
    ext p
    constructor
    · rintro ⟨z, hz, hcls, rfl⟩
      rw [ha.eq_of_cls_eq hfull hc hz hx hcls]
      rfl
    · rintro rfl
      exact ⟨x, hx, rfl, rfl⟩
  refine ha.eq_of_cls_eq hfull hc hx hy (ha.cls_injective x hx y hy ?_)
  rw [hbelieved hx, hbelieved hy, heq]

/-! ## The loop
 -/

section

variable (ha : c.Attachment o a label cls)
  (hmarking : ∀ x ∈ a.states, x ∈ plantMarking ↔ (label x).plant ∈ c.plant.marked)
  (hclasses : ∀ x ∈ a.states, classes[x]? = some (cls x)) (hE : c.toControlProblem.IsSolution E)
include ha hclasses

/-- Classes tell all states apart. So what patterns leave is what is left under full
observation. -/
theorem injOn_classes (hsub : g.states ⊆ a.states) :
    Set.InjOn (ObservationClass.of (classes.filter fun x _ => x ∈ g.states)) g.states.carrier := by
  intro x hx y hy heq
  rw [of_filter_classes hclasses hsub hx, of_filter_classes hclasses hsub hy] at heq
  exact ha.eq_of_cls_eq hfull hc (hsub x hx) (hsub y hy) (ObservationClass.observed.inj heq)

include hmarking hE

/-- Patterns leave all states that the supervisor of a solution visits, since these
are enforceable. -/
theorem beginnings_subset_words_restrictObserved (hp : Carries o a cls (beginnings E) p) :
    beginnings E ⊆ (restrictObserved p.cand c.controllable plantMarking
      (classes.filter fun x _ => x ∈ p.cand.states)).value.1.words := by
  have hwf := hp.reduct.wellFormed
  have hdet := hp.reduct.cand.isDeterministic ha.isDeterministic
  have hsub := hp.reduct.cand.states_subset
  have hapart := ClassesApart.of_injOn c.controllable hwf
    (injOn_classes hfull hc ha hclasses hsub)
  have htracks := ha.tracks.of_isSubautomaton hp.reduct.cand hwf
  rw [restrictObserved_fst hdet.hasUniqueSuccessors hapart]
  refine (restricted_isPart hwf).subset_words (hE.compliant hc).mem_of_append hp.words ?_
  intro s hs x hx
  have hne : E.Nonempty := by
    obtain ⟨w, hw, -⟩ := hs
    exact ⟨w, hw⟩
  obtain ⟨x₀, hx₀⟩ := IsSolution.exists_initial hp.words hne
  have hS := hE.enforces_allowing hc htracks hdet hx₀ hp.words
    (fun x hx => hmarking x (hsub x hx)) hne
  obtain ⟨ts, hts, rfl⟩ := IsSolution.exists_isRun (c := c.toControlProblem) hdet hx₀ hp.words hs
  obtain rfl := hdet.reaches_unique hx ⟨x₀, hx₀, ts, hts.1, rfl, rfl⟩
  rw [states_restricted, ← IdentSet.mem_carrier, carrier_foundWithRecords]
  exact hS.visited_subset hwf (hwf.initial_subset x₀ hx₀) hts.endOf_mem_visited

/-- **The loop** loses no word of a solution: neither making the candidate normal
nor enforcing the marking takes away what the solution needs. -/
theorem beginnings_subset_words_refine (total : ℕ) (hp : Carries o a cls (beginnings E) p) :
    beginnings E ⊆ (c.refine plantMarking classes total p).value.words := by
  induction hsize : p.cand.size using Nat.strong_induction_on generalizing p with
  | _ n ih =>
    subst hsize
    rw [value_refine]
    split
    next => exact hp.words
    next =>
      have hpruned := carries_prunePrefixes ha (sustainable_beginnings hfull hc hE) hc hp
      have hwords := beginnings_subset_words_restrictObserved hfull hc ha hmarking hclasses hE hpruned
      have hle := c.size_prunePrefixes_le p
      obtain ⟨hpart, hwf, -⟩ := isPart_livePart hpruned.reduct.wellFormed plantMarking classes
      split
      next hsmaller => exact ih _ (hsmaller.trans_le hle) (hpruned.of_isPart hpart hwf hwords) rfl
      next => exact hwords

end

/-! ## The candidate
 -/

omit hfull hc in
/-- If everything is seen, what is believed is true: it is the one state that the
word leads to. -/
theorem beliefAfter_eq_of_seen_eq (hg : g.WellFormed) (hdet : g.IsDeterministic) {events : EventSet}
    (hseen : ∀ s ∈ g.words, seen events s = s) (hx : g.Reaches s x) :
    g.beliefAfter events (seen events s) = {y | y ∈ g.states ∧ y = x} := by
  ext y
  rw [mem_beliefAfter_iff]
  constructor
  · rintro ⟨s', hs', hlook⟩
    rw [hseen s' hs'.mem_words, hseen s hx.mem_words] at hlook
    subst hlook
    exact ⟨hs'.mem_states hg, hdet.reaches_unique hs' hx⟩
  · rintro ⟨-, rfl⟩
    exact ⟨s, hx, rfl⟩

/-- **Numbers suffice** for partial observation if they do for the product. When all
events are observed, a belief has one member at most. So there are no more beliefs
than states, and joining the observer adds no states. -/
theorem fits_of_observable_eq (hfits : c.toControlProblem.Fits) : c.Fits := by
  obtain ⟨label, hrep, halphabet, hreachable, -⟩ := represents_trimmedProduct hc hfits
  obtain ⟨ps, hlen, hps⟩ := hfits
  have hsize : c.trimmedProduct.size < UInt32.size :=
    Nat.lt_of_le_of_lt (IdentSet.size_le_length (fun x hx => hps _ (hreachable x hx))
      hrep.label_injective) hlen
  have hwf : c.trimmedProduct.markAllStates.WellFormed :=
    { hrep.wellFormed with marked_subset := fun _ hx => hx }
  have hdet : c.trimmedProduct.markAllStates.IsDeterministic := hrep.isDeterministic hc
  have hevents : ∀ s ∈ c.trimmedProduct.markAllStates.words, ∀ ev ∈ s,
      ev ∈ c.trimmedProduct.alphabet ∩ c.observable := by
    intro s hs ev hev
    have hmem : ev ∈ c.trimmedProduct.alphabet := mem_alphabet_of_mem_words hwf hs hev
    exact IdentSet.mem_inter.mpr ⟨hmem, hfull ▸ halphabet ▸ hmem⟩
  have hbeliefs := Nat.lt_of_le_of_lt (hwf.length_beliefs_le c.observable id
    fun hx => beliefAfter_eq_of_seen_eq hwf hdet (fun s hs => seen_eq_self fun ev hev =>
      (IdentSet.mem_inter.mp (hevents s hs ev hev)).2) hx) hsize
  obtain ⟨belief, ho⟩ := observes_inverseProject c.observable c.trimmedProduct.alphabet hwf
    (fun _ hev => hev) hbeliefs
  refine ⟨⟨ps, hlen, hps⟩, hbeliefs, Nat.lt_of_le_of_lt ?_ hsize⟩
  -- what is believed is the state that the product is in
  have hbelief : ∀ {p}, p ∈ c.trimmedProduct.jointPairs (c.observerOf c.trimmedProduct) →
      p.left ∈ c.trimmedProduct.states ∧ p.right ∈ (c.observerOf c.trimmedProduct).states ∧
        belief p.right = {y | y ∈ c.trimmedProduct.states ∧ y = p.left} := by
    intro p hp
    obtain ⟨s, hleft, hright⟩ := exists_reaches_of_mem_jointPairs hp
    refine ⟨hleft.mem_states hrep.wellFormed, hright.mem_states ho.wellFormed, ?_⟩
    exact (ho.belief_eq hright).trans (beliefAfter_eq_of_seen_eq hwf hdet
      (fun s hs => seen_eq_self (hevents s hs)) (reaches_markAllStates.mpr hleft))
  refine IdentSet.length_le_size (R := fun p x => p.left = x) Traversal.discover_nodup
    (fun p hp => ⟨p.left, (hbelief hp).1, rfl⟩) ?_
  rintro p hp q hq _ rfl hleft
  obtain ⟨-, hp, hp'⟩ := hbelief hp
  obtain ⟨-, hq, hq'⟩ := hbelief hq
  rw [hleft, ← hp'] at hq'
  have hright := ho.belief_injective _ hq _ hp hq'
  cases p
  cases q
  simp_all

section

variable (h : c.NormalSolution o a label cls plantMarking q)
  (hwords : ∀ E, c.toControlProblem.IsSolution E → beginnings E ⊆ q.cand.words)
  {sup : Automaton} {label' : StateId → ProductState} {plantMarking' : StateSet}
  (hsup : c.toControlProblem.Supremal sup label' plantMarking')
include h

/-- States that are left stand for different states of the product. -/
theorem NormalSolution.label_injective (hx : x ∈ q.cand.states) (hy : y ∈ q.cand.states)
    (heq : label x = label y) : x = y :=
  h.attachment.eq_of_label_eq hfull hc (h.reduct.cand.states_subset x hx)
    (h.reduct.cand.states_subset y hy) heq

include hwords hsup

/-- No step of the product is missing between states that are left: the supremal candidate has the
step, so the word goes on there, and hence here. -/
theorem NormalSolution.mem_transitions_of_step {ev : EventId} (hx : x ∈ q.cand.states)
    (hy : y ∈ q.cand.states) (hstep : c.toControlProblem.Step (label x) ev (label y)) :
    ⟨x, ev, y⟩ ∈ q.cand.transitions := by
  obtain ⟨s, hs⟩ := h.pruned.reached x hx
  obtain ⟨s', hs'⟩ := h.pruned.reached y hy
  have hsub := h.admissible.words_subset hc hsup
  obtain ⟨u, hu⟩ := mem_words_iff.mp (hsub hs.mem_words)
  obtain ⟨v, hv⟩ := mem_words_iff.mp (hsub hs'.mem_words)
  have hrep := hsup.represents
  rw [h.tracks.label_eq hc hrep.tracks hs hu, h.tracks.label_eq hc hrep.tracks hs' hv] at hstep
  have ht := (hrep.mem_transitions ⟨u, ev, v⟩).mpr
    ⟨hu.mem_states hrep.wellFormed, hv.mem_states hrep.wellFormed, hstep⟩
  have hword := (hu.concat ht).mem_words
  rw [hsup.words_eq hc, hsup.acceptedWords_eq hc] at hword
  obtain ⟨w, ⟨E, hE, hw⟩, hn⟩ := hword
  obtain ⟨z, hz⟩ := (h.isDeterministic.concat_mem_words hs).mp (hwords E hE ⟨w, hw, hn⟩)
  have hlabel := (h.tracks.label_eq hc hrep.tracks (hs.concat hz) (hu.concat ht)).trans
    (h.tracks.label_eq hc hrep.tracks hs' hv).symm
  obtain rfl := h.label_injective hfull hc (h.reduct.wellFormed.target_mem ⟨x, ev, z⟩ hz) hy hlabel
  exact hz

/-- If the loop loses no word of a solution, it ends with a supremal candidate. -/
theorem NormalSolution.supremal : c.toControlProblem.Supremal q.cand label plantMarking := by
  have hwf := h.reduct.wellFormed
  have hdet := h.isDeterministic
  refine ⟨⟨hwf, fun x hx y hy => h.label_injective hfull hc hx hy, fun x => ⟨fun hx => ?_, ?_⟩,
    h.tracks.mem_marked, fun t => ⟨fun ht => ?_, fun ⟨hsource, htarget, hstep⟩ => ?_⟩⟩,
    h.admissible.marking, h.settled, fun E hE hne => ?_⟩
  · exact ⟨hwf.initial_subset x hx, h.tracks.start x hx⟩
  · rintro ⟨hx, hstart⟩
    obtain ⟨s, x₀, hx₀, -⟩ := h.pruned.reached x hx
    have heq := (h.tracks.start x₀ hx₀).unique hc.deterministic hstart
    exact h.label_injective hfull hc (hwf.initial_subset x₀ hx₀) hx heq ▸ hx₀
  · exact ⟨hwf.source_mem t ht, hwf.target_mem t ht, h.tracks.step t ht⟩
  · exact h.mem_transitions_of_step hfull hc hwords hsup hsource htarget hstep
  · obtain ⟨x₀, hx₀⟩ := IsSolution.exists_initial (hwords E hE) hne
    exact ⟨_, x₀, hE.solves_allowing hc h.tracks hdet hx₀ (hwords E hE) h.admissible.marking hne,
      IsSolution.subset_allowed hdet hx₀ (hwords E hE) hE⟩

end

/-- The candidate has all words of solutions, as it is what the loop ends with. -/
theorem beginnings_subset_words_normalCandidate (hfits : c.toControlProblem.Fits)
    (hE : c.toControlProblem.IsSolution E) :
    beginnings E ⊆ c.normalCandidate.value.automaton.words := by
  obtain ⟨label, cls, hattachment, hmarking, hclasses, hstart⟩ :=
    exists_attachment hc (fits_of_observable_eq hfull hc hfits)
  have hK := sustainable_beginnings hfull hc hE
  have hsub := (hK.subset_words_trimmedProduct hc hfits).trans hstart
  rw [value_normalCandidate]
  dsimp only
  generalize c.attachedStart = start at hattachment hmarking hclasses hsub ⊢
  obtain ⟨o, a⟩ := start
  exact beginnings_subset_words_refine hfull hc hattachment hmarking hclasses hE a.size
    (.of_noticed hattachment.isDeterministic (.refl hattachment.tracks.wellFormed)
      hattachment.noticed hsub)

/-- **The candidate** for full observation is supremal. So is the one that is
computed without an observer, and there is one supremal candidate only, up to names. -/
theorem supremal_normalCandidate (hfits : c.toControlProblem.Fits) {sup : Automaton}
    {label' : StateId → ProductState} {plantMarking' : StateSet}
    (hsup : c.toControlProblem.Supremal sup label' plantMarking') :
    ∃ label, c.toControlProblem.Supremal c.normalCandidate.value.automaton label
        c.normalCandidate.value.plantMarking ∧
      c.normalCandidate.value.automaton.alphabet = c.plant.alphabet ∧
      Set.InjOn (ObservationClass.of c.normalCandidate.value.observerMap)
        c.normalCandidate.value.automaton.states.carrier := by
  have hwords := fun E => beginnings_subset_words_normalCandidate (E := E) hfull hc hfits
  obtain ⟨label, cls, q, hq, h, hclasses, -⟩ :=
    exists_normalSolution hc (fits_of_observable_eq hfull hc hfits)
  rw [hq] at hwords ⊢
  rw [value_normalCandidate] at hq ⊢
  dsimp only at hq ⊢
  rw [hq]
  exact ⟨label, h.supremal hfull hc hwords hsup, h.alphabet_eq,
    injOn_classes hfull hc h.attachment hclasses h.reduct.cand.states_subset⟩

/-! ## The closed loop
 -/

/-- With full observation a closed loop passes the test for normality, too. So the
verification of the closed loop never fails for want of it. -/
theorem isNormal_enforcedLoop (hfits : c.toControlProblem.Fits)
    (hg : c.toControlProblem.Supremal g label plantMarking) (halphabet : g.alphabet = c.plant.alphabet) :
    isNormal c.plant.trim.markAllStates c.observable
      (c.toControlProblem.enforcedLoop g plantMarking).markAllStates = true := by
  have hloop := hg.accompanied hc
  have hwords : (c.toControlProblem.enforcedLoop g plantMarking).words ⊆ c.plant.trim.words := by
    intro s hs
    obtain ⟨x₀, -, -, heq⟩ := hg.exists_isSolution_of_mem_words hc hs
    rw [heq] at hs
    exact hc.plant_isDeterministic.beginnings_subset_words_trim hc.plant_wellFormed
      (beginnings_mono (fun _ hw => hw.1) hs)
  have hseen : ∀ s ∈ (c.toControlProblem.enforcedLoop g plantMarking).words,
      seen c.observable s = s := by
    intro s hs
    obtain ⟨x, hx⟩ := mem_words_iff.mp hs
    exact seen_eq_of_mem_words hfull hc (hloop.reaches hx).mem_words
  refine hloop.isNormal_trim ?_ (fun s hs s' hs' hlook => ?_) (hg.allReached_enforcedLoop hc) hwords
    id ?_ fun hx => ?_
  · exact hg.keeps_enforcedLoop.isPart.alphabet_eq.trans (hg.alphabet_feedbackLoop.trans halphabet)
  · rw [seen_eq_of_mem_words hfull hc hs, hseen s' hs'] at hlook
    exact hlook ▸ hs'
  · exact Nat.lt_of_le_of_lt (IdentSet.size_le_of_subset fun _ => hg.enforcedLoop_subset)
      (hg.size_lt hfits)
  · exact beliefAfter_eq_of_seen_eq hloop.wellFormed hloop.isDeterministic hseen hx

end

/-- **Partial observation of everything is full observation**: if all events of the plant are
observable, both syntheses return the same candidates and the same closed loops, up to the names of
states. -/
theorem agrees_of_observable_eq {σ σ' : Type} {o : Observer σ} {o' : Observer σ'}
    (ho : o.NeverCancels) (ho' : o'.NeverCancels) (hplant : c.plant.WellFormed)
    (hspec : c.spec.WellFormed) (hcheck : c.toControlProblem.check = .ok ())
    (hfits : c.toControlProblem.Fits) (hfull : c.observable = c.plant.alphabet)
    (config config' : SynthesisConfig) :
    ReturnRenamed (Equiv.refl _) (o.watchChecked (c.toControlProblem.supremal config)).2
        (o'.watchChecked c.normal).2 ∧
      ReturnRenamed (Equiv.refl _) (o.watchChecked (c.toControlProblem.closedLoop config)).2
        (o'.watchChecked (c.normalClosedLoop config')).2 := by
  have hc := WellPosed.of_check hplant hspec hcheck
  have hcheck' : c.check = .ok () := check_eq_ok_iff.mpr ⟨hcheck, fun _ hev => hfull ▸ hev⟩
  -- both candidates are supremal, so they are the same up to names
  obtain ⟨label, hsup⟩ := supremal_supremalCandidate hc hfits config
  have halphabet := alphabet_supremalCandidate hc hfits config
  obtain ⟨label', hnormal, halphabet', hinjective⟩ := supremal_normalCandidate hfull hc hfits hsup
  obtain ⟨ρ, hρ, hplant⟩ := (IsRenamed.refl c.toControlProblem).exists_isRenamed hc hc hsup hnormal
    halphabet halphabet'
  have hloops := (IsRenamed.refl c.toControlProblem).enforcedLoop hsup hnormal hc hc hρ hplant
  have hapart := ClassesApart.of_injOn c.controllable
    hnormal.represents.wellFormed hinjective
  -- patterns do what recorded feedback does, as no two states look alike
  have hloop : c.enforcedLoop c.normalCandidate.value = c.toControlProblem.enforcedLoop
      c.normalCandidate.value.automaton c.normalCandidate.value.plantMarking := by
    rw [ObservedProblem.enforcedLoop, applyFeedback_restrictObserved
      (hnormal.represents.hasUniqueSuccessors hc) hapart hnormal.represents.wellFormed]
    exact hnormal.omegaTrim_feedbackLoop hc
  -- so the closed loop passes all tests, and it is no matter whether they are asked
  -- for
  have hverify : c.verifyClosedLoop (c.enforcedLoop c.normalCandidate.value) = .ok () := by
    rw [hloop, verifyClosedLoop, hnormal.verifyClosedLoop_enforcedLoop hc hfits,
      isNormal_enforcedLoop hfull hc hfits hnormal halphabet']
    rfl
  have hresult := result_normalClosedLoop hcheck' config'
  rw [hverify, ite_self] at hresult
  refine ⟨⟨_, _, ρ, (Checked.watchChecked_eq_result ho _).trans (result_supremal hcheck config),
      (Checked.watchChecked_eq_result ho' _).trans (result_normal hcheck'), hρ.setName _ _⟩,
    ⟨_, _, ρ, (Checked.watchChecked_eq_result ho _).trans (result_closedLoop hcheck config
        (hsup.verifyClosedLoop_enforcedLoop hc hfits)),
      (Checked.watchChecked_eq_result ho' _).trans hresult, ?_⟩⟩
  rw [hloop]
  exact hloops.setName _ _

/-- Of the machine, everything may be seen. -/
theorem agrees_of_observable_eq_machine :
    Observer.patient.NeverCancels ∧ machineProblem.plant.WellFormed ∧
      machineProblem.spec.WellFormed ∧ machineProblem.check = .ok () ∧ machineProblem.Fits ∧
      ReturnRenamed (Equiv.refl _) (Observer.patient.watchChecked (machineProblem.supremal {})).2
        (Observer.patient.watchChecked (ObservedProblem.normal
          { toControlProblem := machineProblem, observable := machineProblem.plant.alphabet })).2 ∧
      ReturnRenamed (Equiv.refl _) (Observer.patient.watchChecked (machineProblem.closedLoop {})).2
        (Observer.patient.watchChecked (ObservedProblem.normalClosedLoop
          { toControlProblem := machineProblem, observable := machineProblem.plant.alphabet }
          { verify := true })).2 :=
  ⟨Observer.neverCancels_patient, machine_wellFormed, repairedMachine_wellFormed,
    machineProblem_check, machineProblem_fits,
    agrees_of_observable_eq (c := { toControlProblem := machineProblem
                                    observable := machineProblem.plant.alphabet })
      Observer.neverCancels_patient Observer.neverCancels_patient machine_wellFormed
      repairedMachine_wellFormed machineProblem_check machineProblem_fits rfl {} { verify := true }⟩

end ObservedProblem

end OmegaControl
