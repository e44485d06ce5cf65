import OmegaControl.Proofs.Liveness.Feedback
import OmegaControl.Proofs.Restriction
import OmegaControl.Proofs.WellFormed

/-!
# The closed loop under the recorded feedback

Applying the feedback map takes away exactly the transitions on events that were
recorded to be disabled (`mem_transitions_closedLoop`). The numbers of the
certificate are then a progress measure of what is left (`exists_progressMeasure`),
and so marked states stay in reach and no cycle visits the plant marking without a
marked state.

Both operations, the one that only restricts and the one that also returns feedback,
leave the same states (`value_restrictToEnforceable`): they use different rules, but
both rules ask the same one-step question. So what is shown with the help of the
feedback holds of the states that `restrictToEnforceable` leaves as well.
-/

namespace OmegaControl

variable {g : Automaton} {controllable : EventSet} {plantMarking : StateSet}

namespace Certificate

variable {kept : StateSet} {record : DisableMap} {outer inner : StateId → ℕ}

/-- A transition that is not disabled does not lead out of the kept states, whether
it is wanted or only tolerated. -/
theorem target_mem_kept
    (h : Certificate g controllable plantMarking (kept.carrier ∩ g.marked.carrier) kept record
      outer inner) {t : Transition} (ht : t ∈ g.transitions) (hsource : t.source ∈ kept)
    (hev : t.event ∉ record[t.source]?.getD ∅) : t.target ∈ kept := by
  obtain ⟨d, hd, -, -, hstays⟩ := h.drives t.source hsource
  rw [hd] at hev
  rcases hstays t ht rfl hev with (hbase | hnear) | hfar
  · exact hbase.1
  · exact hnear.1
  · exact hfar.1

/-- The numbers of a certificate that starts from the marked states are a progress
measure of any automaton that has the same marked states and the transitions that
are not disabled. What the certificate drives a state to makes the measure advance,
and what it tolerates does not raise the outer number. -/
theorem progressMeasure
    (h : Certificate g controllable plantMarking (kept.carrier ∩ g.marked.carrier) kept record
      outer inner) {loop : Automaton} (hmarked : ∀ x ∈ kept, x ∈ loop.marked ↔ x ∈ g.marked)
    (htransitions : ∀ t, t ∈ loop.transitions ↔
      t ∈ g.transitions ∧ t.source ∈ kept ∧ t.event ∉ record[t.source]?.getD ∅) :
    loop.ProgressMeasure plantMarking kept.carrier outer inner where
  advances x hx := by
    obtain ⟨d, hd, -, ⟨t, ht, rfl, hev, htarget⟩, -⟩ := h.drives x hx
    have hloop : t ∈ loop.transitions := (htransitions t).mpr ⟨ht, hx, by rwa [hd]⟩
    -- the event that drives `x` is not disabled; it leads to a marked state or to a
    -- smaller rank
    refine ⟨t, hloop, rfl, ?_⟩
    rcases htarget with ⟨hkept, hmark⟩ | ⟨hkept, hlt | ⟨heq, hlt, -⟩⟩
    · exact ⟨hkept, .inl ((hmarked _ hkept).mpr hmark)⟩
    · exact ⟨hkept, .inr (.inl hlt)⟩
    · exact ⟨hkept, .inr (.inr ⟨heq, hlt⟩)⟩
  kept_target t ht hx := by
    obtain ⟨htg, -, hev⟩ := (htransitions t).mp ht
    exact h.target_mem_kept htg hx hev
  outer_le t ht hx hunmarked := by
    obtain ⟨htg, -, hev⟩ := (htransitions t).mp ht
    obtain ⟨d, hd, -, -, hstays⟩ := h.drives t.source hx
    rw [hd] at hev
    rcases hstays t htg rfl hev with (⟨hkept, hmark⟩ | ⟨hkept, hlt | ⟨heq, -⟩⟩) | ⟨hkept, hle, -⟩
    · exact absurd ((hmarked _ hkept).mpr hmark) hunmarked
    · exact hlt.le
    · exact heq.le
    · exact hle
  outer_lt t ht hx hunmarked hplant := by
    obtain ⟨htg, -, hev⟩ := (htransitions t).mp ht
    obtain ⟨d, hd, -, -, hstays⟩ := h.drives t.source hx
    rw [hd] at hev
    rcases hstays t htg rfl hev with (⟨hkept, hmark⟩ | ⟨hkept, hlt | ⟨-, -, hout⟩⟩) | ⟨-, -, hout⟩
    · exact absurd ((hmarked _ hkept).mpr hmark) hunmarked
    · exact hlt
    · exact absurd hplant hout
    · exact absurd hplant hout

end Certificate

/-! ## What the two operations return

From here on both are described by one pair, the states found with what was recorded
at them. -/

/-- The states that are found, with what was recorded to be disabled at them. What
the round and the level have recorded is dropped. -/
def foundWithRecords (g : Automaton) (controllable : EventSet) (plantMarking : StateSet) :
    StateSet × DisableMap :=
  let found := ((Rule.feedback g controllable).enforceable g plantMarking).value
  (found.1, found.2.total)

/-- The states that are found are the enforceable ones. -/
theorem carrier_foundWithRecords :
    (foundWithRecords g controllable plantMarking).1.carrier =
      g.enforceable controllable plantMarking :=
  Rule.carrier_enforceable Rule.feedback_resolves

/-- Both operations restrict to the enforceable states. -/
theorem value_restrictToEnforceable : (restrictToEnforceable g controllable plantMarking).value =
    g.restrictStates (foundWithRecords g controllable plantMarking).1 := by
  have hsame : ((Rule.restrict g controllable).enforceable g plantMarking).value.1 =
      (foundWithRecords g controllable plantMarking).1 := by
    refine IdentSet.carrier_injective ?_
    rw [carrier_foundWithRecords, Rule.carrier_enforceable Rule.restrict_resolves]
  rw [restrictToEnforceable, Watched.value_bind]
  exact congrArg g.restrictStates hsame

/-- What is enabled at a state of what is left: what it can do there and all that is
uncontrollable, but for what was recorded to be disabled. -/
def enabledBy (rest : Automaton) (controllable : EventSet) (record : DisableMap) (x : StateId) :
    EventSet :=
  (rest.activeEvents x ∪ (rest.alphabet \ controllable)) \ record[x]?.getD ∅

/-- What is left, and for each of its states what is enabled there. -/
theorem value_restrictWithFeedback :
    (restrictWithFeedback g controllable plantMarking).value =
      let found := foundWithRecords g controllable plantMarking
      let rest := g.restrictStates found.1
      (rest, .ofList (found.1.toList.map fun x => (x, enabledBy rest controllable found.2 x))) := by
  rw [restrictWithFeedback, Watched.value_bind]
  rfl

/-- The states that are left are the enforceable ones. -/
theorem states_restrictToEnforceable {x : StateId} :
    x ∈ (restrictToEnforceable g controllable plantMarking).value.states ↔
      x ∈ g.enforceable controllable plantMarking := by
  rw [value_restrictToEnforceable, Automaton.mem_states_restrictStates,
    ← carrier_foundWithRecords, IdentSet.mem_carrier]
  exact and_iff_right_of_imp fun hx =>
    g.enforceable_subset controllable plantMarking (carrier_foundWithRecords ▸ hx)

/-! ## The closed loop -/

section

variable (g : Automaton) (controllable : EventSet) (plantMarking : StateSet)

/-- What is left of the automaton, and the feedback map for it. -/
abbrev restricted : Automaton × FeedbackMap :=
  (restrictWithFeedback g controllable plantMarking).value

/-- What is left when the feedback map is applied, too. -/
abbrev closedLoop : Automaton :=
  applyFeedback (restricted g controllable plantMarking).1
    (restricted g controllable plantMarking).2

end

/-- What the feedback map says of a state. There is an entry for every state that
was found, and for no other one. -/
theorem getElem?_feedback {x : StateId} {enabled : EventSet} :
    (restricted g controllable plantMarking).2[x]? = some enabled ↔
      x ∈ (foundWithRecords g controllable plantMarking).1 ∧
        enabled = enabledBy (restricted g controllable plantMarking).1 controllable
          (foundWithRecords g controllable plantMarking).2 x := by
  have hnodup : (((foundWithRecords g controllable plantMarking).1.toList.map fun x =>
      (x, enabledBy (restricted g controllable plantMarking).1 controllable
        (foundWithRecords g controllable plantMarking).2 x)).map Prod.fst).Nodup := by
    rw [List.map_map]
    exact (List.map_id _).symm ▸ IdentSet.toList_nodup _
  have hfeedback : (restricted g controllable plantMarking).2 =
      .ofList ((foundWithRecords g controllable plantMarking).1.toList.map fun x =>
        (x, enabledBy (restricted g controllable plantMarking).1 controllable
          (foundWithRecords g controllable plantMarking).2 x)) := by
    rw [restricted, value_restrictWithFeedback]
  rw [hfeedback, getElem?_ofList_eq_some hnodup, List.mem_map]
  constructor
  · rintro ⟨y, hy, heq⟩
    obtain ⟨rfl, rfl⟩ := Prod.mk.inj heq
    exact ⟨IdentSet.mem_toList.mp hy, rfl⟩
  · rintro ⟨hx, rfl⟩
    exact ⟨x, IdentSet.mem_toList.mpr hx, rfl⟩

theorem restricted_fst : (restricted g controllable plantMarking).1 =
    g.restrictStates (foundWithRecords g controllable plantMarking).1 := by
  rw [restricted, value_restrictWithFeedback]

theorem restricted_isPart (hwf : g.WellFormed) :
    (restricted g controllable plantMarking).1.IsPart g :=
  restricted_fst ▸ hwf.isPart_restrictStates _

/-- Only states are found, so all that are found are left. -/
theorem states_restricted : (restricted g controllable plantMarking).1.states =
    (foundWithRecords g controllable plantMarking).1 := by
  ext x
  rw [restricted_fst, Automaton.mem_states_restrictStates]
  exact and_iff_right_of_imp fun hx =>
    g.enforceable_subset controllable plantMarking (carrier_foundWithRecords ▸ hx)

variable (controllable plantMarking) in
/-- What was recorded is a certificate for what is left. All that follows about the
closed loop comes from here. -/
theorem exists_certificate (hg : g.HasUniqueSuccessors) : ∃ outer inner,
    Certificate g controllable plantMarking
      ((restricted g controllable plantMarking).1.states.carrier ∩ g.marked.carrier)
      (restricted g controllable plantMarking).1.states
      (foundWithRecords g controllable plantMarking).2 outer inner := by
  rw [states_restricted]
  obtain ⟨outer, inner, bound, -, hcert⟩ :=
    Rule.feedback_certified controllable plantMarking hg
  exact ⟨outer, inner, hcert⟩

/-- Uncontrollable events are never recorded to be disabled: the certificate says so
of every state that is left. -/
theorem controllable_of_recorded (hg : g.HasUniqueSuccessors) {x : StateId} {ev : EventId}
    (hx : x ∈ (restricted g controllable plantMarking).1.states)
    (hev : ev ∈ (foundWithRecords g controllable plantMarking).2[x]?.getD ∅) :
    ev ∈ controllable := by
  obtain ⟨outer, inner, hcert⟩ := exists_certificate controllable plantMarking hg
  obtain ⟨d, hd, hsub, -⟩ := hcert.drives x hx
  rw [hd] at hev
  exact hsub ev hev

/-- The feedback map speaks of every state that is left, and enables every
uncontrollable event there. -/
theorem mem_feedback (hg : g.HasUniqueSuccessors) {x : StateId}
    (hx : x ∈ (restricted g controllable plantMarking).1.states) :
    ∃ enabled, (restricted g controllable plantMarking).2[x]? = some enabled ∧
      ∀ ev ∈ g.alphabet, ev ∉ controllable → ev ∈ enabled := by
  refine ⟨_, getElem?_feedback.mpr ⟨states_restricted ▸ hx, rfl⟩, fun ev hev hunc => ?_⟩
  refine IdentSet.mem_sdiff.mpr ⟨IdentSet.mem_union.mpr (.inr ?_), fun hrec => ?_⟩
  · rw [restricted_fst, Automaton.restrictStates, Automaton.alphabet_deleteStates]
    exact IdentSet.mem_sdiff.mpr ⟨hev, hunc⟩
  · exact hunc (controllable_of_recorded hg hx hrec)

/-- **The closed loop** has the transitions of the automaton from the states that
are left, except those on events that were recorded to be disabled. None of these
leads out of the states that are left, so restricting takes nothing more away. -/
theorem mem_transitions_closedLoop (hwf : g.WellFormed) (hg : g.HasUniqueSuccessors)
    {t : Transition} : t ∈ (closedLoop g controllable plantMarking).transitions ↔
      t ∈ g.transitions ∧ t.source ∈ (restricted g controllable plantMarking).1.states ∧
        t.event ∉ (foundWithRecords g controllable plantMarking).2[t.source]?.getD ∅ := by
  have hmem : t ∈ (closedLoop g controllable plantMarking).transitions ↔
      t ∈ (restricted g controllable plantMarking).1.transitions ∧
        ∃ enabled, (restricted g controllable plantMarking).2[t.source]? = some enabled ∧
          t.event ∈ enabled := by
    simp [closedLoop, applyFeedback, Automaton.retainTransitions, Std.ExtTreeSet.mem_filter,
      Option.any_eq_true, and_comm]
  rw [hmem]
  constructor
  · rintro ⟨ht, enabled, henabled, hev⟩
    obtain ⟨-, rfl⟩ := getElem?_feedback.mp henabled
    obtain ⟨htg, hsource, -⟩ := (restricted_isPart hwf).mem_transitions.mp ht
    exact ⟨htg, hsource, (IdentSet.mem_sdiff.mp hev).2⟩
  · rintro ⟨htg, hsource, hev⟩
    obtain ⟨outer, inner, hcert⟩ := exists_certificate controllable plantMarking hg
    have ht := (restricted_isPart hwf).mem_transitions.mpr
      ⟨htg, hsource, hcert.target_mem_kept htg hsource hev⟩
    refine ⟨ht, _, getElem?_feedback.mpr ⟨states_restricted ▸ hsource, rfl⟩, ?_⟩
    refine IdentSet.mem_sdiff.mpr ⟨IdentSet.mem_union.mpr (.inl ?_), hev⟩
    exact IdentSet.mem_ofList.mpr
      (List.mem_map.mpr ⟨t, Automaton.mem_transitionsFrom.mpr ⟨ht, rfl⟩, rfl⟩)

variable (controllable plantMarking) in
/-- **The feedback makes progress**: the closed loop has a progress measure on all
its states. -/
theorem exists_progressMeasure (hwf : g.WellFormed) (hg : g.HasUniqueSuccessors) :
    ∃ outer inner, (closedLoop g controllable plantMarking).ProgressMeasure plantMarking
      (restricted g controllable plantMarking).1.states.carrier outer inner := by
  obtain ⟨outer, inner, hcert⟩ := exists_certificate controllable plantMarking hg
  refine ⟨outer, inner, hcert.progressMeasure (fun x hx => ?_) fun t =>
    mem_transitions_closedLoop hwf hg⟩
  exact (restricted_isPart hwf).mem_marked.trans (and_iff_left hx)

/-- No uncontrollable transition leads out of the states that are left. -/
theorem target_mem_of_not_mem_controllable (hg : g.HasUniqueSuccessors) {t : Transition}
    (ht : t ∈ g.transitions) (hsource : t.source ∈ (restricted g controllable plantMarking).1.states)
    (hunc : t.event ∉ controllable) :
    t.target ∈ (restricted g controllable plantMarking).1.states := by
  obtain ⟨outer, inner, hcert⟩ := exists_certificate controllable plantMarking hg
  exact hcert.target_mem_kept ht hsource fun hrec =>
    hunc (controllable_of_recorded hg hsource hrec)

/-- **The feedback map is a winning memoryless supervisor.** It is given for the states that
`restrictToEnforceable` leaves. At each of them it enables every uncontrollable event, and
no uncontrollable transition leads out of them. In the closed loop a marked state can be
reached from each of them in at least one step, and no cycle visits the plant marking
without a marked state. -/
theorem feedback_winning {σ : Type} {o : Observer σ} (ho : o.NeverCancels) (hwf : g.WellFormed)
    (hg : g.HasUniqueSuccessors) :
    ∃ rest feedback,
      (o.watch (restrictWithFeedback g controllable plantMarking)).2 = .ok (rest, feedback) ∧
      (o.watch (restrictToEnforceable g controllable plantMarking)).2 = .ok rest ∧
      ∀ x ∈ rest.states,
        (∃ enabled, feedback[x]? = some enabled ∧
          ∀ ev ∈ g.alphabet, ev ∉ controllable → ev ∈ enabled) ∧
        (∀ t ∈ g.transitions, t.source = x → t.event ∉ controllable → t.target ∈ rest.states) ∧
        (∃ ts, ts ≠ [] ∧ (applyFeedback rest feedback).IsPath x ts ∧
          endOf x ts ∈ (applyFeedback rest feedback).marked) ∧
        ∀ ts, (applyFeedback rest feedback).IsPath x ts → endOf x ts = x →
          (∃ t ∈ ts, t.target ∈ plantMarking) →
          ∃ t ∈ ts, t.target ∈ (applyFeedback rest feedback).marked := by
  refine ⟨_, _, Observer.watch_eq_value ho _, ?_, fun x hx => ?_⟩
  · rw [Observer.watch_eq_value ho, value_restrictToEnforceable, ← restricted_fst]
  · obtain ⟨outer, inner, hmeasure⟩ := exists_progressMeasure controllable plantMarking hwf hg
    refine ⟨mem_feedback hg hx, ?_, hmeasure.marked_ahead hx, ?_⟩
    · rintro t ht rfl hunc
      exact target_mem_of_not_mem_controllable hg ht hx hunc
    · exact fun ts hts hcycle hplant => hmeasure.marked_of_cycle hx hts hcycle hplant

/-- The machine may be started again after a failure, but not over and over again:
each start visits the plant marking, so the machine has to finish or to be repaired
between them. -/
theorem feedback_winning_machine :
    Observer.patient.NeverCancels ∧ Automaton.machine.WellFormed ∧
      Automaton.machine.HasUniqueSuccessors ∧ ∃ rest feedback,
      (Observer.patient.watch (restrictWithFeedback Automaton.machine (.ofList [⟨1⟩, ⟨4⟩])
        (.singleton ⟨2⟩))).2 = .ok (rest, feedback) ∧
      (Observer.patient.watch (restrictToEnforceable Automaton.machine (.ofList [⟨1⟩, ⟨4⟩])
        (.singleton ⟨2⟩))).2 = .ok rest ∧
      ∀ x ∈ rest.states,
        (∃ enabled, feedback[x]? = some enabled ∧ ∀ ev ∈ Automaton.machine.alphabet,
          ev ∉ (.ofList [⟨1⟩, ⟨4⟩] : EventSet) → ev ∈ enabled) ∧
        (∀ t ∈ Automaton.machine.transitions, t.source = x →
          t.event ∉ (.ofList [⟨1⟩, ⟨4⟩] : EventSet) → t.target ∈ rest.states) ∧
        (∃ ts, ts ≠ [] ∧ (applyFeedback rest feedback).IsPath x ts ∧
          endOf x ts ∈ (applyFeedback rest feedback).marked) ∧
        ∀ ts, (applyFeedback rest feedback).IsPath x ts → endOf x ts = x →
          (∃ t ∈ ts, t.target ∈ (.singleton ⟨2⟩ : StateSet)) →
          ∃ t ∈ ts, t.target ∈ (applyFeedback rest feedback).marked :=
  ⟨Observer.neverCancels_patient, Automaton.machine_wellFormed,
    Automaton.machine_isDeterministic.hasUniqueSuccessors,
    feedback_winning Observer.neverCancels_patient Automaton.machine_wellFormed
      Automaton.machine_isDeterministic.hasUniqueSuccessors⟩

end OmegaControl
