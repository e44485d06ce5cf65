import OmegaControl.Proofs.Liveness.Enforceable
import OmegaControl.Proofs.Liveness.Patterns

/-!
# Rules that find enforceable states only

A rule may answer the one-step question with fewer states than can be driven into
the target, and give different answers as its records change. The loops then compute
no fixpoint. But they start from nothing where a set grows, and go on until nothing
is taken away where it shrinks, so what they find is within the fixpoints that they
approximate (`Rule.Cautious.subset_enforceable`).

The lemmas go from the innermost loop to the outermost, and each says of one loop
that it stays within the function which the loop iterates. What holds of the records
(`R`) is carried along, since that is what the one-step answer may depend on.

The patterns of observation classes are such a rule, since they disable controllable
events only (`Rule.cautious_observed`). Nothing is asked of the classes for that.
-/

namespace OmegaControl

/-! ## Approximate iteration
 -/

section

variable {σ : Type} {step : StateSet → Recorded σ StateSet} {F : Set StateId →o Set StateId}
  {R : σ → Prop}

/-- Growing from nothing by less than a function adds stays within its least
fixpoint. It does not matter where the loop stops. -/
theorem ascend_subset_lfp {full : ℕ}
    (hstep : ∀ s r t r', R r → (step s).outcome r = (t, r') → t.carrier ⊆ F s.carrier ∧ R r')
    {r : σ} (h : R r) : ((ascend full step ∅).outcome r).1.carrier ⊆ F.lfp ∧
      R ((ascend full step ∅).outcome r).2 := by
  refine ascend_induction (I := fun s r => s.carrier ⊆ F.lfp ∧ R r)
    (Q := fun s r => s.carrier ⊆ F.lfp ∧ R r) ?_ ⟨by simp, h⟩
  rintro s r t r' ⟨hs, hR⟩ hout
  obtain ⟨ht, hR⟩ := hstep s r t r' hR hout
  have hle : (s ∪ t).carrier ⊆ F.lfp := by
    rw [IdentSet.carrier_union]
    exact Set.union_subset hs (ht.trans (F.map_le_lfp hs))
  exact ⟨⟨hle, hR⟩, fun _ => ⟨hle, hR⟩⟩

variable (step) in
/-- Shrinking until nothing is taken away, by more than a function takes, ends
within its greatest fixpoint: at the end the set is within its own image, or there
is nothing left. -/
theorem descend_subset_gfp
    (hstep : ∀ s r t r', R r → (step s).outcome r = (t, r') → t.carrier ⊆ F s.carrier ∧ R r')
    {s : StateSet} {r : σ} (h : R r) : ((descend step s).outcome r).1.carrier ⊆ F.gfp ∧
      R ((descend step s).outcome r).2 := by
  refine descend_induction _ (I := fun _ r => R r) (Q := fun s r => s.carrier ⊆ F.gfp ∧ R r) ?_ h
  intro s r t r' hR hout
  obtain ⟨ht, hR⟩ := hstep s r t r' hR hout
  refine ⟨hR, fun hstop => ⟨?_, hR⟩⟩
  rcases hstop with hst | hempty
  · -- nothing was taken away, so the set is within what the function makes of it
    rw [IdentSet.carrier_inter, Set.inter_eq_left.mpr hst]
    exact F.le_gfp (hst.trans ht)
  · rw [hempty]
    exact Set.empty_subset _

end

/-! ## The loops of a cautious rule
 -/

namespace Rule

variable {σ : Type}

/-- As long as its records are as they should be, the rule finds only states that can be
driven into the target, and keeps its records so. -/
structure Cautious (rule : Rule σ) (g : Automaton) (controllable : EventSet) (R : σ → Prop) :
    Prop where
  start : R rule.start
  resolve : ∀ target domain s, R s → (rule.resolve target domain s).1.carrier ⊆
    g.drivable controllable target.carrier domain.carrier ∧ R (rule.resolve target domain s).2
  beginRound : ∀ s, R s → R (rule.beginRound s)
  endRound : ∀ s, R s → R (rule.endRound s)
  beginLevel : ∀ s, R s → R (rule.beginLevel s)
  endLevel : ∀ s, R s → R (rule.endLevel s)

namespace Cautious

variable {rule : Rule σ} {g : Automaton} {controllable : EventSet} {R : σ → Prop}
  {plantMarking : StateSet} {s : σ} (h : rule.Cautious g controllable R)
include h

/-- The innermost loop stays within what its target attracts. -/
theorem attract_subset (target domain : StateSet) (hs : R s) :
    ((rule.attract g plantMarking target domain).outcome s).1.carrier ⊆
        g.stayStep controllable plantMarking target.carrier domain.carrier ∧
      R ((rule.attract g plantMarking target domain).outcome s).2 := by
  refine ascend_subset_lfp
    (F := g.attractStep controllable plantMarking target.carrier domain.carrier) ?_ hs
  intro near r t r' hr hout
  obtain ⟨rfl, rfl⟩ := Prod.mk.inj hout
  have hresolve := h.resolve (target ∪ (near \ plantMarking)) (domain \ plantMarking) r hr
  rw [IdentSet.carrier_union, IdentSet.carrier_sdiff, IdentSet.carrier_sdiff] at hresolve
  exact hresolve

/-- The fourth loop stays within the greatest domain for the target. -/
theorem stay_subset (plantMarking : StateSet) (resolved target : StateSet) (hs : R s) :
    ((rule.stay g plantMarking resolved target).outcome s).1.carrier ⊆
        (g.stayStep controllable plantMarking target.carrier).gfp ∧
      R ((rule.stay g plantMarking resolved target).outcome s).2 := by
  have hloop := descend_subset_gfp (fun domain => do
      Watched.checkpoint .fixpoint resolved.size g.size
      modify rule.beginRound
      rule.attract g plantMarking target domain)
    (F := g.stayStep controllable plantMarking target.carrier) (R := R) (s := g.states) ?_ hs
  · simp only [stay, Recorded.outcome_bind, Recorded.outcome_modify, Recorded.outcome_pure]
    exact ⟨hloop.1, h.endRound _ hloop.2⟩
  · intro domain r t r' hr hout
    simp only [Recorded.outcome_bind, Recorded.outcome_lift, Recorded.outcome_modify] at hout
    obtain ⟨rfl, rfl⟩ := Prod.mk.inj hout
    exact h.attract_subset target domain (h.beginRound r hr)

/-- The third loop stays within what approaches the target. -/
theorem approach_subset (plantMarking : StateSet) (resolved target : StateSet) (hs : R s) :
    ((rule.approach g plantMarking resolved target).outcome s).1.carrier ⊆
        (g.approachStep controllable plantMarking target.carrier).lfp ∧
      R ((rule.approach g plantMarking resolved target).outcome s).2 := by
  refine ascend_subset_lfp ?_ hs
  intro near r t r' hr hout
  have hstay := h.stay_subset plantMarking resolved (target ∪ near) hr
  rw [hout, IdentSet.carrier_union] at hstay
  exact hstay

/-- The second loop stays within what the outermost one would resolve. -/
theorem recur_subset (plantMarking : StateSet) (resolved : StateSet) (hs : R s) :
    ((rule.recur g plantMarking resolved).outcome s).1.carrier ⊆
        g.resolveStep controllable plantMarking resolved.carrier ∧
      R ((rule.recur g plantMarking resolved).outcome s).2 := by
  have hloop := descend_subset_gfp (fun states => do
      modify rule.beginLevel
      rule.approach g plantMarking resolved ((states ∩ g.marked) ∪ resolved))
    (F := g.recurStep controllable plantMarking resolved.carrier) (R := R) (s := g.states) ?_ hs
  · simp only [recur, Recorded.outcome_bind, Recorded.outcome_modify, Recorded.outcome_pure]
    exact ⟨hloop.1, h.endLevel _ hloop.2⟩
  · intro states r t r' hr hout
    simp only [Recorded.outcome_bind, Recorded.outcome_modify] at hout
    have happroach := h.approach_subset plantMarking resolved
      ((states ∩ g.marked) ∪ resolved) (h.beginLevel r hr)
    rw [hout, IdentSet.carrier_union, IdentSet.carrier_inter] at happroach
    exact happroach

/-- **What a cautious rule finds** is enforceable. -/
theorem subset_enforceable : (rule.enforceable g plantMarking).value.1.carrier ⊆
    g.enforceable controllable plantMarking := by
  refine (ascend_subset_lfp (R := R) ?_ h.start).1
  intro resolved r t r' hr hout
  have hrecur := h.recur_subset plantMarking resolved hr
  rw [hout] at hrecur
  exact hrecur

end Cautious

/-! ## Patterns
 -/

/-- The patterns disable controllable events only. -/
def PatternsWithin (controllable : EventSet) (m : ClassPatterns) : Prop :=
  ∀ (c : ObservationClass) (ev : EventId),
    ev ∈ (m[c]?.getD (∅ : ControlPattern)).disableAll → ev ∈ controllable

/-- Joined patterns disable nothing that neither of them disables. -/
theorem PatternsWithin.join {controllable : EventSet} {older newer : ClassPatterns}
    (ho : PatternsWithin controllable older) (hn : PatternsWithin controllable newer) :
    PatternsWithin controllable (older.join newer) := fun c ev hev =>
  (ClassPatterns.mem_disableAll_getElem?_join.mp hev).elim (ho c ev) (hn c ev)

theorem patternsWithin_empty {controllable : EventSet} : PatternsWithin controllable ∅ := by
  intro c ev hev
  rw [Std.ExtTreeMap.getElem?_empty] at hev
  exact absurd hev ControlPattern.not_mem_disableAll_empty

/-- The candidates for the classes are within the controllable events, too. What
states ask for is controllable, and what has been promised was asked for before. -/
theorem patternsWithin_candidatePatterns {g : Automaton} {controllable : EventSet}
    {classes : ObserverMap} {target domain : StateSet} {s : Records ClassPatterns}
    (hround : PatternsWithin controllable s.round) (hlevel : PatternsWithin controllable s.level)
    (htotal : PatternsWithin controllable s.total) : PatternsWithin controllable
      (candidatePatterns g.rows controllable classes target domain s) := by
  intro c ev hev
  rw [getElem?_candidatePatterns] at hev
  split at hev
  next => exact absurd hev ControlPattern.not_mem_disableAll_empty
  next =>
    rcases ControlPattern.mem_disableAll_joinAsked.mp hev with hev | ⟨a, ha, hev⟩
    · simp only [Records.committed, ControlPattern.mem_disableAll_join] at hev
      rcases hev with hev | hev | hev
      · exact hround c ev hev
      · exact hlevel c ev hev
      · exact htotal c ev hev
    · obtain ⟨x, -, -, hasked⟩ := mem_askedBy_rows.mp ha
      exact askedOf_subset hasked (fun _ h => absurd h IdentSet.not_mem_empty) ev hev

/-- **Patterns are cautious**, whatever the classes are: they disable controllable
events only. The candidates ask for nothing else, joining them adds up what they
disable, and the ones that conflict are left out. -/
theorem cautious_observed (g : Automaton) (controllable : EventSet) (classes : ObserverMap) :
    (Rule.observed g controllable classes).Cautious g controllable fun s =>
      PatternsWithin controllable s.round ∧ PatternsWithin controllable s.level ∧
        PatternsWithin controllable s.total where
  start := ⟨patternsWithin_empty, patternsWithin_empty, patternsWithin_empty⟩
  beginRound _ h := ⟨patternsWithin_empty, h.2⟩
  endRound _ h := ⟨h.1, h.2.1.join h.1, h.2.2⟩
  beginLevel _ h := ⟨h.1, patternsWithin_empty, h.2.2⟩
  endLevel _ h := ⟨h.1, h.2.1, h.2.2.join h.2.1⟩
  resolve target domain s h := by
    obtain ⟨hround, hlevel, htotal⟩ := h
    have hcandidates : PatternsWithin controllable
        (candidatePatterns g.rows controllable classes target domain s) :=
      patternsWithin_candidatePatterns hround hlevel htotal
    -- rejecting conflicting candidates leaves patterns out, so nothing else is
    -- disabled
    have hfiltered : PatternsWithin controllable
        ((candidatePatterns g.rows controllable classes target domain s).filter
          fun _ p => !p.isConflicting) := by
      intro c ev hev
      refine hcandidates c ev ?_
      rw [Std.ExtTreeMap.getElem?_filter'] at hev
      cases h : (candidatePatterns g.rows controllable classes target domain s)[c]? with
      | none =>
        rw [h] at hev
        exact hev
      | some p =>
        rw [h, Option.filter_some] at hev
        split at hev
        · exact hev
        · exact absurd hev ControlPattern.not_mem_disableAll_empty
    have hjoined := hround.join hfiltered
    refine ⟨?_, hjoined, hlevel, htotal⟩
    intro x hx
    -- a state that is found enters the target under a pattern, which disables
    -- controllable events only
    obtain ⟨hx, htest⟩ := mem_observed_resolve.mp hx
    obtain ⟨p, hp, henters⟩ := (Option.any_eq_true _ _).mp htest
    refine mem_drivable_of_entersUnder hx henters fun ev hev => ?_
    have hwithin := hjoined (ObservationClass.of classes x) ev
    have hround : (s.round.join ((candidatePatterns g.rows controllable classes target domain
        s).filter fun _ p => !p.isConflicting))[ObservationClass.of classes x]? = some p := hp
    rw [hround] at hwithin
    exact hwithin hev

end Rule

end OmegaControl
