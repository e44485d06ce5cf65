import OmegaControl.Proofs.Liveness.ObservedRefinement
import OmegaControl.Proofs.Liveness.Points

/-!
# Patterns are commitments

What has been promised to a class is never taken back in a way that breaks the
promise. At every point of a run, the patterns of the round, of the level and those
kept for good disable controllable events only and are not conflicting, and the
pattern of a class in the round asks for all that its other two ask for
(`Consistent`, `Rule.keeps_observed`). A candidate starts from all three, so it asks
for at least as much; if it is not conflicting it becomes the pattern of the round,
and the patterns of the loops around only ever change to it.

The proof has the form that all facts about the records have here: what holds of
blank records, and is kept by each of the calls that the loops make, holds at every
point of a run (`Rule.Keeps`).

All of this is said class by class, so it also holds while patterns are joined one
class after the other. In the end each state that is left keeps all uncontrollable
events, and one event of every set that has been promised to its class
(`restrictObserved_keeps_promises`).
-/

namespace OmegaControl

namespace ControlPattern

variable {p q r : ControlPattern} {alphabet controllable : EventSet}

/-! ## Patterns that ask for more
 -/

/-- `q` asks for all that `p` asks for. -/
structure IsWithin (p q : ControlPattern) : Prop where
  disableAll : p.disableAll ⊆ q.disableAll
  enableOne : ∀ events ∈ p.enableOne, events ∈ q.enableOne

theorem IsWithin.refl (p : ControlPattern) : p.IsWithin p := ⟨fun _ h => h, fun _ h => h⟩

/-- Asking for more and more. -/
theorem IsWithin.trans (hpq : p.IsWithin q) (hqr : q.IsWithin r) : p.IsWithin r :=
  ⟨fun ev h => hqr.disableAll ev (hpq.disableAll ev h),
    fun events h => hqr.enableOne events (hpq.enableOne events h)⟩

theorem empty_isWithin (p : ControlPattern) : IsWithin ∅ p :=
  ⟨fun _ h => absurd h not_mem_disableAll_empty, fun _ h => absurd h not_mem_enableOne_empty⟩

/-- Joining takes nothing back of what was asked for. -/
theorem isWithin_join_left (p q : ControlPattern) : p.IsWithin (p.join q) :=
  ⟨fun _ h => mem_disableAll_join.mpr (.inl h), fun _ h => mem_enableOne_join.mpr (.inl h)⟩

theorem isWithin_join_right (p q : ControlPattern) : q.IsWithin (p.join q) :=
  ⟨fun _ h => mem_disableAll_join.mpr (.inr h), fun _ h => mem_enableOne_join.mpr (.inr h)⟩

/-- Nothing is added to a pattern that asks for all already. So where promises are
kept, joining is replacing. -/
theorem IsWithin.join_eq (h : p.IsWithin q) : p.join q = q := by
  have hdisable : (p.join q).disableAll = q.disableAll := IdentSet.ext fun ev =>
    mem_disableAll_join.trans (or_iff_right_of_imp (h.disableAll ev))
  have henable : (p.join q).enableOne = q.enableOne := Std.ExtTreeSet.ext_mem fun events =>
    mem_enableOne_join.trans (or_iff_right_of_imp (h.enableOne events))
  exact congrArg₂ ControlPattern.mk hdisable henable

/-! ## Patterns that can be carried out
 -/

/-- The pattern disables controllable events only, and asks for events of an alphabet. -/
structure IsBounded (alphabet controllable : EventSet) (p : ControlPattern) : Prop where
  disableAll_subset : p.disableAll ⊆ controllable
  enableOne_subset : ∀ events ∈ p.enableOne, events ⊆ alphabet

theorem isBounded_empty : IsBounded alphabet controllable ∅ :=
  ⟨fun _ h => absurd h not_mem_disableAll_empty, fun _ h => absurd h not_mem_enableOne_empty⟩

/-- Joining keeps bounds. It need not keep patterns from conflicting. -/
theorem IsBounded.join (hp : p.IsBounded alphabet controllable)
    (hq : q.IsBounded alphabet controllable) : (p.join q).IsBounded alphabet controllable :=
  ⟨fun ev h => (mem_disableAll_join.mp h).elim (hp.disableAll_subset ev) (hq.disableAll_subset ev),
    fun events h => (mem_enableOne_join.mp h).elim (hp.enableOne_subset events)
      (hq.enableOne_subset events)⟩

/-- Moreover it is not conflicting. Then a supervisor can do what it asks for. -/
structure IsFeasible (alphabet controllable : EventSet) (p : ControlPattern) : Prop
    extends p.IsBounded alphabet controllable where
  not_isConflicting : p.isConflicting = false

/-- One event of each set that is asked for is not disabled. -/
theorem IsFeasible.exists_enabled (hp : p.IsFeasible alphabet controllable) {events : EventSet}
    (hevents : events ∈ p.enableOne) : ∃ ev ∈ events, ev ∈ alphabet ∧ ev ∉ p.disableAll := by
  have hnot : ¬events ⊆ p.disableAll := fun hsub => Bool.eq_false_iff.mp hp.not_isConflicting
    (isConflicting_iff.mpr ⟨events, hevents, hsub⟩)
  by_contra hnone
  refine hnot fun ev hev => Classical.not_not.mp fun hout => hnone ⟨ev, hev, ?_, hout⟩
  exact hp.enableOne_subset events hevents ev hev

end ControlPattern

/-- A class gets the newer pattern, if there is one, provided that it asks for all that the older
one asks for. -/
theorem ClassPatterns.getElem?_join_of_isWithin {older newer : ClassPatterns} {c : ObservationClass}
    (h : ∀ p, newer[c]? = some p → (older[c]?.getD ∅).IsWithin p) :
    (older.join newer)[c]? = newer[c]?.or older[c]? := by
  rw [getElem?_join]
  cases hnewer : newer[c]? with
  | none => rfl
  | some p => exact congrArg some (h p hnewer).join_eq

/-! ## Records that are consistent
 -/

/-- The patterns can be carried out; that of the round asks for all that those of the level and in
total ask for, and that of the level for all that those in total ask for. -/
structure Consistent (alphabet controllable : EventSet) (s : Records ClassPatterns) : Prop where
  round : ∀ {c : ObservationClass} {p : ControlPattern}, s.round[c]? = some p →
    p.IsFeasible alphabet controllable ∧
      ControlPattern.IsWithin (s.level[c]?.getD ∅) p ∧ ControlPattern.IsWithin (s.total[c]?.getD ∅) p
  level : ∀ {c : ObservationClass} {p : ControlPattern}, s.level[c]? = some p →
    p.IsFeasible alphabet controllable ∧ ControlPattern.IsWithin (s.total[c]?.getD ∅) p
  total : ∀ {c : ObservationClass} {p : ControlPattern}, s.total[c]? = some p →
    p.IsFeasible alphabet controllable

namespace Consistent

variable {alphabet controllable : EventSet} {s : Records ClassPatterns} {c : ObservationClass}
  {p : ControlPattern}

/-- Nothing has been promised. -/
theorem blank : Consistent alphabet controllable ⟨∅, ∅, ∅⟩ where
  round h := by simp at h
  level h := by simp at h
  total h := by simp at h

variable (hs : Consistent alphabet controllable s)
include hs

/-- What has been promised to a class is within bounds. It is asked for at three
places, and their join is what a candidate starts from. -/
theorem isBounded_committed (c : ObservationClass) :
    (s.committed c).IsBounded alphabet controllable := by
  have hgetD : ∀ {o : Option ControlPattern},
      (∀ {p}, o = some p → p.IsFeasible alphabet controllable) →
        (o.getD ∅).IsBounded alphabet controllable := fun {o} h => by
    cases o with
    | none => exact ControlPattern.isBounded_empty
    | some p => exact (h rfl).toIsBounded
  exact (hgetD fun h => (hs.round h).1).join
    ((hgetD fun h => (hs.level h).1).join (hgetD fun h => hs.total h))

/-- A new round starts without patterns of its own. -/
theorem beginRound : Consistent alphabet controllable { s with round := ∅ } :=
  { hs with round := fun h => by simp at h }

/-- So does a new level. -/
theorem beginLevel : Consistent alphabet controllable { s with level := ∅ } where
  round h := ⟨(hs.round h).1, by simpa using ControlPattern.empty_isWithin _, (hs.round h).2.2⟩
  level h := by simp at h
  total := hs.total

/-- The patterns of the level become those of the round. A class without a pattern
in the round keeps the one of the level. -/
theorem endRound : Consistent alphabet controllable
    { s with level := ClassPatterns.join s.level s.round } := by
  have hlevel : ∀ c : ObservationClass,
      (ClassPatterns.join s.level s.round)[c]? = s.round[c]?.or s.level[c]? := fun c =>
    ClassPatterns.getElem?_join_of_isWithin fun p hp => (hs.round hp).2.1
  refine ⟨fun {c p} hp => ?_, fun {c p} hp => ?_, hs.total⟩
  · obtain ⟨hfeasible, -, htotal⟩ := hs.round hp
    refine ⟨hfeasible, ?_, htotal⟩
    rw [hlevel, hp]
    exact .refl p
  · rw [hlevel] at hp
    rcases Option.or_eq_some_iff.mp hp with hp | ⟨-, hp⟩
    · exact ⟨(hs.round hp).1, (hs.round hp).2.2⟩
    · exact hs.level hp

/-- The patterns in total become those of the level. The pattern of a class in the
level contains what it had in total, so joining the two adds nothing that could
conflict. -/
theorem endLevel : Consistent alphabet controllable
    { s with total := ClassPatterns.join s.total s.level } := by
  have htotal : ∀ c : ObservationClass,
      (ClassPatterns.join s.total s.level)[c]? = s.level[c]?.or s.total[c]? := fun c =>
    ClassPatterns.getElem?_join_of_isWithin fun p hp => (hs.level hp).2
  refine ⟨fun {c p} hp => ?_, fun {c p} hp => ?_, fun {c p} hp => ?_⟩
  · obtain ⟨hfeasible, hlevel, hold⟩ := hs.round hp
    refine ⟨hfeasible, hlevel, ?_⟩
    rw [htotal]
    cases hq : s.level[c]? with
    | none => exact hold
    | some q => simpa [hq] using hlevel
  · refine ⟨(hs.level hp).1, ?_⟩
    rw [htotal, hp]
    exact .refl p
  · rw [htotal] at hp
    rcases Option.or_eq_some_iff.mp hp with hp | ⟨-, hp⟩
    · exact (hs.level hp).1
    · exact hs.total hp

/-- **The patterns of the round** become those candidates that are not conflicting.
A class whose candidate is conflicting keeps its pattern, and whoever asked for more
is not found. -/
theorem resolve {candidates : ClassPatterns}
    (hcandidates : ∀ {c : ObservationClass} {p : ControlPattern}, candidates[c]? = some p →
      p.IsBounded alphabet controllable ∧ (s.committed c).IsWithin p) :
    Consistent alphabet controllable
      { s with round := ClassPatterns.join s.round (candidates.filter fun _ p => !p.isConflicting) } := by
  have haccepted : ∀ {c : ObservationClass} {p : ControlPattern},
      (candidates.filter fun _ p => !p.isConflicting)[c]? = some p →
      p.IsFeasible alphabet controllable ∧ (s.committed c).IsWithin p := fun {c p} hp => by
    rw [Std.ExtTreeMap.getElem?_filter', Option.filter_eq_some_iff] at hp
    obtain ⟨hp, hfree⟩ := hp
    obtain ⟨hbounded, hwithin⟩ := hcandidates hp
    exact ⟨⟨hbounded, by simpa using hfree⟩, hwithin⟩
  have hround : ∀ c : ObservationClass,
      (ClassPatterns.join s.round (candidates.filter fun _ p => !p.isConflicting))[c]? =
        (candidates.filter fun _ p => !p.isConflicting)[c]?.or s.round[c]? := fun c =>
    ClassPatterns.getElem?_join_of_isWithin fun p hp =>
      (ControlPattern.isWithin_join_left _ _).trans (haccepted hp).2
  refine ⟨fun {c p} hp => ?_, hs.level, hs.total⟩
  rw [hround] at hp
  rcases Option.or_eq_some_iff.mp hp with hp | ⟨-, hp⟩
  · obtain ⟨hfeasible, hwithin⟩ := haccepted hp
    have hrest := (ControlPattern.isWithin_join_right _ _).trans hwithin
    exact ⟨hfeasible, (ControlPattern.isWithin_join_left _ _).trans hrest,
      (ControlPattern.isWithin_join_right _ _).trans hrest⟩
  · exact hs.round hp

end Consistent

/-! ## The rule keeps its records consistent
 -/

section

variable {g : Automaton} {controllable : EventSet} {classes : ObserverMap}
  {target domain : StateSet}

/-- A state asks for events on which transitions leave it. -/
theorem askedOf_subset_alphabet {alphabet disable enable d e : EventSet} {ts : List Transition}
    (h : askedOf controllable target domain disable enable ts = some (d, e))
    (henable : enable ⊆ alphabet) (hts : ∀ t ∈ ts, t.event ∈ alphabet) : e ⊆ alphabet := by
  fun_induction askedOf controllable target domain disable enable ts with
  | case1 => cases h
  | case2 => exact (Prod.mk.inj (Option.some.inj h)).2 ▸ henable
  | case3 _ _ t ts _ ih => exact ih h henable fun u hu => hts u (List.mem_cons_of_mem t hu)
  | case4 disable enable t ts _ _ ih =>
    refine ih h (fun ev hmem => ?_) fun u hu => hts u (List.mem_cons_of_mem t hu)
    rcases IdentSet.mem_insert.mp hmem with rfl | hmem
    · exact hts t List.mem_cons_self
    · exact henable ev hmem
  | case5 _ _ t ts _ _ _ ih => exact ih h henable fun u hu => hts u (List.mem_cons_of_mem t hu)
  | case6 => cases h
  | case7 _ _ t ts _ _ _ _ ih => exact ih h henable fun u hu => hts u (List.mem_cons_of_mem t hu)

/-- A candidate asks for all that has been promised to its class, and stays within
bounds. It may be conflicting, which is why it is only a candidate. -/
theorem Consistent.candidate (hg : g.WellFormed) {s : Records ClassPatterns}
    (hs : Consistent g.alphabet controllable s) {c : ObservationClass} {p : ControlPattern}
    (hp : (candidatePatterns g.rows controllable classes target domain s)[c]? = some p) :
    p.IsBounded g.alphabet controllable ∧ (s.committed c).IsWithin p := by
  rw [getElem?_candidatePatterns] at hp
  obtain rfl := Option.some.inj (Option.ite_none_left_eq_some.mp hp).2
  have hcommitted := hs.isBounded_committed c
  refine ⟨⟨fun ev hev => ?_, fun events hevents => ?_⟩, fun ev hev => ?_, fun events hevents => ?_⟩
  · rcases ControlPattern.mem_disableAll_joinAsked.mp hev with hev | ⟨a, ha, hev⟩
    · exact hcommitted.disableAll_subset ev hev
    · obtain ⟨x, -, -, hasked⟩ := mem_askedBy_rows.mp ha
      exact askedOf_subset hasked (fun _ h => absurd h IdentSet.not_mem_empty) ev hev
  · rcases ControlPattern.mem_enableOne_joinAsked.mp hevents with hevents | ⟨a, ha, rfl⟩
    · exact hcommitted.enableOne_subset events hevents
    · obtain ⟨x, -, -, hasked⟩ := mem_askedBy_rows.mp ha
      refine askedOf_subset_alphabet hasked (fun _ h => absurd h IdentSet.not_mem_empty) ?_
      exact fun t ht => hg.event_mem t (Automaton.mem_transitionsFrom.mp ht).1
  · exact ControlPattern.mem_disableAll_joinAsked.mpr (.inl hev)
  · exact ControlPattern.mem_enableOne_joinAsked.mpr (.inl hevents)

/-- **Every call of the rule** keeps its records consistent. -/
theorem Rule.keeps_observed (hg : g.WellFormed) (controllable : EventSet) (classes : ObserverMap) :
    (Rule.observed g controllable classes).Keeps (Consistent g.alphabet controllable) where
  start := .blank
  resolve _ _ _ hs := hs.resolve fun hp => hs.candidate hg hp
  beginRound _ hs := hs.beginRound
  endRound _ hs := hs.endRound
  beginLevel _ hs := hs.beginLevel
  endLevel _ hs := hs.endLevel

end

/-! ## The feedback
 -/

section

variable {g : Automaton} {controllable : EventSet} {plantMarking : StateSet} {classes : ObserverMap}

/-- Something is said about the states that are left, and about no others. -/
theorem mem_feedback_restrictObserved {x : StateId} :
    x ∈ (restrictObserved g controllable plantMarking classes).value.2 ↔
      x ∈ (restrictObserved g controllable plantMarking classes).value.1.states := by
  have hmem : x ∈ (restrictObserved g controllable plantMarking classes).value.2 ↔
      x ∈ observedStates g controllable plantMarking classes := by
    rw [Std.ExtTreeMap.mem_iff_isSome_getElem?, Option.isSome_iff_exists]
    simp only [getElem?_restrictObserved, exists_and_left, exists_eq, and_true]
  rw [hmem, value_restrictObserved, Automaton.mem_states_restrictStates]
  refine (and_iff_right_of_imp fun hx => ?_).symm
  exact g.enforceable_subset controllable plantMarking
    ((Rule.cautious_observed g controllable classes).subset_enforceable hx)

/-- Restricting to states takes no event away. -/
theorem alphabet_restrictObserved :
    (restrictObserved g controllable plantMarking classes).value.1.alphabet = g.alphabet := by
  rw [value_restrictObserved]
  exact Automaton.alphabet_deleteStates

/-- What the pattern of its class does not disable is enabled at a state that is left. -/
theorem mem_enabledUnder {rest : Automaton} {patterns : ClassPatterns} {x : StateId} {ev : EventId} :
    ev ∈ enabledUnder rest classes patterns x ↔ ev ∈ rest.alphabet ∧
      ∀ p, patterns[ObservationClass.of classes x]? = some p → ev ∉ p.disableAll := by
  rw [enabledUnder, IdentSet.mem_sdiff]
  refine and_congr_right fun _ => ?_
  cases patterns[ObservationClass.of classes x]? with
  | none => simp
  | some p => simp

/-- **Promises are kept.** At all points of a run the patterns disable controllable events only and
are not conflicting, and the pattern of a class in the round asks for all that its patterns of the
level and in total ask for. In the end each state that is left keeps all uncontrollable events, and
one event of each set that has been promised to its class. -/
theorem restrictObserved_keeps_promises {σ : Type} {o : Observer σ} (ho : o.NeverCancels)
    (hg : g.WellFormed) :
    (∀ s ∈ (Rule.observed g controllable classes).points g plantMarking, ∀ c : ObservationClass,
      (∀ m ∈ [s.round, s.level, s.total], ∀ p : ControlPattern, m[c]? = some p →
        p.disableAll ⊆ controllable ∧ p.isConflicting = false) ∧
      ∀ p : ControlPattern, s.round[c]? = some p →
        ControlPattern.IsWithin (s.level[c]?.getD ∅) p ∧
        ControlPattern.IsWithin (s.total[c]?.getD ∅) p) ∧
    ∃ last rest feedback,
      ((Rule.observed g controllable classes).points g plantMarking).head? = some last ∧
      (o.watch (restrictObserved g controllable plantMarking classes)).2 = .ok (rest, feedback) ∧
      (∀ x, x ∈ feedback ↔ x ∈ rest.states) ∧
      ∀ (x : StateId) (enabled : EventSet), feedback[x]? = some enabled →
        (∀ ev ∈ g.alphabet, ev ∉ controllable → ev ∈ enabled) ∧
        ∀ p : ControlPattern, last.total[ObservationClass.of classes x]? = some p →
          ∀ events ∈ p.enableOne, ∃ ev ∈ events, ev ∈ enabled := by
  have hkeeps := Rule.keeps_observed hg controllable classes
  refine ⟨fun s hs c => ⟨fun m hm p hp => ?_, fun p hp => ?_⟩, _, _, _, Rule.head?_points ..,
    Observer.watch_eq_value ho _, fun x => mem_feedback_restrictObserved, fun x enabled hx => ?_⟩
  · have hconsistent := hkeeps.forall_points g plantMarking s hs
    have hfeasible : p.IsFeasible g.alphabet controllable := by
      simp only [List.mem_cons, List.not_mem_nil, or_false] at hm
      rcases hm with rfl | rfl | rfl
      · exact (hconsistent.round hp).1
      · exact (hconsistent.level hp).1
      · exact hconsistent.total hp
    exact ⟨hfeasible.disableAll_subset, hfeasible.not_isConflicting⟩
  · exact ((hkeeps.forall_points g plantMarking s hs).round hp).2
  · have hconsistent := hkeeps.enforceable g plantMarking
    obtain ⟨-, rfl⟩ := getElem?_restrictObserved.mp hx
    simp only [mem_enabledUnder, alphabet_restrictObserved]
    refine ⟨fun ev hev hunc => ⟨hev, fun p hp hdisabled => ?_⟩, fun p hp events hevents => ?_⟩
    · exact hunc ((hconsistent.total hp).disableAll_subset ev hdisabled)
    · obtain ⟨ev, hev, halphabet, hnot⟩ := (hconsistent.total hp).exists_enabled hevents
      refine ⟨ev, hev, halphabet, fun q hq => ?_⟩
      obtain rfl := Option.some.inj (hp.symm.trans hq)
      exact hnot

end

/-- At the machine, whose first and second state share one pattern. All the points
of its run are consistent, and the feedback it ends with keeps what the last of them
promises. -/
theorem restrictObserved_keeps_promises_machine :
    Observer.patient.NeverCancels ∧ Automaton.machine.WellFormed ∧
      let rule := Rule.observed Automaton.machine (.ofList [⟨1⟩, ⟨4⟩]) machineClasses
      (∀ s ∈ rule.points Automaton.machine (.singleton ⟨2⟩), ∀ c : ObservationClass,
        (∀ m ∈ [s.round, s.level, s.total], ∀ p : ControlPattern, m[c]? = some p →
          p.disableAll ⊆ (.ofList [⟨1⟩, ⟨4⟩] : EventSet) ∧ p.isConflicting = false) ∧
        ∀ p : ControlPattern, s.round[c]? = some p →
          ControlPattern.IsWithin (s.level[c]?.getD ∅) p ∧
          ControlPattern.IsWithin (s.total[c]?.getD ∅) p) ∧
      ∃ last rest feedback,
        (rule.points Automaton.machine (.singleton ⟨2⟩)).head? = some last ∧
        (Observer.patient.watch (restrictObserved Automaton.machine (.ofList [⟨1⟩, ⟨4⟩])
          (.singleton ⟨2⟩) machineClasses)).2 = .ok (rest, feedback) ∧
        (∀ x, x ∈ feedback ↔ x ∈ rest.states) ∧
        ∀ (x : StateId) (enabled : EventSet), feedback[x]? = some enabled →
          (∀ ev ∈ Automaton.machine.alphabet, ev ∉ (.ofList [⟨1⟩, ⟨4⟩] : EventSet) →
            ev ∈ enabled) ∧
          ∀ p : ControlPattern, last.total[ObservationClass.of machineClasses x]? = some p →
            ∀ events ∈ p.enableOne, ∃ ev ∈ events, ev ∈ enabled :=
  ⟨Observer.neverCancels_patient, Automaton.machine_wellFormed,
    restrictObserved_keeps_promises Observer.neverCancels_patient Automaton.machine_wellFormed⟩

end OmegaControl
