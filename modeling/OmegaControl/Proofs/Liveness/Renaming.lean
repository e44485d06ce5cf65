import OmegaControl.Proofs.Liveness.Matching
import OmegaControl.Proofs.Liveness.ObservedRefinement
import OmegaControl.Proofs.Renaming

/-!
# Enforceable states under new names

The rule for partial observation goes through the states and their transitions in
the order of their numbers, but what it finds does not depend on it. On two automata
that are the same up to names, and with classes that tell the same states apart, it
finds states that go together, and the patterns of their classes ask for the same,
up to names (`Rule.observed_matches`). So what is left of the two automata is the
same up to names, and so it is when the patterns are enforced
(`IsRenamed.restrictObserved`, `IsRenamed.applyFeedback`).

That each state has one transition for each event is used: what a state asks for is
then known from the sets of its events (`askedOf_eq`), and the order in which they
are gone through drops out.

Full observation is the special case in which each state is a class of its own
(`IsRenamed.closedLoop`).
-/

namespace OmegaControl

variable {ε : Equiv.Perm EventId} {ρ : Equiv.Perm StateId}

/-! ## Patterns
 -/

namespace ControlPattern

/-- The patterns ask for the same, up to names. -/
structure IsRenamed (p q : ControlPattern) (ε : Equiv.Perm EventId) : Prop where
  disableAll : p.disableAll.IsRenamed q.disableAll ε
  enableOne : ∀ events, events.rename ε ∈ q.enableOne ↔ events ∈ p.enableOne

namespace IsRenamed

variable {p q p' q' : ControlPattern}

theorem empty : (∅ : ControlPattern).IsRenamed ∅ ε :=
  ⟨.empty, fun _ => iff_of_false not_mem_enableOne_empty not_mem_enableOne_empty⟩

/-- Patterns are joined on both sides. -/
theorem join (h : p.IsRenamed q ε) (h' : p'.IsRenamed q' ε) : (p.join p').IsRenamed (q.join q') ε :=
  ⟨h.disableAll.union h'.disableAll, fun events => by
    rw [mem_enableOne_join, mem_enableOne_join, h.enableOne, h'.enableOne]⟩

/-- To be conflicting is no matter of names. -/
theorem isConflicting_eq (h : p.IsRenamed q ε) : p.isConflicting = q.isConflicting := by
  rw [Bool.eq_iff_iff, isConflicting_iff, isConflicting_iff]
  have hsubset : ∀ events : EventSet, events ⊆ p.disableAll ↔ events.rename ε ⊆ q.disableAll :=
    fun events => (IdentSet.isRenamed_iff.mpr rfl).subset_iff h.disableAll
  constructor
  · rintro ⟨events, hmem, hsub⟩
    exact ⟨_, (h.enableOne events).mpr hmem, (hsubset events).mp hsub⟩
  · rintro ⟨events', hmem, hsub⟩
    obtain ⟨events, rfl⟩ := IdentSet.exists_rename_eq ε events'
    exact ⟨events, (h.enableOne events).mp hmem, (hsubset events).mpr hsub⟩

/-- What states ask for is added on both sides. The pattern is joined from a list on
each side, of which only the members are known to correspond, so both parts of it
are described by their members. -/
theorem joinAsked (h : p.IsRenamed q ε) {asked asked' : List (EventSet × EventSet)}
    (hasked : ∀ d e, (d.rename ε, e.rename ε) ∈ asked' ↔ (d, e) ∈ asked) :
    (p.joinAsked asked).IsRenamed (q.joinAsked asked') ε := by
  constructor
  · intro ev
    rw [mem_disableAll_joinAsked, mem_disableAll_joinAsked, h.disableAll]
    refine or_congr_right ⟨?_, ?_⟩
    · rintro ⟨⟨d', e'⟩, hmem, hev⟩
      obtain ⟨d, rfl⟩ := IdentSet.exists_rename_eq ε d'
      obtain ⟨e, rfl⟩ := IdentSet.exists_rename_eq ε e'
      exact ⟨(d, e), (hasked d e).mp hmem, (IdentSet.isRenamed_iff.mpr rfl ev).mp hev⟩
    · rintro ⟨⟨d, e⟩, hmem, hev⟩
      exact ⟨_, (hasked d e).mpr hmem, (IdentSet.isRenamed_iff.mpr rfl ev).mpr hev⟩
  · intro events
    rw [mem_enableOne_joinAsked, mem_enableOne_joinAsked, h.enableOne]
    refine or_congr_right ⟨?_, ?_⟩
    · rintro ⟨⟨d', e'⟩, hmem, rfl⟩
      obtain ⟨d, rfl⟩ := IdentSet.exists_rename_eq ε d'
      exact ⟨(d, events), (hasked d events).mp hmem, rfl⟩
    · rintro ⟨⟨d, e⟩, hmem, rfl⟩
      exact ⟨_, (hasked d _).mpr hmem, rfl⟩

end IsRenamed

end ControlPattern

/-! ## One step
 -/

namespace Automaton.IsRenamed

variable {g h : Automaton} (hgh : g.IsRenamed h ρ ε)
include hgh

/-- The transitions of states that go together go together. In the two lists they
may stand in different orders. -/
theorem exists_transitionsFrom {P : Transition → Prop} {x : StateId} :
    (∃ t ∈ h.transitionsFrom (ρ x), P t) ↔ ∃ t ∈ g.transitionsFrom x, P (t.rename ρ ε) := by
  simp only [mem_transitionsFrom]
  constructor
  · rintro ⟨t', ⟨ht, hsource⟩, hP⟩
    obtain ⟨t, htg, rfl⟩ := hgh.exists_rename_eq ht
    exact ⟨t, ⟨htg, ρ.injective hsource⟩, hP⟩
  · rintro ⟨t, ⟨ht, rfl⟩, hP⟩
    exact ⟨_, ⟨(hgh.transitions t).mpr ht, rfl⟩, hP⟩

/-- What holds of all transitions of a state holds of all transitions of the other
one. -/
theorem forall_transitionsFrom {P : Transition → Prop} {x : StateId} :
    (∀ t ∈ h.transitionsFrom (ρ x), P t) ↔ ∀ t ∈ g.transitionsFrom x, P (t.rename ρ ε) := by
  have hnot := not_congr (hgh.exists_transitionsFrom (P := fun t => ¬P t) (x := x))
  push Not at hnot
  exact hnot

variable {controllable controllable' : EventSet} {target target' domain domain' : StateSet}
  (hcontrollable : controllable.IsRenamed controllable' ε) (htarget : target.IsRenamed target' ρ)
  (hdomain : domain.IsRenamed domain' ρ)
include hcontrollable htarget hdomain

/-- What has to be disabled is the same up to names. Transitions are looked at in
the order of events, which names do not keep, but neither whether a state can be
driven into the target nor what it has to disable depends on the order. -/
theorem disabledToEnter (x : StateId) :
    disabledToEnter controllable' target' domain' (h.transitionsFrom (ρ x)) =
      (disabledToEnter controllable target domain (g.transitionsFrom x)).map (·.rename ε) := by
  have hsome : (OmegaControl.disabledToEnter controllable' target' domain'
      (h.transitionsFrom (ρ x))).isSome ↔
      (OmegaControl.disabledToEnter controllable target domain (g.transitionsFrom x)).isSome := by
    rw [isSome_disabledToEnter, isSome_disabledToEnter, hgh.exists_transitionsFrom,
      hgh.forall_transitionsFrom]
    simp only [Transition.rename, htarget _, hdomain _, hcontrollable _]
  rcases hd : OmegaControl.disabledToEnter controllable target domain (g.transitionsFrom x) with _ | d
  · rw [hd] at hsome
    rw [Option.not_isSome_iff_eq_none.mp fun h => Bool.noConfusion (hsome.mp h)]
    rfl
  · rw [hd] at hsome
    obtain ⟨d', hd'⟩ := Option.isSome_iff_exists.mp (hsome.mpr rfl)
    rw [hd', Option.map_some, Option.some.injEq, eq_comm, ← IdentSet.isRenamed_iff]
    intro ev
    rw [mem_of_disabledToEnter hd', mem_of_disabledToEnter hd, hgh.exists_transitionsFrom]
    simp only [Transition.rename, htarget _, hdomain _, ε.injective.eq_iff]

variable (hg : g.HasUniqueSuccessors) (hh : h.HasUniqueSuccessors)
include hg hh

/-- What a state asks for is the same up to names. -/
theorem askedOf (x : StateId) (d e : EventSet) :
    askedOf controllable' target' domain' ∅ ∅ (h.transitionsFrom (ρ x)) =
        some (d.rename ε, e.rename ε) ↔
      askedOf controllable target domain ∅ ∅ (g.transitionsFrom x) = some (d, e) := by
  have hentering : enteringEvents target' (h.transitionsFrom (ρ x)) =
      (enteringEvents target (g.transitionsFrom x)).rename ε := by
    rw [eq_comm, ← IdentSet.isRenamed_iff]
    intro ev
    rw [mem_enteringEvents, mem_enteringEvents, hgh.exists_transitionsFrom]
    simp only [Transition.rename, htarget _, ε.injective.eq_iff]
  rw [askedOf_eq (hh.transitionsFrom_ascends _), askedOf_eq (hg.transitionsFrom_ascends _),
    hgh.disabledToEnter hcontrollable htarget hdomain, hentering, Option.map_map,
    Option.map_eq_some_iff, Option.map_eq_some_iff]
  refine exists_congr fun d' => and_congr_right fun _ => ?_
  simp only [Function.comp_apply, Prod.mk.injEq, (IdentSet.rename_injective ε).eq_iff]

end Automaton.IsRenamed

/-! ## The rule
 -/

section

open Automaton

/-- The classes of two automata tell the same states apart. -/
def SameClasses (g : Automaton) (ρ : Equiv.Perm StateId) (classes classes' : ObserverMap) : Prop :=
  ∀ x ∈ g.states, ∀ y ∈ g.states, ObservationClass.of classes x = ObservationClass.of classes y ↔
    ObservationClass.of classes' (ρ x) = ObservationClass.of classes' (ρ y)

/-- For each state the patterns of its class are the same up to names. Classes are
compared through their states, since the names of classes have nothing to do with
each other. -/
def SamePatterns (g : Automaton) (ρ : Equiv.Perm StateId) (ε : Equiv.Perm EventId)
    (classes classes' : ObserverMap) (m m' : ClassPatterns) : Prop :=
  ∀ x ∈ g.states, Option.Rel (ControlPattern.IsRenamed · · ε) m[ObservationClass.of classes x]?
    m'[ObservationClass.of classes' (ρ x)]?

/-- All records are the same up to names: those of the round, of the level and in
total. -/
structure SameRecords (g : Automaton) (ρ : Equiv.Perm StateId) (ε : Equiv.Perm EventId)
    (classes classes' : ObserverMap) (s s' : Records ClassPatterns) : Prop where
  round : SamePatterns g ρ ε classes classes' s.round s'.round
  level : SamePatterns g ρ ε classes classes' s.level s'.level
  total : SamePatterns g ρ ε classes classes' s.total s'.total

variable {g h : Automaton} {classes classes' : ObserverMap} {m m' n n' : ClassPatterns}
  {s s' : Records ClassPatterns} {x : StateId}

/-- Nothing has been asked on either side. -/
theorem SamePatterns.empty : SamePatterns g ρ ε classes classes' ∅ ∅ := fun _ _ => by
  rw [Std.ExtTreeMap.getElem?_empty, Std.ExtTreeMap.getElem?_empty]
  exact .none

/-- Either nothing is asked on both sides, or the same up to names. -/
theorem SamePatterns.cases (hm : SamePatterns g ρ ε classes classes' m m') (hx : x ∈ g.states) :
    (m[ObservationClass.of classes x]? = none ∧ m'[ObservationClass.of classes' (ρ x)]? = none) ∨
      ∃ p q : ControlPattern, m[ObservationClass.of classes x]? = some p ∧
        m'[ObservationClass.of classes' (ρ x)]? = some q ∧ p.IsRenamed q ε := by
  have hrel := hm x hx
  generalize m[ObservationClass.of classes x]? = a at hrel
  generalize m'[ObservationClass.of classes' (ρ x)]? = b at hrel
  cases hrel with
  | none => exact .inl ⟨rfl, rfl⟩
  | some h => exact .inr ⟨_, _, rfl, rfl, h⟩

/-- What is asked of the class of a state, be it nothing. -/
theorem SamePatterns.getD (hm : SamePatterns g ρ ε classes classes' m m') (hx : x ∈ g.states) :
    (m[ObservationClass.of classes x]?.getD ∅).IsRenamed
      (m'[ObservationClass.of classes' (ρ x)]?.getD ∅) ε := by
  rcases hm.cases hx with ⟨h, h'⟩ | ⟨p, q, h, h', hpq⟩
  · rw [h, h']
    exact .empty
  · rw [h, h']
    exact hpq

/-- Records are joined on both sides. -/
theorem SamePatterns.join (hm : SamePatterns g ρ ε classes classes' m m')
    (hn : SamePatterns g ρ ε classes classes' n n') :
    SamePatterns g ρ ε classes classes' (m.join n) (m'.join n') := by
  intro x hx
  rw [ClassPatterns.getElem?_join, ClassPatterns.getElem?_join]
  rcases hn.cases hx with ⟨h, h'⟩ | ⟨p, q, h, h', hpq⟩
  · rw [h, h']
    exact hm x hx
  · rw [h, h']
    exact .some ((hm.getD hx).join hpq)

/-- What has been promised is the same up to names. -/
theorem SameRecords.committed (hs : SameRecords g ρ ε classes classes' s s') (hx : x ∈ g.states) :
    (s.committed (ObservationClass.of classes x)).IsRenamed
      (s'.committed (ObservationClass.of classes' (ρ x))) ε :=
  (hs.round.getD hx).join ((hs.level.getD hx).join (hs.total.getD hx))

variable {controllable controllable' : EventSet} {target target' domain domain' : StateSet}
  (hgh : g.IsRenamed h ρ ε) (hg : g.HasUniqueSuccessors) (hh : h.HasUniqueSuccessors)
  (hcontrollable : controllable.IsRenamed controllable' ε)
  (hclasses : SameClasses g ρ classes classes')
include hgh hg hh hcontrollable hclasses

/-- The candidates for the classes are the same up to names. What the states of a
class ask for is joined in the order of the states, but the join does not depend on
the order. -/
theorem SameRecords.candidatePatterns (hs : SameRecords g ρ ε classes classes' s s')
    (htarget : target.IsRenamed target' ρ) (hdomain : domain.IsRenamed domain' ρ) :
    SamePatterns g ρ ε classes classes'
      (candidatePatterns g.rows controllable classes target domain s)
      (candidatePatterns h.rows controllable' classes' target' domain' s') := by
  intro x hx
  -- what the states of a class ask for is the same up to names, in whatever order
  have hasked : ∀ d e, (d.rename ε, e.rename ε) ∈ askedBy h.rows controllable' classes' target' domain'
        (ObservationClass.of classes' (ρ x)) ↔
      (d, e) ∈ askedBy g.rows controllable classes target domain (ObservationClass.of classes x) := by
    intro d e
    rw [mem_askedBy_rows, mem_askedBy_rows]
    constructor
    · rintro ⟨y, hy, hclass, hasked⟩
      rw [← ρ.apply_symm_apply y] at hy hclass hasked
      rw [hgh.states] at hy
      exact ⟨_, hy, (hclasses _ hy x hx).mpr hclass,
        (hgh.askedOf hcontrollable htarget hdomain hg hh _ d e).mp hasked⟩
    · rintro ⟨y, hy, hclass, hasked⟩
      exact ⟨ρ y, (hgh.states y).mpr hy, (hclasses y hy x hx).mp hclass,
        (hgh.askedOf hcontrollable htarget hdomain hg hh y d e).mpr hasked⟩
  rw [getElem?_candidatePatterns, getElem?_candidatePatterns]
  generalize askedBy g.rows controllable classes target domain (ObservationClass.of classes x) = asked
    at hasked
  generalize askedBy h.rows controllable' classes' target' domain'
    (ObservationClass.of classes' (ρ x)) = asked' at hasked
  -- so either nobody asks on both sides, or somebody does
  have hnil : asked = [] ↔ asked' = [] := by
    rw [List.eq_nil_iff_forall_not_mem, List.eq_nil_iff_forall_not_mem]
    constructor
    · rintro hnone ⟨d', e'⟩ hmem
      obtain ⟨d, rfl⟩ := IdentSet.exists_rename_eq ε d'
      obtain ⟨e, rfl⟩ := IdentSet.exists_rename_eq ε e'
      exact hnone _ ((hasked d e).mp hmem)
    · exact fun hnone ⟨d, e⟩ hmem => hnone _ ((hasked d e).mpr hmem)
  by_cases h : asked = []
  · rw [if_pos h, if_pos (hnil.mp h)]
    exact .none
  · rw [if_neg h, if_neg (mt hnil.mpr h)]
    exact .some ((hs.committed hx).joinAsked hasked)

/-- **The rule for partial observation** does the same on both automata. Of sets of
states it is kept that they are such sets, since classes are only compared for
states. -/
theorem Rule.observed_matches :
    (Rule.observed g controllable classes).Matches (Rule.observed h controllable' classes')
      (fun s t => s ⊆ g.states ∧ s.IsRenamed t ρ) (SameRecords g ρ ε classes classes') where
  start := ⟨.empty, .empty, .empty⟩
  beginRound hs := ⟨.empty, hs.level, hs.total⟩
  endRound hs := ⟨hs.round, hs.level.join hs.round, hs.total⟩
  beginLevel hs := ⟨hs.round, .empty, hs.total⟩
  endLevel hs := ⟨hs.round, hs.level, hs.total.join hs.level⟩
  resolve {target target' domain domain' s s'} := by
    rintro ⟨-, htarget⟩ ⟨-, hdomain⟩ hs
    -- the patterns of the round are joined with candidates that are rejected on
    -- both sides or on neither
    have hround : SamePatterns g ρ ε classes classes'
        ((Rule.observed g controllable classes).resolve target domain s).2.round
        ((Rule.observed h controllable' classes').resolve target' domain' s').2.round := by
      refine hs.round.join fun x hx => ?_
      rw [Std.ExtTreeMap.getElem?_filter', Std.ExtTreeMap.getElem?_filter']
      rcases (hs.candidatePatterns hgh hg hh hcontrollable hclasses htarget hdomain).cases hx with
        ⟨h, h'⟩ | ⟨p, q, h, h', hpq⟩
      · rw [h, h']
        exact .none
      · rw [h, h', Option.filter_some, Option.filter_some, hpq.isConflicting_eq]
        split
        · exact .some hpq
        · exact .none
    -- a state is found if it enters the target under the pattern of its class
    refine ⟨⟨fun x hx => (mem_observed_resolve.mp hx).1, fun x => ?_⟩, hround, hs.level, hs.total⟩
    rw [mem_observed_resolve, mem_observed_resolve, hgh.states]
    refine and_congr_right fun hx => ?_
    rcases hround.cases hx with ⟨h, h'⟩ | ⟨p, q, h, h', hpq⟩
    · rw [h, h']
      exact Iff.rfl
    · rw [h, h', Option.any_some, Option.any_some, entersUnder_iff, entersUnder_iff,
        hgh.exists_transitionsFrom, hgh.forall_transitionsFrom]
      simp only [Transition.rename, htarget _, hdomain _, hpq.disableAll _]

end

/-! ## What is left -/

namespace Automaton.IsRenamed

variable {g h : Automaton} {controllable controllable' : EventSet}
  {plantMarking plantMarking' : StateSet} {classes classes' : ObserverMap} (hgh : g.IsRenamed h ρ ε)
include hgh

/-- Sets of states that are the same up to names are treated alike by the loops. -/
theorem tied
    (hplant : ∀ x ∈ g.states, ρ x ∈ plantMarking' ↔ x ∈ plantMarking) :
    Tied g h plantMarking plantMarking' fun s t => s ⊆ g.states ∧ s.IsRenamed t ρ where
  size_eq hs := hs.2.size_eq
  empty := ⟨fun _ hx => absurd hx IdentSet.not_mem_empty, .empty⟩
  states := ⟨fun _ hx => hx, hgh.states⟩
  union hs ht := ⟨fun x hx => (IdentSet.mem_union.mp hx).elim (hs.1 x) (ht.1 x), hs.2.union ht.2⟩
  inter hs ht := ⟨fun x hx => hs.1 x (IdentSet.mem_inter.mp hx).1, hs.2.inter ht.2⟩
  inter_marked hs := ⟨fun x hx => hs.1 x (IdentSet.mem_inter.mp hx).1, hs.2.inter hgh.marked⟩
  sdiff_plantMarking {s t} hs := by
    refine ⟨fun x hx => hs.1 x (IdentSet.mem_sdiff.mp hx).1, fun x => ?_⟩
    rw [IdentSet.mem_sdiff, IdentSet.mem_sdiff, hs.2 x]
    exact and_congr_right fun hx => not_congr (hplant x (hs.1 x hx))

variable (hg : g.WellFormed) (hh : h.WellFormed) (hunique : g.HasUniqueSuccessors)
  (hunique' : h.HasUniqueSuccessors) (hcontrollable : controllable.IsRenamed controllable' ε)
  (hplant : ∀ x ∈ g.states, ρ x ∈ plantMarking' ↔ x ∈ plantMarking)
  (hclasses : SameClasses g ρ classes classes')
include hg hh hunique hunique' hcontrollable hplant hclasses

/-- **What is left** under patterns is the same up to names. -/
theorem restrictObserved :
    (restrictObserved g controllable plantMarking classes).value.1.IsRenamed
      (restrictObserved h controllable' plantMarking' classes').value.1 ρ ε := by
  have hfound := ((Rule.observed_matches hgh hunique hunique' hcontrollable hclasses).enforceable
    (hgh.tied hplant)).1
  rw [value_restrictObserved, value_restrictObserved]
  exact hgh.restrictStates hg hh fun x _ => hfound.2 x

/-- **What is left when patterns are enforced** is the same up to names. The
patterns in total correspond class by class, and so do the events they disable at a
state. -/
theorem applyFeedback :
    (applyFeedback (OmegaControl.restrictObserved g controllable plantMarking classes).value.1
        (OmegaControl.restrictObserved g controllable plantMarking classes).value.2).IsRenamed
      (applyFeedback (OmegaControl.restrictObserved h controllable' plantMarking' classes').value.1
        (OmegaControl.restrictObserved h controllable' plantMarking' classes').value.2) ρ ε := by
  obtain ⟨⟨hsub, hfound⟩, hrecords⟩ :=
    (Rule.observed_matches hgh hunique hunique' hcontrollable hclasses).enforceable
      (hgh.tied hplant)
  have hrest := hgh.restrictObserved hg hh hunique hunique' hcontrollable hplant hclasses
  refine { hrest with transitions := fun t => ?_ }
  -- what feedback keeps, read off the states and the records of the last point
  have hkept : ∀ {g : Automaton} {controllable : EventSet} {plantMarking : StateSet}
      {classes : ObserverMap} {t : Transition},
      t ∈ (OmegaControl.applyFeedback
          (OmegaControl.restrictObserved g controllable plantMarking classes).value.1
          (OmegaControl.restrictObserved g controllable plantMarking classes).value.2).transitions ↔
        t ∈ (OmegaControl.restrictObserved g controllable plantMarking classes).value.1.transitions ∧
          t.source ∈ observedStates g controllable plantMarking classes ∧
          t.event ∈ enabledUnder
            (OmegaControl.restrictObserved g controllable plantMarking classes).value.1 classes
            (observedPatterns g controllable plantMarking classes) t.source := by
    intro g controllable plantMarking classes t
    rw [OmegaControl.applyFeedback, mem_retainTransitions, Option.any_eq_true]
    refine and_congr_right fun _ => ?_
    simp only [getElem?_restrictObserved, decide_eq_true_eq]
    constructor
    · rintro ⟨_, ⟨hx, rfl⟩, hev⟩
      exact ⟨hx, hev⟩
    · rintro ⟨hx, hev⟩
      exact ⟨_, ⟨hx, rfl⟩, hev⟩
  rw [hkept, hkept, hrest.transitions]
  refine and_congr_right fun _ => ?_
  change ρ t.source ∈ observedStates h controllable' plantMarking' classes' ∧ ε t.event ∈ _ ↔ _
  rw [hfound t.source]
  -- a state that is found has a record, so both sides disable the same events up to
  -- names
  refine and_congr_right fun hsource => ?_
  exact hrest.alphabet.sdiff (hrecords.total.getD (hsub _ hsource)).disableAll t.event

omit hclasses in
/-- **The closed loop** is the same up to names. -/
theorem closedLoop : (closedLoop g controllable plantMarking).IsRenamed
    (closedLoop h controllable' plantMarking') ρ ε := by
  have halone : ∀ x : StateId, ObservationClass.of ∅ x = .alone x := fun x => by
    rw [ObservationClass.of, Std.ExtTreeMap.getElem?_empty]
  have hinjective : Function.Injective (ObservationClass.of ∅) := fun x y heq => by
    rw [halone, halone] at heq
    exact ObservationClass.alone.inj heq
  rw [← applyFeedback_restrictObserved hunique (.of_injOn _ hg hinjective.injOn) hg,
    ← applyFeedback_restrictObserved hunique' (.of_injOn _ hh hinjective.injOn) hh]
  refine hgh.applyFeedback hg hh hunique hunique' hcontrollable hplant fun x _ y _ => ?_
  rw [halone, halone, halone, halone, ObservationClass.alone.injEq, ObservationClass.alone.injEq,
    ρ.injective.eq_iff]

end Automaton.IsRenamed

end OmegaControl
