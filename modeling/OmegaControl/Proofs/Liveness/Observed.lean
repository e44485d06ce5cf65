import OmegaControl.Proofs.Liveness.ClosedLoop
import OmegaControl.Proofs.Liveness.Lockstep
import OmegaControl.Proofs.Liveness.Patterns

/-!
# The pattern rule beside the feedback rule

The rule for partial observation records one pattern for each class, and what one
state asks for binds the others of its class. This does no harm if no two states of
one class have a controllable event in common (`Automaton.ClassesApart`): then what
is disabled at a state was asked for by the state itself.

So the two rules find the same states in every step, and what is disabled under the
patterns is what the feedback rule has recorded (`Agrees`). Of that, what was
recorded first stands, and patterns only grow; but a state for which something has
been recorded asks for no more later on, since what was recorded keeps it inside
target and domain as they are by then. For the same reason a pattern never becomes
conflicting. The loops take this along one by one, up to the records of all rounds
and levels (`Rule.observed_agrees`).

How the two records agree changes from loop to loop, as different parts of them are
blank.

* While a round goes on, all that is recorded agrees, in whatever loop it was
  recorded (`InStep`).
* Between two rounds, what is recorded for the level and for good agrees
  (`AgreesOnLevels`).
* Between two levels, what is recorded for good agrees (`AgreesOnTotal`).

The first rule is known to compute fixpoints, and the second one is shown to go
along with it.
-/

namespace OmegaControl

/-- No two states of one class have a controllable event in common. States of one
class may have uncontrollable events in common, as these are never disabled. -/
def Automaton.ClassesApart (g : Automaton) (controllable : EventSet) (classes : ObserverMap) :
    Prop :=
  ∀ s ∈ g.transitions, ∀ t ∈ g.transitions, s.event = t.event → s.event ∈ controllable →
    ObservationClass.of classes s.source = ObservationClass.of classes t.source →
    s.source = t.source

instance (g : Automaton) (controllable : EventSet) (classes : ObserverMap) :
    Decidable (g.ClassesApart controllable classes) :=
  decidable_of_iff (∀ s ∈ g.transitions.toList, ∀ t ∈ g.transitions.toList, s.event = t.event →
    s.event ∈ controllable →
    ObservationClass.of classes s.source = ObservationClass.of classes t.source →
    s.source = t.source) (by simp only [Automaton.ClassesApart, Std.ExtTreeSet.mem_toList])

/-! ## Records that agree
 -/

/-- The patterns ask for what has been recorded for the states, and what has been recorded
drives each state into the target without leaving target and domain. -/
structure Agrees (g : Automaton) (controllable : EventSet) (classes : ObserverMap)
    (record : StateId → Option EventSet) (pattern : ObservationClass → ControlPattern)
    (target domain : Set StateId) : Prop where
  /-- what has been recorded for a state drives it into the target -/
  drives : ∀ {x d}, record x = some d → g.Drives controllable d target domain x
  /-- only events that a state has are recorded for it -/
  active : ∀ {x d ev}, record x = some d → ev ∈ d → ∃ t ∈ g.transitions, t.source = x ∧ t.event = ev
  /-- the pattern of a class disables what has been recorded for its states, and
  nothing else -/
  mem_disableAll : ∀ {c ev}, ev ∈ (pattern c).disableAll ↔
    ∃ x d, ObservationClass.of classes x = c ∧ record x = some d ∧ ev ∈ d
  /-- of a set of which one event should stay, some state has one that is not
  recorded for it -/
  exists_enabled : ∀ {c events}, events ∈ (pattern c).enableOne → ∃ t ∈ g.transitions,
    ObservationClass.of classes t.source = c ∧ t.event ∈ events ∧
      ∃ d, record t.source = some d ∧ t.event ∉ d

namespace Agrees

variable {g : Automaton} {controllable : EventSet} {classes : ObserverMap}
  {record record' : StateId → Option EventSet} {pattern pattern' : ObservationClass → ControlPattern}
  {target domain target' domain' : Set StateId}

/-- Nothing has been recorded. -/
theorem blank (hrecord : ∀ x, record x = none) (hpattern : ∀ c, pattern c = ∅) :
    Agrees g controllable classes record pattern target domain where
  drives hd := by simp [hrecord] at hd
  active hd := by simp [hrecord] at hd
  mem_disableAll := by simp [hrecord, hpattern]
  exists_enabled hevents := by simp [hpattern] at hevents

variable (h : Agrees g controllable classes record pattern target domain)
include h

/-- What drives a state into the target drives it into a larger one, and it need not
matter if some states of the domain have become states of the target. -/
theorem mono (htarget : target ⊆ target') (hdomain : domain ⊆ target' ∪ domain') :
    Agrees g controllable classes record pattern target' domain' :=
  ⟨fun hd => (h.drives hd).mono htarget hdomain, h.active, h.mem_disableAll, h.exists_enabled⟩

/-- It does not matter how the records are kept. -/
theorem congr (hrecord : ∀ x, record' x = record x)
    (hdisable : ∀ c ev, ev ∈ (pattern' c).disableAll ↔ ev ∈ (pattern c).disableAll)
    (henable : ∀ c events, events ∈ (pattern' c).enableOne ↔ events ∈ (pattern c).enableOne) :
    Agrees g controllable classes record' pattern' target domain := by
  obtain rfl : record' = record := funext hrecord
  exact ⟨h.drives, h.active, (hdisable _ _).trans h.mem_disableAll,
    fun he => h.exists_enabled ((henable _ _).mp he)⟩

/-- Only what is controllable is recorded. -/
theorem subset_controllable {c : ObservationClass} : (pattern c).disableAll ⊆ controllable := by
  intro ev hev
  obtain ⟨x, d, -, hd, hev⟩ := h.mem_disableAll.mp hev
  exact (h.drives hd).subset_controllable ev hev

variable (hapart : g.ClassesApart controllable classes)
include hapart

/-- What is disabled at a state is what has been recorded for it. Whatever else is
in the pattern of its class was recorded for a state that has no event in common
with it. -/
theorem event_mem_disableAll {t : Transition} (ht : t ∈ g.transitions) :
    t.event ∈ (pattern (ObservationClass.of classes t.source)).disableAll ↔
      ∃ d, record t.source = some d ∧ t.event ∈ d := by
  constructor
  · intro hev
    obtain ⟨x, d, hc, hd, hev⟩ := h.mem_disableAll.mp hev
    obtain ⟨u, hu, rfl, hevent⟩ := h.active hd hev
    have hsource := hapart u hu t ht hevent
      (hevent ▸ (h.drives hd).subset_controllable _ hev) hc
    exact ⟨d, hsource ▸ hd, hev⟩
  · rintro ⟨d, hd, hev⟩
    exact h.mem_disableAll.mpr ⟨t.source, d, rfl, hd, hev⟩

/-- No pattern disables all of a set of which one event should stay. The event that
some state keeps is not recorded for it, and so disabled by none of its class. -/
theorem not_isConflicting (c : ObservationClass) : (pattern c).isConflicting = false := by
  refine Bool.eq_false_iff.mpr fun hconflict => ?_
  obtain ⟨events, hevents, hsub⟩ := ControlPattern.isConflicting_iff.mp hconflict
  obtain ⟨t, ht, rfl, hev, d, hd, hnot⟩ := h.exists_enabled hevents
  obtain ⟨d', hd', hev'⟩ := (h.event_mem_disableAll hapart ht).mp (hsub _ hev)
  exact hnot (Option.some.inj (hd.symm.trans hd') ▸ hev')

/-- The pattern of its class drives a state into the target if what has been recorded for
it does. -/
theorem entersUnder {target domain : StateSet} {x : StateId} {p : ControlPattern} {d : EventSet}
    (hp : ∀ ev, ev ∈ p.disableAll ↔
      ev ∈ (pattern (ObservationClass.of classes x)).disableAll)
    (hd : record x = some d) (hdrives : g.Drives controllable d target.carrier domain.carrier x) :
    OmegaControl.entersUnder target domain (g.transitionsFrom x) p = true := by
  have hmem : ∀ t ∈ g.transitions, t.source = x → (t.event ∈ p.disableAll ↔ t.event ∈ d) := by
    rintro t ht rfl
    rw [hp, h.event_mem_disableAll hapart ht, hd]
    simp
  obtain ⟨-, ⟨t, ht, hsource, hev, htarget⟩, hstays⟩ := hdrives
  refine entersUnder_iff.mpr ⟨⟨t, Automaton.mem_transitionsFrom.mpr ⟨ht, hsource⟩, ?_, htarget⟩, ?_⟩
  · exact fun hmem' => hev ((hmem t ht hsource).mp hmem')
  · intro u hu hnot
    obtain ⟨hu, husource⟩ := Automaton.mem_transitionsFrom.mp hu
    exact hstays u hu husource fun hmem' => hnot ((hmem u hu husource).mpr hmem')

end Agrees

/-! ## One step
 -/

/-- What has been recorded for a state, in whatever loop, the oldest first. -/
def Records.held (s : Records DisableMap) (x : StateId) : Option EventSet :=
  (s.total[x]?.or s.level[x]?).or s.round[x]?

section

variable {g : Automaton} {controllable : EventSet} {classes : ObserverMap}
  {target domain : StateSet} {s₁ : Records DisableMap} {s₂ : Records ClassPatterns}

/-- In a round, the records agree, and what is recorded in the round for a class is all that
has been recorded for it. -/
structure InStep (g : Automaton) (controllable : EventSet) (classes : ObserverMap)
    (target domain : Set StateId) (s₁ : Records DisableMap) (s₂ : Records ClassPatterns) :
    Prop where
  agrees : Agrees g controllable classes s₁.held s₂.committed target domain
  round : ∀ {c p}, s₂.round[c]? = some p →
    ∀ ev, ev ∈ p.disableAll ↔ ev ∈ (s₂.committed c).disableAll

/-- What the states of a class ask for in a step. -/
abbrev askedIn (g : Automaton) (controllable : EventSet) (classes : ObserverMap)
    (target domain : StateSet) (c : ObservationClass) : List (EventSet × EventSet) :=
  askedBy g.rows controllable classes target domain c

variable (hg : g.HasUniqueSuccessors)
include hg

/-- What is asked for in terms of the feedback rule: what would be recorded, and the
events that enter the target. -/
theorem mem_askedIn {c : ObservationClass} {a : EventSet × EventSet} :
    a ∈ askedIn g controllable classes target domain c ↔ ∃ x ∈ g.states,
      ObservationClass.of classes x = c ∧
      disabledToEnter controllable target domain (g.transitionsFrom x) = some a.1 ∧
      a.2 = enteringEvents target (g.transitionsFrom x) := by
  rw [mem_askedBy_rows]
  refine exists_congr fun x => and_congr_right fun _ => and_congr_right fun _ => ?_
  rw [askedOf_eq (hg.transitionsFrom_ascends x), Option.map_eq_some_iff]
  constructor
  · rintro ⟨d, hd, rfl⟩
    exact ⟨hd, rfl⟩
  · rintro ⟨hd, he⟩
    exact ⟨a.1, hd, Prod.ext rfl he.symm⟩

omit hg in
/-- What is recorded after a step: nothing new for a state that had a record. -/
theorem held_resolve {x : StateId} {d : EventSet} :
    ((Rule.feedback g controllable).resolve target domain s₁).2.held x = some d ↔
      s₁.held x = some d ∨ s₁.held x = none ∧ (x, d) ∈ disabledRows g controllable target domain := by
  have hrows : ∀ {d}, (Std.ExtTreeMap.ofList (disabledRows g controllable target domain))[x]? =
      some d ↔ (x, d) ∈ disabledRows g controllable target domain :=
    getElem?_ofList_eq_some nodup_disabledRows
  rw [Rule.feedback_resolve, Records.held, Records.held, ← hrows]
  simp only [Std.ExtTreeMap.getElem?_union]
  cases s₁.total[x]? <;> cases s₁.level[x]? <;> cases s₁.round[x]? <;> simp

/-- What the states ask for agrees with what is recorded for them. For a state that
had a record the first rule keeps it; and the state asks for part of it only, since
it is driven by the record. -/
theorem Agrees.step
    (h : Agrees g controllable classes s₁.held s₂.committed target.carrier domain.carrier) :
    Agrees g controllable classes
      ((Rule.feedback g controllable).resolve target domain s₁).2.held
      (fun c => (s₂.committed c).joinAsked (askedIn g controllable classes target domain c))
      target.carrier domain.carrier := by
  have hdrives : ∀ {x d}, ((Rule.feedback g controllable).resolve target domain s₁).2.held x =
      some d → g.Drives controllable d target.carrier domain.carrier x := by
    intro x d hd
    rcases held_resolve.mp hd with hd | ⟨-, hrow⟩
    · exact h.drives hd
    · exact drives_of_disabledToEnter hg (mem_disabledRows.mp hrow).2
  -- a state that asks for something has a record after the step
  have hheld : ∀ {x d}, x ∈ g.states →
      disabledToEnter controllable target domain (g.transitionsFrom x) = some d →
      ∃ d', ((Rule.feedback g controllable).resolve target domain s₁).2.held x = some d' ∧
        ∀ ev ∈ d, ev ∈ d' := by
    intro x d hx hd
    rcases hrecord : s₁.held x with _ | d'
    · exact ⟨d, held_resolve.mpr (.inr ⟨hrecord, mem_disabledRows.mpr ⟨hx, hd⟩⟩), fun _ h => h⟩
    · refine ⟨d', held_resolve.mpr (.inl hrecord), fun ev hev => ?_⟩
      obtain ⟨t, ht, rfl, hout, hout'⟩ := (mem_of_disabledToEnter hd).mp hev
      obtain ⟨ht, hsource⟩ := Automaton.mem_transitionsFrom.mp ht
      by_contra hnot
      exact ((h.drives hrecord).stays t ht hsource hnot).elim hout hout'
  refine ⟨hdrives, ?_, ?_, ?_⟩
  · intro x d ev hd hev
    rcases held_resolve.mp hd with hd | ⟨-, hrow⟩
    · exact h.active hd hev
    · obtain ⟨t, ht, rfl, -⟩ := (mem_of_disabledToEnter (mem_disabledRows.mp hrow).2).mp hev
      obtain ⟨ht, hsource⟩ := Automaton.mem_transitionsFrom.mp ht
      exact ⟨t, ht, hsource, rfl⟩
  · intro c ev
    rw [ControlPattern.mem_disableAll_joinAsked, h.mem_disableAll]
    constructor
    · rintro (⟨x, d, hc, hd, hev⟩ | ⟨a, ha, hev⟩)
      · exact ⟨x, d, hc, held_resolve.mpr (.inl hd), hev⟩
      · obtain ⟨x, hx, hc, hd, -⟩ := (mem_askedIn hg).mp ha
        obtain ⟨d', hd', hsub⟩ := hheld hx hd
        exact ⟨x, d', hc, hd', hsub ev hev⟩
    · rintro ⟨x, d, hc, hd, hev⟩
      rcases held_resolve.mp hd with hd | ⟨-, hrow⟩
      · exact .inl ⟨x, d, hc, hd, hev⟩
      · obtain ⟨hx, hd⟩ := mem_disabledRows.mp hrow
        exact .inr ⟨(d, _), (mem_askedIn hg).mpr ⟨x, hx, hc, hd, rfl⟩, hev⟩
  · intro c events hevents
    rcases ControlPattern.mem_enableOne_joinAsked.mp hevents with hevents | ⟨a, ha, rfl⟩
    · obtain ⟨t, ht, hc, hev, d, hd, hnot⟩ := h.exists_enabled hevents
      exact ⟨t, ht, hc, hev, d, held_resolve.mpr (.inl hd), hnot⟩
    · obtain ⟨x, hx, hc, hd, he⟩ := (mem_askedIn hg).mp ha
      obtain ⟨d', hd', -⟩ := hheld hx hd
      obtain ⟨t, ht, rfl, hnot, htarget⟩ := (hdrives hd').enters
      refine ⟨t, ht, hc, ?_, d', hd', hnot⟩
      rw [he]
      exact mem_enteringEvents.mpr
        ⟨t, Automaton.mem_transitionsFrom.mpr ⟨ht, rfl⟩, rfl, htarget⟩

variable (hapart : g.ClassesApart controllable classes)
include hapart

/-- No candidate is rejected, so the patterns of the round are known. This is where
the classes have to be apart: the candidate agrees with records, so it is not
conflicting. -/
theorem getElem?_round_observed
    (h : Agrees g controllable classes s₁.held s₂.committed target.carrier domain.carrier)
    (c : ObservationClass) :
    ((Rule.observed g controllable classes).resolve target domain s₂).2.round[c]? =
      if askedIn g controllable classes target domain c = [] then s₂.round[c]?
      else some ((s₂.round[c]?.getD ∅).join
        ((s₂.committed c).joinAsked (askedIn g controllable classes target domain c))) := by
  have hround : ((Rule.observed g controllable classes).resolve target domain s₂).2.round =
      s₂.round.join ((candidatePatterns g.rows controllable classes target domain s₂).filter
        fun _ p => !p.isConflicting) := rfl
  have hfree : ((s₂.committed c).joinAsked
      (askedIn g controllable classes target domain c)).isConflicting = false :=
    (h.step hg).not_isConflicting hapart c
  rw [hround, ClassPatterns.getElem?_join, Std.ExtTreeMap.getElem?_filter',
    getElem?_candidatePatterns]
  split_ifs
  · rfl
  · rw [Option.filter_some, hfree]
    rfl

/-- What has been promised after a step: that of before, and what the states of the
class ask for now. As the records agree, no candidate conflicts, and none is left
out. -/
theorem mem_committed_observed
    (h : Agrees g controllable classes s₁.held s₂.committed target.carrier domain.carrier)
    (c : ObservationClass) :
    let s₂' := ((Rule.observed g controllable classes).resolve target domain s₂).2
    let p := (s₂.committed c).joinAsked (askedIn g controllable classes target domain c)
    (∀ ev, ev ∈ (s₂'.committed c).disableAll ↔ ev ∈ p.disableAll) ∧
      ∀ events, events ∈ (s₂'.committed c).enableOne ↔ events ∈ p.enableOne := by
  intro s₂' p
  have hlevel : s₂'.level = s₂.level := rfl
  have htotal : s₂'.total = s₂.total := rfl
  have hround := getElem?_round_observed hg hapart h c
  rw [Records.committed, hlevel, htotal, hround]
  split_ifs with hnil
  · have hp : p = s₂.committed c := by
      simp only [p, hnil]
      rfl
    exact ⟨fun _ => hp ▸ Iff.rfl, fun _ => hp ▸ Iff.rfl⟩
  · simp only [p, Records.committed, Option.getD_some, ControlPattern.mem_disableAll_join,
      ControlPattern.mem_disableAll_joinAsked, ControlPattern.mem_enableOne_join,
      ControlPattern.mem_enableOne_joinAsked]
    exact ⟨fun _ => by grind, fun _ => by grind⟩

/-- After a step, the records agree. What a class has been promised is joined with
what its states ask for, and the round has recorded all of it. -/
theorem InStep.resolve (h : InStep g controllable classes target.carrier domain.carrier s₁ s₂) :
    InStep g controllable classes target.carrier domain.carrier
      ((Rule.feedback g controllable).resolve target domain s₁).2
      ((Rule.observed g controllable classes).resolve target domain s₂).2 where
  agrees := (h.agrees.step hg).congr (fun _ => rfl)
    (fun c => (mem_committed_observed hg hapart h.agrees c).1)
    (fun c => (mem_committed_observed hg hapart h.agrees c).2)
  round {c p} hp ev := by
    rw [(mem_committed_observed hg hapart h.agrees c).1]
    have hp' := getElem?_round_observed hg hapart h.agrees c
    rw [hp] at hp'
    split_ifs at hp' with hnil
    · rw [h.round hp'.symm ev, hnil]
      rfl
    · obtain rfl := Option.some.inj hp'
      simp only [ControlPattern.mem_disableAll_join, ControlPattern.mem_disableAll_joinAsked,
        Records.committed]
      tauto

/-- **One step of the two rules**: they find the same states, and their records
agree. A state is found by both if it has a record that drives it into the target. -/
theorem InStep.step (h : InStep g controllable classes target.carrier domain.carrier s₁ s₂) :
    let out₁ := (Rule.feedback g controllable).resolve target domain s₁
    let out₂ := (Rule.observed g controllable classes).resolve target domain s₂
    out₁.1 = out₂.1 ∧
      InStep g controllable classes target.carrier domain.carrier out₁.2 out₂.2 := by
  intro out₁ out₂
  have hnext : InStep g controllable classes target.carrier domain.carrier out₁.2 out₂.2 :=
    h.resolve hg hapart
  refine ⟨IdentSet.carrier_injective (Set.ext fun x => ?_), hnext⟩
  have hcarrier : out₁.1.carrier = g.drivable controllable target.carrier domain.carrier :=
    Rule.feedback_resolves target domain s₁
  rw [hcarrier, IdentSet.mem_carrier, Rule.mem_observed_resolve, Option.any_eq_true]
  constructor
  · intro hx
    obtain ⟨d, hd⟩ := Option.isSome_iff_exists.mp
      ((isSome_disabledToEnter_transitionsFrom hx.1).mpr hx)
    -- the state asks for something, so its class has a pattern in this round
    have hasked : askedIn g controllable classes target domain (ObservationClass.of classes x) ≠ [] :=
      List.ne_nil_of_mem ((mem_askedIn (a := (d, _)) hg).mpr ⟨x, hx.1, rfl, hd, rfl⟩)
    obtain ⟨p, hp⟩ : ∃ p, out₂.2.round[ObservationClass.of classes x]? = some p :=
      ⟨_, (getElem?_round_observed hg hapart h.agrees _).trans (if_neg hasked)⟩
    obtain ⟨d', hd'⟩ : ∃ d', out₁.2.held x = some d' := by
      rcases hrecord : s₁.held x with _ | d'
      · exact ⟨d, held_resolve.mpr (.inr ⟨hrecord, mem_disabledRows.mpr ⟨hx.1, hd⟩⟩)⟩
      · exact ⟨d', held_resolve.mpr (.inl hrecord)⟩
    exact ⟨hx.1, p, hp,
      hnext.agrees.entersUnder hapart (hnext.round hp) hd' (hnext.agrees.drives hd')⟩
  · rintro ⟨hx, p, hp, henters⟩
    exact mem_drivable_of_entersUnder hx henters fun ev hev =>
      hnext.agrees.subset_controllable ev ((hnext.round hp ev).mp hev)

/-- If no state is found, nothing is recorded. Only a state that is found asks for
something, and a class none of whose states asks keeps its pattern. -/
theorem InStep.round_of_carrier_eq_empty
    (h : InStep g controllable classes target.carrier domain.carrier s₁ s₂)
    (hempty : ((Rule.feedback g controllable).resolve target domain s₁).1.carrier = ∅) :
    (∀ x : StateId, ((Rule.feedback g controllable).resolve target domain s₁).2.round[x]? =
        s₁.round[x]?) ∧
      ∀ c : ObservationClass,
        ((Rule.observed g controllable classes).resolve target domain s₂).2.round[c]? =
          s₂.round[c]? := by
  have hrows : disabledRows g controllable target domain = [] := by
    refine List.eq_nil_iff_forall_not_mem.mpr fun row hrow => ?_
    have hmem : row.1 ∈ ((Rule.feedback g controllable).resolve target domain s₁).1.carrier :=
      IdentSet.mem_ofList.mpr (List.mem_map.mpr ⟨row, hrow, rfl⟩)
    rw [hempty] at hmem
    exact hmem
  constructor
  · intro x
    rw [Rule.feedback_resolve, hrows]
    simp [Std.ExtTreeMap.getElem?_union]
  · intro c
    rw [getElem?_round_observed hg hapart h.agrees, if_pos]
    refine List.eq_nil_iff_forall_not_mem.mpr fun a ha => ?_
    obtain ⟨x, hx, -, hd, -⟩ := (mem_askedIn hg).mp ha
    exact absurd (hrows ▸ mem_disabledRows.mpr ⟨hx, hd⟩) List.not_mem_nil

end

/-! ## The loops
 -/

section

variable {g : Automaton} {controllable : EventSet} {classes : ObserverMap} {plantMarking : StateSet}
  {s₁ : Records DisableMap} {s₂ : Records ClassPatterns}

/-- Sets are found equal by two rules on one automaton. -/
theorem tied_eq : Tied g g plantMarking plantMarking (· = ·) where
  size_eq h := congrArg _ h
  empty := rfl
  states := rfl
  union h h' := h ▸ h' ▸ rfl
  inter h h' := h ▸ h' ▸ rfl
  inter_marked h := h ▸ rfl
  sdiff_plantMarking h := h ▸ rfl

/-- Between two rounds, the records of the levels agree. There is no domain then,
and the records of the round are not looked at, since the next round begins without
any. -/
def AgreesOnLevels (g : Automaton) (controllable : EventSet) (classes : ObserverMap)
    (target : Set StateId) (s₁ : Records DisableMap) (s₂ : Records ClassPatterns) : Prop :=
  Agrees g controllable classes (fun x => s₁.total[x]?.or s₁.level[x]?)
    (fun c => (s₂.level[c]?.getD ∅).join (s₂.total[c]?.getD ∅)) target ∅

/-- Between two levels, the records that are kept for good agree. -/
def AgreesOnTotal (g : Automaton) (controllable : EventSet) (classes : ObserverMap)
    (target : Set StateId) (s₁ : Records DisableMap) (s₂ : Records ClassPatterns) : Prop :=
  Agrees g controllable classes (fun x => s₁.total[x]?) (fun c => s₂.total[c]?.getD ∅) target ∅

/-- No round has been recorded. -/
def BlankRound (s₁ : Records DisableMap) (s₂ : Records ClassPatterns) : Prop :=
  (∀ x : StateId, s₁.round[x]? = none) ∧ ∀ c : ObservationClass, s₂.round[c]? = none

/-- No level has been recorded. -/
def BlankLevel (s₁ : Records DisableMap) (s₂ : Records ClassPatterns) : Prop :=
  (∀ x : StateId, s₁.level[x]? = none) ∧ ∀ c : ObservationClass, s₂.level[c]? = none

/-- In a round the target and the domain may change, as long as nothing is lost. -/
theorem InStep.mono {target target' domain domain' : Set StateId}
    (h : InStep g controllable classes target domain s₁ s₂) (htarget : target ⊆ target')
    (hdomain : domain ⊆ target' ∪ domain') :
    InStep g controllable classes target' domain' s₁ s₂ :=
  ⟨h.agrees.mono htarget hdomain, h.round⟩

/-- The target of a level may grow. -/
theorem AgreesOnLevels.mono {target target' : Set StateId}
    (h : AgreesOnLevels g controllable classes target s₁ s₂) (htarget : target ⊆ target') :
    AgreesOnLevels g controllable classes target' s₁ s₂ :=
  Agrees.mono h htarget (Set.empty_subset _)

/-- And so may the target of all levels. -/
theorem AgreesOnTotal.mono {target target' : Set StateId}
    (h : AgreesOnTotal g controllable classes target s₁ s₂) (htarget : target ⊆ target') :
    AgreesOnTotal g controllable classes target' s₁ s₂ :=
  Agrees.mono h htarget (Set.empty_subset _)

/-- When a round begins, its own records are blank, and what was recorded before
agrees. -/
theorem AgreesOnLevels.inStep {target domain : Set StateId}
    (h : AgreesOnLevels g controllable classes target s₁ s₂) (hblank : BlankRound s₁ s₂) :
    InStep g controllable classes target domain s₁ s₂ := by
  refine ⟨(Agrees.mono h subset_rfl (Set.empty_subset _)).congr (fun x => ?_) (fun c ev => ?_)
    (fun c events => ?_), fun {c p} hp => ?_⟩
  · rw [Records.held, hblank.1, Option.or_none]
  · simp [Records.committed, hblank.2]
  · simp [Records.committed, hblank.2]
  · rw [hblank.2] at hp
    cases hp

/-- The records of a round are added to those of the level. -/
theorem InStep.agreesOnLevels {target domain : Set StateId}
    (h : InStep g controllable classes target domain s₁ s₂) (hdomain : domain ⊆ target) :
    AgreesOnLevels g controllable classes target ((Rule.feedback g controllable).endRound s₁)
      ((Rule.observed g controllable classes).endRound s₂) := by
  refine (h.agrees.mono subset_rfl (hdomain.trans Set.subset_union_left)).congr (fun x => ?_)
    (fun c ev => ?_) (fun c events => ?_)
  · change s₁.total[x]?.or (s₁.round ∪ s₁.level)[x]? = _
    rw [Std.ExtTreeMap.getElem?_union, Records.held, Option.or_assoc]
  · change ev ∈ (((s₂.level.join s₂.round)[c]?.getD ∅).join (s₂.total[c]?.getD ∅)).disableAll ↔ _
    simp only [Records.committed, ControlPattern.mem_disableAll_join,
      ClassPatterns.mem_disableAll_getElem?_join]
    tauto
  · change events ∈ (((s₂.level.join s₂.round)[c]?.getD ∅).join (s₂.total[c]?.getD ∅)).enableOne ↔ _
    simp only [Records.committed, ControlPattern.mem_enableOne_join,
      ClassPatterns.mem_enableOne_getElem?_join]
    tauto

/-- A round without records adds nothing to those of the level. -/
theorem AgreesOnLevels.endRound {target target' : Set StateId}
    (h : AgreesOnLevels g controllable classes target s₁ s₂) (hblank : BlankRound s₁ s₂)
    (htarget : target ⊆ target') :
    AgreesOnLevels g controllable classes target' ((Rule.feedback g controllable).endRound s₁)
      ((Rule.observed g controllable classes).endRound s₂) :=
  ((h.mono htarget).inStep hblank).agreesOnLevels (Set.empty_subset _)

/-- When a level begins, its own records are blank. -/
theorem AgreesOnTotal.agreesOnLevels {target : Set StateId}
    (h : AgreesOnTotal g controllable classes target s₁ s₂) (hblank : BlankLevel s₁ s₂) :
    AgreesOnLevels g controllable classes target s₁ s₂ := by
  refine h.congr (fun x => ?_) (fun c ev => ?_) fun c events => ?_
  · rw [hblank.1, Option.or_none]
  · simp [hblank.2]
  · simp [hblank.2]

/-- The records of a level are added to those that are kept for good. -/
theorem AgreesOnLevels.agreesOnTotal {target : Set StateId}
    (h : AgreesOnLevels g controllable classes target s₁ s₂) :
    AgreesOnTotal g controllable classes target ((Rule.feedback g controllable).endLevel s₁)
      ((Rule.observed g controllable classes).endLevel s₂) := by
  refine h.congr (fun x => ?_) (fun c ev => ?_) fun c events => ?_
  · change (s₁.level ∪ s₁.total)[x]? = _
    rw [Std.ExtTreeMap.getElem?_union]
  · change ev ∈ ((s₂.total.join s₂.level)[c]?.getD ∅).disableAll ↔ _
    simp only [ControlPattern.mem_disableAll_join, ClassPatterns.mem_disableAll_getElem?_join]
    tauto
  · change events ∈ ((s₂.total.join s₂.level)[c]?.getD ∅).enableOne ↔ _
    simp only [ControlPattern.mem_enableOne_join, ClassPatterns.mem_enableOne_getElem?_join]
    tauto

end

namespace Rule

variable {g : Automaton} {controllable : EventSet} {classes : ObserverMap} (plantMarking : StateSet)
  (hg : g.HasUniqueSuccessors) (hapart : g.ClassesApart controllable classes)
  {s₁ : Records DisableMap} {s₂ : Records ClassPatterns}
include hg hapart

/-- The innermost loops of the two rules. In each iteration the records agree for
what has been found so far. -/
theorem observed_attract (target domain : StateSet)
    (h : AgreesOnLevels g controllable classes target.carrier s₁ s₂) (hblank : BlankRound s₁ s₂) :
    let out₁ := ((feedback g controllable).attract g plantMarking target domain).outcome s₁
    let out₂ := ((observed g controllable classes).attract g plantMarking target domain).outcome s₂
    out₁.1 = out₂.1 ∧ (out₁.2.level = s₁.level ∧ out₁.2.total = s₁.total) ∧
      (out₂.2.level = s₂.level ∧ out₂.2.total = s₂.total) ∧
      InStep g controllable classes (target.carrier ∪ (out₁.1.carrier \ plantMarking.carrier))
        (domain.carrier \ plantMarking.carrier) out₁.2 out₂.2 ∧
      (out₁.1.carrier = ∅ → BlankRound out₁.2 out₂.2) := by
  refine attract_lockstep tied_eq (I := fun near s₁' s₂' =>
    (s₁'.level = s₁.level ∧ s₁'.total = s₁.total) ∧ (s₂'.level = s₂.level ∧ s₂'.total = s₂.total) ∧
      InStep g controllable classes (target.carrier ∪ (near.carrier \ plantMarking.carrier))
        (domain.carrier \ plantMarking.carrier) s₁' s₂' ∧
      (near.carrier = ∅ → BlankRound s₁' s₂')) ?_ ⟨⟨rfl, rfl⟩, ⟨rfl, rfl⟩, ?_, fun _ => hblank⟩
  · rintro near _ s₁' s₂' rfl ⟨hkept₁, hkept₂, hstep, hround⟩ out₁ out₂
    rw [← IdentSet.carrier_sdiff, ← IdentSet.carrier_sdiff, ← IdentSet.carrier_union] at hstep
    obtain ⟨heq, hnext⟩ := hstep.step hg hapart
    refine ⟨heq, hkept₁, hkept₂, ?_, fun hempty => ?_⟩
    · rw [IdentSet.carrier_union, IdentSet.carrier_sdiff, IdentSet.carrier_sdiff] at hnext
      refine hnext.mono (Set.union_subset_union_right _ (Set.sdiff_subset_sdiff_left ?_))
        Set.subset_union_right
      rw [IdentSet.carrier_union]
      exact Set.subset_union_left
    · rw [IdentSet.carrier_union, Set.union_empty_iff] at hempty
      obtain ⟨hround₁, hround₂⟩ := hstep.round_of_carrier_eq_empty hg hapart hempty.2
      obtain ⟨hblank₁, hblank₂⟩ := hround hempty.1
      exact ⟨fun x => (hround₁ x).trans (hblank₁ x), fun c => (hround₂ c).trans (hblank₂ c)⟩
  · rw [IdentSet.carrier_empty, Set.empty_sdiff, Set.union_empty]
    exact h.inStep hblank

/-- The fourth loops. Each round throws the records of the one before away, on both
sides. If they find no state, they leave no records behind: a loop that ends since
nothing is left keeps its records all the same. -/
theorem observed_stay (resolved target : StateSet)
    (h : AgreesOnLevels g controllable classes target.carrier s₁ s₂) :
    let out₁ := ((feedback g controllable).stay g plantMarking resolved target).outcome s₁
    let out₂ := ((observed g controllable classes).stay g plantMarking resolved target).outcome s₂
    out₁.1 = out₂.1 ∧ (out₁.2.total = s₁.total ∧ out₂.2.total = s₂.total) ∧
      AgreesOnLevels g controllable classes (target.carrier ∪ out₁.1.carrier) out₁.2 out₂.2 ∧
      (out₁.1.carrier = ∅ → BlankLevel s₁ s₂ → BlankLevel out₁.2 out₂.2) := by
  intro out₁ out₂
  have hloops := stay_lockstep (observed g controllable classes) (@tied_eq g plantMarking)
      (@feedback_resolves g controllable) resolved resolved target target s₁ s₂
      (I := fun s₁' s₂' => (s₁'.level = s₁.level ∧ s₁'.total = s₁.total) ∧
        (s₂'.level = s₂.level ∧ s₂'.total = s₂.total))
      (K := fun domain near s₁' s₂' => near.carrier ⊆ domain.carrier ∧
        InStep g controllable classes (target.carrier ∪ (near.carrier \ plantMarking.carrier))
          (domain.carrier \ plantMarking.carrier) s₁' s₂' ∧
        (near.carrier = ∅ → BlankRound s₁' s₂')) ?_ ⟨⟨rfl, rfl⟩, ⟨rfl, rfl⟩⟩
  · -- what the last round has recorded agrees, and is added to the level
    obtain ⟨heq, domain, s₁', s₂', hout₁, hout₂, ⟨⟨hlevel₁, htotal₁⟩, hlevel₂, htotal₂⟩,
      ⟨hdomain, hstep, hround⟩, hlast⟩ := hloops
    have hkept : AgreesOnLevels g controllable classes target.carrier s₁' s₂' := by
      rw [AgreesOnLevels, hlevel₁, htotal₁, hlevel₂, htotal₂]
      exact h
    have hout₁ : out₁.2 = (feedback g controllable).endRound s₁' := hout₁
    have hout₂ : out₂.2 = (observed g controllable classes).endRound s₂' := hout₂
    rw [hout₁, hout₂]
    refine ⟨heq, ⟨htotal₁, htotal₂⟩, ?_, fun hempty hblank => ?_⟩
    · -- either the last round has found its own domain, or it has found nothing and
      -- recorded nothing
      rcases hlast with hlast | hempty
      · have hlast : domain = out₁.1 := hlast
        rw [hlast] at hstep
        have hsettled : InStep g controllable classes (target.carrier ∪ out₁.1.carrier)
            out₁.1.carrier s₁' s₂' := hstep.mono
          (Set.union_subset_union_right _ Set.sdiff_subset)
          (Set.sdiff_subset.trans Set.subset_union_right)
        exact hsettled.agreesOnLevels Set.subset_union_right
      · exact hkept.endRound (hround hempty) Set.subset_union_left
    · obtain ⟨hround₁, hround₂⟩ := hround hempty
      constructor
      · intro x
        change (s₁'.round ∪ s₁'.level)[x]? = none
        rw [Std.ExtTreeMap.getElem?_union, hlevel₁, hblank.1, hround₁, Option.or_none]
      · intro c
        change (s₂'.level.join s₂'.round)[c]? = none
        rw [ClassPatterns.getElem?_join, hround₂, hlevel₂, hblank.2]
  · -- each round begins without records of its own, and changes no others
    rintro domain _ s₁' s₂' rfl ⟨⟨hlevel₁, htotal₁⟩, hlevel₂, htotal₂⟩ out₁ out₂
    have hstart : AgreesOnLevels g controllable classes target.carrier
        ((feedback g controllable).beginRound s₁')
        ((observed g controllable classes).beginRound s₂') := by
      change Agrees g controllable classes (fun x => s₁'.total[x]?.or s₁'.level[x]?)
        (fun c => (s₂'.level[c]?.getD ∅).join (s₂'.total[c]?.getD ∅)) _ _
      rw [hlevel₁, htotal₁, hlevel₂, htotal₂]
      exact h
    have hblank : BlankRound ((feedback g controllable).beginRound s₁')
        ((observed g controllable classes).beginRound s₂') :=
      ⟨fun _ => Std.ExtTreeMap.getElem?_empty, fun _ => Std.ExtTreeMap.getElem?_empty⟩
    obtain ⟨heq, ⟨hlevel₁', htotal₁'⟩, ⟨hlevel₂', htotal₂'⟩, hstep, hround⟩ :=
      observed_attract plantMarking hg hapart target domain hstart hblank
    exact ⟨heq, ⟨⟨hlevel₁'.trans hlevel₁, htotal₁'.trans htotal₁⟩, hlevel₂'.trans hlevel₂,
      htotal₂'.trans htotal₂⟩, fun hsub => ⟨hsub, hstep, hround⟩⟩

/-- The third loops. They add to the level what the fourth ones find, so both sides
go on in step until nothing is added. If they find no state, they leave no records
behind. -/
theorem observed_approach (resolved target : StateSet)
    (h : AgreesOnTotal g controllable classes target.carrier s₁ s₂) (hblank : BlankLevel s₁ s₂) :
    let out₁ := ((feedback g controllable).approach g plantMarking resolved target).outcome s₁
    let out₂ := ((observed g controllable classes).approach g plantMarking resolved target).outcome s₂
    out₁.1 = out₂.1 ∧ (out₁.2.total = s₁.total ∧ out₂.2.total = s₂.total) ∧
      AgreesOnLevels g controllable classes (target.carrier ∪ out₁.1.carrier) out₁.2 out₂.2 ∧
      (out₁.1.carrier = ∅ → BlankLevel out₁.2 out₂.2) := by
  refine approach_lockstep tied_eq (I := fun near s₁' s₂' =>
    (s₁'.total = s₁.total ∧ s₂'.total = s₂.total) ∧
      AgreesOnLevels g controllable classes (target.carrier ∪ near.carrier) s₁' s₂' ∧
      (near.carrier = ∅ → BlankLevel s₁' s₂')) ?_ ⟨⟨rfl, rfl⟩, ?_, fun _ => hblank⟩
  · rintro near _ s₁' s₂' rfl ⟨⟨htotal₁, htotal₂⟩, hlevels, hlevel⟩ out₁ out₂
    rw [← IdentSet.carrier_union] at hlevels
    obtain ⟨heq, ⟨htotal₁', htotal₂'⟩, hnext, hlevel'⟩ :=
      observed_stay plantMarking hg hapart resolved (target ∪ near) hlevels
    refine ⟨heq, ⟨htotal₁'.trans htotal₁, htotal₂'.trans htotal₂⟩, ?_, fun hempty => ?_⟩
    · rw [IdentSet.carrier_union, ← Set.union_assoc, ← IdentSet.carrier_union]
      exact hnext
    · rw [IdentSet.carrier_union, Set.union_empty_iff] at hempty
      exact hlevel' hempty.2 (hlevel hempty.1)
  · rw [IdentSet.carrier_empty, Set.union_empty]
    exact h.agreesOnLevels hblank

/-- The second loops. In each iteration the target is another one, but what is kept
for good was recorded for the states that were resolved. -/
theorem observed_recur (resolved : StateSet)
    (h : AgreesOnTotal g controllable classes resolved.carrier s₁ s₂) :
    let out₁ := ((feedback g controllable).recur g plantMarking resolved).outcome s₁
    let out₂ := ((observed g controllable classes).recur g plantMarking resolved).outcome s₂
    out₁.1 = out₂.1 ∧
      AgreesOnTotal g controllable classes (resolved.carrier ∪ out₁.1.carrier) out₁.2 out₂.2 := by
  intro out₁ out₂
  have hloops := recur_lockstep (observed g controllable classes) (@tied_eq g plantMarking)
      (@feedback_resolves g controllable) resolved resolved s₁ s₂
      (I := fun s₁' s₂' => s₁'.total = s₁.total ∧ s₂'.total = s₂.total)
      (K := fun states near s₁' s₂' => AgreesOnLevels g controllable classes
          (((states ∩ g.marked) ∪ resolved).carrier ∪ near.carrier) s₁' s₂' ∧
        (near.carrier = ∅ → BlankLevel s₁' s₂')) ?_ ⟨rfl, rfl⟩
  · -- what the last level has recorded agrees, and is kept for good
    obtain ⟨heq, states, s₁', s₂', hout₁, hout₂, ⟨htotal₁, htotal₂⟩, ⟨hlevels, hlevel⟩,
      hlast⟩ := hloops
    have hkept : AgreesOnTotal g controllable classes resolved.carrier s₁' s₂' := by
      rw [AgreesOnTotal, htotal₁, htotal₂]
      exact h
    have hout₁ : out₁.2 = (feedback g controllable).endLevel s₁' := hout₁
    have hout₂ : out₂.2 = (observed g controllable classes).endLevel s₂' := hout₂
    rw [hout₁, hout₂]
    refine ⟨heq, ?_⟩
    rcases hlast with hlast | hempty
    · have hlast : states = out₁.1 := hlast
      rw [hlast] at hlevels
      refine (hlevels.mono (Set.union_subset ?_ Set.subset_union_right)).agreesOnTotal
      rw [IdentSet.carrier_union, IdentSet.carrier_inter]
      exact Set.union_subset (Set.inter_subset_left.trans Set.subset_union_right)
        Set.subset_union_left
    · exact ((hkept.mono Set.subset_union_left).agreesOnLevels (hlevel hempty)).agreesOnTotal
  · -- each level begins without records of its own
    rintro states _ s₁' s₂' rfl ⟨htotal₁, htotal₂⟩ out₁ out₂
    have hstart : AgreesOnTotal g controllable classes ((states ∩ g.marked) ∪ resolved).carrier
        ((feedback g controllable).beginLevel s₁')
        ((observed g controllable classes).beginLevel s₂') := by
      change Agrees g controllable classes (fun x => s₁'.total[x]?) (fun c => s₂'.total[c]?.getD ∅) _ _
      rw [htotal₁, htotal₂, IdentSet.carrier_union]
      exact AgreesOnTotal.mono h Set.subset_union_right
    have hblank : BlankLevel ((feedback g controllable).beginLevel s₁')
        ((observed g controllable classes).beginLevel s₂') :=
      ⟨fun _ => Std.ExtTreeMap.getElem?_empty, fun _ => Std.ExtTreeMap.getElem?_empty⟩
    obtain ⟨heq, ⟨htotal₁', htotal₂'⟩, hlevels, hlevel⟩ :=
      observed_approach plantMarking hg hapart resolved ((states ∩ g.marked) ∪ resolved) hstart
        hblank
    exact ⟨heq, ⟨htotal₁'.trans htotal₁, htotal₂'.trans htotal₂⟩, hlevels, hlevel⟩

/-- **The two rules find the same states**, and what the patterns disable in the end is what
has been recorded for the states. -/
theorem observed_agrees :
    let out₁ := ((feedback g controllable).enforceable g plantMarking).value
    let out₂ := ((observed g controllable classes).enforceable g plantMarking).value
    out₁.1 = out₂.1 ∧ AgreesOnTotal g controllable classes out₁.1.carrier out₁.2 out₂.2 := by
  refine enforceable_lockstep tied_eq (I := fun resolved s₁ s₂ =>
    AgreesOnTotal g controllable classes resolved.carrier s₁ s₂) ?_ ?_
  · rintro resolved _ s₁ s₂ rfl h out₁ out₂
    rw [IdentSet.carrier_union]
    exact observed_recur plantMarking hg hapart resolved h
  · exact Agrees.blank (fun _ => Std.ExtTreeMap.getElem?_empty)
      fun _ => congrArg (Option.getD · ∅) Std.ExtTreeMap.getElem?_empty

end Rule

end OmegaControl
