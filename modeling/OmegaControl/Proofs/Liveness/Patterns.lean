import OmegaControl.Liveness.Observed
import OmegaControl.Proofs.JoinByEvent
import OmegaControl.Proofs.Liveness.Drive

/-!
# What a class is asked for

What the operations on patterns and on records of patterns do, class by class, and
what the states of a class ask for in one step.

A state asks for what the rule for full observation would record for it, and for one
of the events that enter the target (`askedOf_eq`). So as long as each class is a
single state, both rules do the same. The candidate for a class adds what its states
ask for to what has been promised to the class (`getElem?_candidatePatterns`). A
state is found if it enters the target under the pattern that its class has in the
end, and not because it has asked for it (`Rule.mem_observed_resolve`).
-/

namespace OmegaControl

namespace ControlPattern

variable {p q : ControlPattern} {ev : EventId} {events : EventSet}

/-- The empty pattern disables nothing. -/
@[simp] theorem not_mem_disableAll_empty : ev ∉ (∅ : ControlPattern).disableAll :=
  IdentSet.not_mem_empty

@[simp] theorem not_mem_enableOne_empty : events ∉ (∅ : ControlPattern).enableOne :=
  Std.ExtTreeSet.not_mem_empty

@[simp] theorem mem_disableAll_join :
    ev ∈ (p.join q).disableAll ↔ ev ∈ p.disableAll ∨ ev ∈ q.disableAll := IdentSet.mem_union

@[simp] theorem mem_enableOne_join :
    events ∈ (p.join q).enableOne ↔ events ∈ p.enableOne ∨ events ∈ q.enableOne :=
  Std.ExtTreeSet.mem_union_iff

/-- A pattern is conflicting if all of some set are disabled of which one event
should stay. -/
theorem isConflicting_iff :
    p.isConflicting = true ↔ ∃ events ∈ p.enableOne, events ⊆ p.disableAll := by
  simp only [isConflicting, List.any_eq_true, Std.ExtTreeSet.mem_toList, IdentSet.subset_iff]

/-- What a pattern asks for, with what each of a list of states asks for. -/
def joinAsked (p : ControlPattern) (asked : List (EventSet × EventSet)) : ControlPattern :=
  asked.foldl (fun p (disable, enable) => p.join ⟨disable, (∅ : Std.ExtTreeSet _).insert enable⟩) p

variable {asked : List (EventSet × EventSet)}

/-- What is disabled was so before, or is asked for by some state. -/
theorem mem_disableAll_joinAsked : ev ∈ (p.joinAsked asked).disableAll ↔
    ev ∈ p.disableAll ∨ ∃ a ∈ asked, ev ∈ a.1 := by
  induction asked generalizing p with
  | nil => simp [joinAsked]
  | cons a asked ih =>
    rw [joinAsked, List.foldl_cons, ← joinAsked, ih, mem_disableAll_join]
    simp [or_assoc]

/-- A set of which one event should stay was asked for before, or is by some state. -/
theorem mem_enableOne_joinAsked : events ∈ (p.joinAsked asked).enableOne ↔
    events ∈ p.enableOne ∨ ∃ a ∈ asked, events = a.2 := by
  induction asked generalizing p with
  | nil => simp [joinAsked]
  | cons a asked ih =>
    rw [joinAsked, List.foldl_cons, ← joinAsked, ih, mem_enableOne_join]
    simp [Std.ExtTreeSet.mem_insert, or_assoc, eq_comm (a := events)]

end ControlPattern

/-! ## Records of patterns
 -/

namespace ClassPatterns

variable {c c' : ObservationClass} {p : ControlPattern} {older newer : ClassPatterns}

/-- What is asked of one class does not touch the others. -/
theorem getElem?_demand (m : ClassPatterns) : (m.demand c p)[c']? =
    if c = c' then some ((m[c]?.getD ∅).join p) else m[c']? := by
  rw [demand, Std.ExtTreeMap.getElem?_insert]
  simp only [Std.compare_eq_iff_eq]

/-- Each pattern is added to what was asked of its class. A class that only the
older record knows keeps its pattern. -/
theorem getElem?_join : (older.join newer)[c]? =
    match newer[c]? with
    | none => older[c]?
    | some p => some ((older[c]?.getD ∅).join p) := by
  -- no class comes twice among the newer patterns, so the pattern of `c` is changed
  -- once at most
  have hfold : ∀ {l : List (ObservationClass × ControlPattern)}, (l.map Prod.fst).Nodup →
      ∀ m : ClassPatterns,
      ((∀ p, (c, p) ∉ l) → (l.foldl (fun m a => m.demand a.1 a.2) m)[c]? = m[c]?) ∧
        ∀ p, (c, p) ∈ l → (l.foldl (fun m a => m.demand a.1 a.2) m)[c]? =
          some ((m[c]?.getD ∅).join p) := by
    intro l hl
    induction l with
    | nil => simp
    | cons a l ih =>
      obtain ⟨d, q⟩ := a
      obtain ⟨hd, hl⟩ := List.nodup_cons.mp hl
      intro m
      obtain ⟨hnone, hsome⟩ := ih hl (m.demand d q)
      simp only [List.foldl_cons]
      refine ⟨fun habsent => ?_, fun p hp => ?_⟩
      · have hne : d ≠ c := fun he => habsent q (he ▸ List.mem_cons_self)
        rw [hnone fun p hp => habsent p (List.mem_cons_of_mem _ hp), getElem?_demand, if_neg hne]
      · rcases List.mem_cons.mp hp with heq | hp
        · obtain ⟨rfl, rfl⟩ := Prod.mk.inj heq
          rw [hnone fun p hp => hd (List.mem_map.mpr ⟨_, hp, rfl⟩), getElem?_demand, if_pos rfl]
        · have hne : d ≠ c := fun he => hd (List.mem_map.mpr ⟨_, hp, he.symm⟩)
          rw [hsome p hp, getElem?_demand, if_neg hne]
  have hnodup : (newer.toList.map Prod.fst).Nodup := by
    rw [Std.ExtTreeMap.map_fst_toList_eq_keys]
    exact Std.ExtTreeMap.distinct_keys.imp fun h he => h (Std.compare_eq_iff_eq.mpr he)
  obtain ⟨hnone, hsome⟩ := hfold hnodup older
  rw [join]
  rcases hnewer : newer[c]? with _ | p
  · refine hnone fun p hp => ?_
    rw [Std.ExtTreeMap.mem_toList_iff_getElem?_eq_some, hnewer] at hp
    cases hp
  · exact hsome p (Std.ExtTreeMap.mem_toList_iff_getElem?_eq_some.mpr hnewer)

variable {ev : EventId} {events : EventSet}

/-- Joined records disable what either of them disables. A class without a pattern
asks for nothing. -/
@[simp] theorem mem_disableAll_getElem?_join : ev ∈ ((older.join newer)[c]?.getD ∅).disableAll ↔
    ev ∈ (older[c]?.getD ∅).disableAll ∨ ev ∈ (newer[c]?.getD ∅).disableAll := by
  rw [getElem?_join]
  split <;> simp [*]

@[simp] theorem mem_enableOne_getElem?_join :
    events ∈ ((older.join newer)[c]?.getD ∅).enableOne ↔
      events ∈ (older[c]?.getD ∅).enableOne ∨ events ∈ (newer[c]?.getD ∅).enableOne := by
  rw [getElem?_join]
  split <;> simp [*]

end ClassPatterns

/-! ## What is asked for in one step

`askedOf` goes through the transitions of a state with what is to be disabled and
what enters so far. The lemmas are about any such values, since the induction needs
them. -/

section

variable {controllable : EventSet} {target domain : StateSet} {disable enable : EventSet}
  {ts : List Transition}

/-- Only controllable events are asked to be disabled. -/
theorem askedOf_subset {d e : EventSet}
    (h : askedOf controllable target domain disable enable ts = some (d, e))
    (hdisable : disable ⊆ controllable) : d ⊆ controllable := by
  fun_induction askedOf controllable target domain disable enable ts with
  | case1 => cases h
  | case2 => exact (Prod.mk.inj (Option.some.inj h)).1 ▸ hdisable
  | case3 _ _ _ _ _ ih => exact ih h hdisable
  | case4 _ _ _ _ _ _ ih => exact ih h hdisable
  | case5 _ _ _ _ _ _ _ ih => exact ih h hdisable
  | case6 => cases h
  | case7 disable enable t ts _ _ _ hev ih =>
    refine ih h fun ev hmem => ?_
    rcases IdentSet.mem_insert.mp hmem with rfl | hmem
    · exact Classical.not_not.mp hev
    · exact hdisable ev hmem

/-- The events that enter the target. -/
def enteringEvents (target : StateSet) (ts : List Transition) : EventSet :=
  IdentSet.ofList ((ts.filter (·.target ∈ target)).map (·.event))

theorem mem_enteringEvents {ev : EventId} :
    ev ∈ enteringEvents target ts ↔ ∃ t ∈ ts, t.event = ev ∧ t.target ∈ target := by
  simp only [enteringEvents, IdentSet.mem_ofList, List.mem_map, List.mem_filter, decide_eq_true_eq]
  exact exists_congr fun t => by tauto

/-- After a transition that comes first, no other one has its event. So an event
that is asked to be disabled is not met again, and the test for this is never taken
where a state has one transition for each event. -/
theorem AscendsByEvent.not_mem_insert {t : Transition} (hts : AscendsByEvent (t :: ts))
    (hdisable : ∀ u ∈ t :: ts, u.event ∉ disable) {u : Transition} (hu : u ∈ ts) :
    u.event ∉ disable.insert t.event := by
  intro hmem
  rcases IdentSet.mem_insert.mp hmem with he | hmem
  · have hlt := (List.pairwise_cons.mp hts).1 u hu
    rw [he] at hlt
    exact Nat.lt_irrefl _ hlt
  · exact hdisable u (List.mem_cons_of_mem t hu) hmem

/-- When an answer is given: an event enters the target, or has done so before, and
no uncontrollable event leads outside. -/
theorem isSome_askedOf (hts : AscendsByEvent ts) (hdisable : ∀ t ∈ ts, t.event ∉ disable) :
    (askedOf controllable target domain disable enable ts).isSome ↔
      ((∃ ev, ev ∈ enable) ∨ ∃ t ∈ ts, t.target ∈ target) ∧
        ∀ t ∈ ts, t.event ∉ controllable → t.target ∈ target ∨ t.target ∈ domain := by
  fun_induction askedOf controllable target domain disable enable ts with
  | case1 disable enable hempty => simp [IdentSet.isEmpty_iff.mp hempty]
  | case2 disable enable hne => simpa [IdentSet.isEmpty_iff] using hne
  | case3 disable enable t ts hmem => exact absurd hmem (hdisable t List.mem_cons_self)
  | case4 disable enable t ts hmem htarget ih =>
    rw [ih (List.Pairwise.of_cons hts) fun u hu => hdisable u (List.mem_cons_of_mem t hu)]
    simp only [List.mem_cons, exists_eq_or_imp, forall_eq_or_imp, IdentSet.mem_insert, htarget]
    simp
  | case5 disable enable t ts hmem htarget hdomain ih =>
    rw [ih (List.Pairwise.of_cons hts) fun u hu => hdisable u (List.mem_cons_of_mem t hu)]
    simp [htarget, hdomain]
  | case6 disable enable t ts hmem htarget hdomain hev => simp [htarget, hdomain, hev]
  | case7 disable enable t ts hmem htarget hdomain hev ih =>
    rw [ih (List.Pairwise.of_cons hts) fun u hu => hts.not_mem_insert hdisable hu]
    simp [htarget, hdomain, Classical.not_not.mp hev]

/-- What the answer is: the events that lead outside, and those that enter the
target, with what was there before. -/
theorem mem_of_askedOf {d e : EventSet} (hts : AscendsByEvent ts)
    (hdisable : ∀ t ∈ ts, t.event ∉ disable)
    (h : askedOf controllable target domain disable enable ts = some (d, e)) (ev : EventId) :
    (ev ∈ d ↔ ev ∈ disable ∨ ∃ t ∈ ts, t.event = ev ∧ t.target ∉ target ∧ t.target ∉ domain) ∧
      (ev ∈ e ↔ ev ∈ enable ∨ ∃ t ∈ ts, t.event = ev ∧ t.target ∈ target) := by
  -- each transition adds its event to one of the two sets or to neither
  fun_induction askedOf controllable target domain disable enable ts with
  | case1 => cases h
  | case2 disable enable =>
    obtain ⟨rfl, rfl⟩ := Prod.mk.inj (Option.some.inj h)
    simp
  | case3 disable enable t ts hmem => exact absurd hmem (hdisable t List.mem_cons_self)
  | case4 disable enable t ts hmem htarget ih =>
    obtain ⟨hd, he⟩ := ih (List.Pairwise.of_cons hts)
      (fun u hu => hdisable u (List.mem_cons_of_mem t hu)) h
    rw [hd, he]
    simp [htarget, or_assoc, or_left_comm, eq_comm (a := ev)]
  | case5 disable enable t ts hmem htarget hdomain ih =>
    obtain ⟨hd, he⟩ := ih (List.Pairwise.of_cons hts)
      (fun u hu => hdisable u (List.mem_cons_of_mem t hu)) h
    rw [hd, he]
    simp [htarget, hdomain]
  | case6 => cases h
  | case7 disable enable t ts hmem htarget hdomain hev ih =>
    obtain ⟨hd, he⟩ := ih (List.Pairwise.of_cons hts)
      (fun u hu => hts.not_mem_insert hdisable hu) h
    rw [hd, he]
    simp [htarget, hdomain, or_assoc, or_left_comm, eq_comm (a := ev)]

/-- **A state asks for what is recorded for it** under full observation, and for one
of the events that enter the target. The two functions go through the transitions in
different ways, and the comparison is by what they say of each event. -/
theorem askedOf_eq (hts : AscendsByEvent ts) : askedOf controllable target domain ∅ ∅ ts =
    (disabledToEnter controllable target domain ts).map fun d => (d, enteringEvents target ts) := by
  have hnone : ∀ t ∈ ts, t.event ∉ (∅ : EventSet) := fun _ _ => IdentSet.not_mem_empty
  have hsome : (askedOf controllable target domain ∅ ∅ ts).isSome ↔
      (disabledToEnter controllable target domain ts).isSome := by
    rw [isSome_askedOf hts hnone, isSome_disabledToEnter]
    simp
  rcases hasked : askedOf controllable target domain ∅ ∅ ts with _ | ⟨d, e⟩
  · rw [hasked] at hsome
    rw [Option.not_isSome_iff_eq_none.mp fun h => Bool.noConfusion (hsome.mpr h)]
    rfl
  · rw [hasked] at hsome
    obtain ⟨d', hd'⟩ := Option.isSome_iff_exists.mp (hsome.mp rfl)
    have hmem := mem_of_askedOf hts hnone hasked
    have hd : d = d' := IdentSet.ext fun ev => by
      rw [(hmem ev).1, mem_of_disabledToEnter hd']
      simp
    have he : e = enteringEvents target ts := IdentSet.ext fun ev => by
      rw [(hmem ev).2, mem_enteringEvents]
      simp
    rw [hd', hd, he]
    rfl

end

/-! ## The candidates for the classes
 -/

/-- What the states of a class ask for. A state that cannot be driven asks for
nothing. -/
def askedBy (rows : List (StateId × List Transition)) (controllable : EventSet)
    (classes : ObserverMap) (target domain : StateSet) (c : ObservationClass) :
    List (EventSet × EventSet) :=
  rows.filterMap fun (x, ts) =>
    if ObservationClass.of classes x = c then askedOf controllable target domain ∅ ∅ ts else none

theorem askedBy_cons {rows : List (StateId × List Transition)} {controllable : EventSet}
    {classes : ObserverMap} {target domain : StateSet} {c : ObservationClass} {x : StateId}
    {ts : List Transition} :
    askedBy ((x, ts) :: rows) controllable classes target domain c =
      (if ObservationClass.of classes x = c then askedOf controllable target domain ∅ ∅ ts
        else none).toList ++ askedBy rows controllable classes target domain c := by
  rw [askedBy, List.filterMap_cons]
  split <;> simp_all [askedBy]

/-- **The candidate for a class** adds to what has been promised what its states ask
for. A class none of whose states can be driven has no candidate. -/
theorem getElem?_candidatePatterns (rows : List (StateId × List Transition))
    (controllable : EventSet) (classes : ObserverMap) (target domain : StateSet)
    (s : Records ClassPatterns) (c : ObservationClass) :
    let asked := askedBy rows controllable classes target domain c
    (candidatePatterns rows controllable classes target domain s)[c]? =
      if asked = [] then none else some ((s.committed c).joinAsked asked) := by
  -- the rows are gone through with the candidates that were made from earlier ones
  have hfold : ∀ m : ClassPatterns,
      (rows.foldl (addAsked controllable classes target domain s) m)[c]? =
      if askedBy rows controllable classes target domain c = [] then m[c]?
      else some ((m[c]?.getD (s.committed c)).joinAsked
        (askedBy rows controllable classes target domain c)) := by
    induction rows with
    | nil => intro m; rfl
    | cons row rows ih =>
      obtain ⟨x, ts⟩ := row
      intro m
      rw [List.foldl_cons, ih, askedBy_cons, addAsked]
      rcases askedOf controllable target domain ∅ ∅ ts with _ | ⟨d, e⟩
      · simp
      · by_cases hc : ObservationClass.of classes x = c
        · simp only [Std.ExtTreeMap.getElem?_insert, hc, Std.compare_self, ↓reduceIte,
            Option.getD_some, Option.toList_some, List.cons_append, List.nil_append,
            List.cons_ne_nil]
          split
          next hnil =>
            rw [hnil]
            rfl
          next => rfl
        · simp [Std.ExtTreeMap.getElem?_insert, hc]
  rw [candidatePatterns]
  refine (hfold ∅).trans ?_
  rw [Std.ExtTreeMap.getElem?_empty]
  rfl

section

variable {g : Automaton} {controllable : EventSet} {classes : ObserverMap}
  {target domain : StateSet} {c : ObservationClass} {a : EventSet × EventSet}

/-- The rows are those of the states of the automaton, so this can be said without
them. -/
theorem mem_askedBy_rows : a ∈ askedBy g.rows controllable classes target domain c ↔
    ∃ x ∈ g.states, ObservationClass.of classes x = c ∧
      askedOf controllable target domain ∅ ∅ (g.transitionsFrom x) = some a := by
  rw [askedBy, List.mem_filterMap]
  constructor
  · rintro ⟨⟨x, ts⟩, hrow, hasked⟩
    obtain ⟨hx, rfl⟩ := Automaton.mem_rows.mp hrow
    obtain ⟨hc, hasked⟩ := Option.ite_none_right_eq_some.mp hasked
    exact ⟨x, hx, hc, hasked⟩
  · rintro ⟨x, hx, hc, hasked⟩
    exact ⟨(x, g.transitionsFrom x), Automaton.mem_rows.mpr ⟨hx, rfl⟩,
      Option.ite_none_right_eq_some.mpr ⟨hc, hasked⟩⟩

end

/-- Does a state enter the target and stay inside target and domain? -/
theorem entersUnder_iff {target domain : StateSet} {ts : List Transition} {p : ControlPattern} :
    entersUnder target domain ts p = true ↔
      (∃ t ∈ ts, t.event ∉ p.disableAll ∧ t.target ∈ target) ∧
        ∀ t ∈ ts, t.event ∉ p.disableAll → t.target ∈ target ∨ t.target ∈ domain := by
  simp only [entersUnder, Bool.and_eq_true, List.any_eq_true, List.all_eq_true, List.mem_filter,
    decide_eq_true_eq, and_assoc, and_imp]

/-- A pattern that disables controllable events drives a state only where it can be
driven. So what is found under partial observation is among what is found under full
observation. -/
theorem mem_drivable_of_entersUnder {g : Automaton} {controllable : EventSet}
    {target domain : StateSet} {x : StateId} {p : ControlPattern} (hx : x ∈ g.states)
    (henters : entersUnder target domain (g.transitionsFrom x) p = true)
    (hp : p.disableAll ⊆ controllable) : x ∈ g.drivable controllable target.carrier domain.carrier := by
  obtain ⟨⟨t, ht, -, htarget⟩, hall⟩ := entersUnder_iff.mp henters
  obtain ⟨ht, hsource⟩ := Automaton.mem_transitionsFrom.mp ht
  refine ⟨hx, ⟨t, ht, hsource, htarget⟩, fun u hu husource hev => ?_⟩
  exact hall u (Automaton.mem_transitionsFrom.mpr ⟨hu, husource⟩) fun hmem => hev (hp _ hmem)

/-- The states that the rule finds are those that enter the target under the pattern
of the round, the candidates that are not conflicting being part of it already. -/
theorem Rule.mem_observed_resolve {g : Automaton} {controllable : EventSet} {classes : ObserverMap}
    {target domain : StateSet} {s : Records ClassPatterns} {x : StateId} :
    x ∈ ((Rule.observed g controllable classes).resolve target domain s).1 ↔ x ∈ g.states ∧
      (((Rule.observed g controllable classes).resolve target domain s).2.round[
        ObservationClass.of classes x]?.any
          (entersUnder target domain (g.transitionsFrom x))) = true := by
  refine IdentSet.mem_ofList.trans ?_
  simp only [List.mem_map, List.mem_filter, Prod.exists, Automaton.mem_rows]
  constructor
  · rintro ⟨x, ts, ⟨⟨hx, rfl⟩, henters⟩, rfl⟩
    exact ⟨hx, henters⟩
  · rintro ⟨hx, henters⟩
    exact ⟨x, _, ⟨⟨hx, rfl⟩, henters⟩, rfl⟩

end OmegaControl
