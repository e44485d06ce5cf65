import OmegaControl.Proofs.Liveness.Commitments

/-!
# Where patterns confine a loop

Patterns do not keep all that a state asks for, but what they disable stays
disabled, as they are only ever joined. So a state that was once driven into a
target cannot go anywhere else later on (`Confined`), and merging what is confined
step by step gives one bound for all states that are left
(`Rule.confined_enforceable`).

The bound is a rank. A step leads to a smaller rank or, within one rank, out of the
plant marking. So along a cycle the rank never falls, and such a cycle comes by no
state of the plant marking, unless one of its steps leads into the base that the
ranks are counted from: a marked state.

A state may be found in the last round of a loop although an earlier round has taken
it away, since patterns that were rejected at first may be accepted later. Such a
state is not kept, but other states may have been found through it. This is why the
states that are confined may be more than those that are kept.

It follows that no cycle of the closed loop visits the plant marking without a
marked state (`marked_of_cycle_observedLoop`), whatever the classes are. Nothing is
said here about whether marked states can still be reached.
-/

namespace OmegaControl

variable {g : Automaton} {controllable : EventSet} {plantMarking : StateSet} {classes : ObserverMap}

/-! ## Transitions that are left
 -/

namespace Automaton

/-- The transitions on events that the patterns do not disable. With patterns that
ask for more there are fewer of them. -/
def allowedUnder (g : Automaton) (classes : ObserverMap) (patterns : ClassPatterns) :
    Set Transition :=
  {t | t ∈ g.transitions ∧
    t.event ∉ (patterns[ObservationClass.of classes t.source]?.getD ∅).disableAll}

variable {older newer : ClassPatterns}

/-- Where patterns say the same they leave the same events. -/
theorem mem_allowedUnder_congr {patterns : ClassPatterns} {s t : Transition} (hs : s ∈ g.transitions)
    (ht : t ∈ g.allowedUnder classes patterns) (hevent : s.event = t.event)
    (hclass : ObservationClass.of classes s.source = ObservationClass.of classes t.source) :
    s ∈ g.allowedUnder classes patterns :=
  ⟨hs, hclass ▸ hevent ▸ ht.2⟩

/-- What one of two patterns disables is disabled by both together. -/
theorem allowedUnder_join_subset_left :
    g.allowedUnder classes (older.join newer) ⊆ g.allowedUnder classes older := fun _ ⟨ht, hev⟩ =>
  ⟨ht, fun hdisabled => hev (ClassPatterns.mem_disableAll_getElem?_join.mpr (.inl hdisabled))⟩

theorem allowedUnder_join_subset_right :
    g.allowedUnder classes (older.join newer) ⊆ g.allowedUnder classes newer := fun _ ⟨ht, hev⟩ =>
  ⟨ht, fun hdisabled => hev (ClassPatterns.mem_disableAll_getElem?_join.mpr (.inr hdisabled))⟩

end Automaton

/-! ## States that are confined
 -/

/-- The states with a smaller rank than `x`, and those with the same rank that are not in the plant
marking. -/
def notAbove (plantMarking held : StateSet) (rank : StateId → ℕ) (x : StateId) : Set StateId :=
  {y | y ∈ held ∧ (rank y < rank x ∨ rank y = rank x ∧ y ∉ plantMarking)}

/-- From the states of `held` the steps lead into `base`, or to states of `held` that are not above
them. -/
def Confined (steps : Set Transition) (plantMarking : StateSet) (base : Set StateId)
    (held : StateSet) : Prop :=
  ∃ (rank : StateId → ℕ) (bound : ℕ), (∀ x ∈ held, rank x < bound) ∧
    ∀ t ∈ steps, t.source ∈ held → t.target ∈ base ∪ notAbove plantMarking held rank t.source

namespace Confined

variable {steps steps' : Set Transition} {base base₁ base₂ : Set StateId}
  {held older newer : StateSet}

/-- No state is confined to anything yet. -/
theorem empty : Confined steps plantMarking base ∅ :=
  ⟨fun _ => 0, 0, fun _ hx => absurd hx IdentSet.not_mem_empty,
    fun _ _ hx => absurd hx IdentSet.not_mem_empty⟩

/-- Fewer steps are confined as well. -/
theorem mono (h : Confined steps plantMarking base held) (hsteps : steps' ⊆ steps) :
    Confined steps' plantMarking base held := by
  obtain ⟨rank, bound, hbound, hstays⟩ := h
  exact ⟨rank, bound, hbound, fun t ht => hstays t (hsteps ht)⟩

/-- **Merging**: what leads to `base` or to the states of `older` can be added to
these. The added states get ranks above all that there are, so that a step from them
into `older` leads down. -/
theorem union (h₁ : Confined steps plantMarking base₁ older)
    (h₂ : Confined steps plantMarking base₂ newer) (hbase₁ : base₁ ⊆ base)
    (hbase₂ : base₂ ⊆ base ∪ older.carrier) :
    Confined steps plantMarking base (older ∪ newer) := by
  obtain ⟨rank₁, bound₁, hbound₁, hstays₁⟩ := h₁
  obtain ⟨rank₂, bound₂, hbound₂, hstays₂⟩ := h₂
  refine ⟨stacked older bound₁ rank₁ rank₂, bound₁ + bound₂, fun x hx => ?_, fun t ht hx => ?_⟩
  · by_cases hold : x ∈ older
    · rw [stacked_of_mem hold]
      exact (hbound₁ x hold).trans_le (Nat.le_add_right _ _)
    · rw [stacked_of_not_mem hold]
      exact Nat.add_lt_add_left (hbound₂ x ((IdentSet.mem_union.mp hx).resolve_left hold)) _
  · -- a step out of an older state is unchanged, and one out of a newer state may
    -- go down into `older`
    by_cases hold : t.source ∈ older
    · rcases hstays₁ t ht hold with hbase | ⟨hy, hrank⟩
      · exact .inl (hbase₁ hbase)
      · refine .inr ⟨IdentSet.mem_union.mpr (.inl hy), ?_⟩
        rwa [stacked_of_mem hold, stacked_of_mem hy]
    · rcases hstays₂ t ht ((IdentSet.mem_union.mp hx).resolve_left hold) with hbase | ⟨hy, hrank⟩
      · rcases hbase₂ hbase with hbase | hy
        · exact .inl hbase
        · exact .inr ⟨IdentSet.mem_union.mpr (.inl hy), .inl (stacked_lt_stacked hbound₁ hold hy)⟩
      · refine .inr ⟨IdentSet.mem_union.mpr (.inr hy), ?_⟩
        by_cases hold' : t.target ∈ older
        · exact .inl (stacked_lt_stacked hbound₁ hold hold')
        · rw [stacked_of_not_mem hold, stacked_of_not_mem hold']
          simpa using hrank

end Confined

/-! ## What the loops confine

Each loop is said to confine what it returns by the patterns that it records. The
patterns that are recorded later only disable more, so this is still true in the
end. -/

/-- From the states of `near` the steps lead into the target, or to states without
plant marking that are in `near` or in the domain. This is what holds while a round
goes on. -/
def RoundConfined (steps : Set Transition) (plantMarking target domain near : StateSet) : Prop :=
  ∀ t ∈ steps, t.source ∈ near → t.target ∈ target ∨
    t.target ∉ plantMarking ∧ (t.target ∈ near ∨ t.target ∈ domain)

/-- When no state of the domain is taken away, all states of the round have one rank. -/
theorem RoundConfined.confined {steps : Set Transition} {target domain near : StateSet}
    (h : RoundConfined steps plantMarking target domain near)
    (hdomain : domain.carrier ⊆ near.carrier) : Confined steps plantMarking target.carrier near := by
  refine ⟨fun _ => 0, 1, fun _ _ => Nat.zero_lt_one, fun t ht hx => ?_⟩
  rcases h t ht hx with htarget | ⟨hplant, hy⟩
  · exact .inl htarget
  · exact .inr ⟨hy.elim id fun hy => hdomain hy, .inr ⟨rfl, hplant⟩⟩

namespace Rule

variable (controllable plantMarking classes) (resolved target domain : StateSet)
  (s : Records ClassPatterns)

/-- One more step of the innermost loop: the patterns of the round ask for more, and drive the states
that are found into the target. -/
theorem roundConfined_resolve {near : StateSet}
    (h : RoundConfined (g.allowedUnder classes s.round) plantMarking target domain near) :
    let out := (observed g controllable classes).resolve (target ∪ (near \ plantMarking))
      (domain \ plantMarking) s
    RoundConfined (g.allowedUnder classes out.2.round) plantMarking target domain (near ∪ out.1) := by
  intro out t ht hx
  have hgrow : ∀ {x}, x ∈ near → x ∈ near ∪ out.1 := fun hx => IdentSet.mem_union.mpr (.inl hx)
  rcases IdentSet.mem_union.mp hx with hx | hx
  · exact (h t (Automaton.allowedUnder_join_subset_left ht) hx).imp_right fun ⟨hplant, hy⟩ =>
      ⟨hplant, hy.imp_left hgrow⟩
  · obtain ⟨-, henters⟩ := mem_observed_resolve.mp hx
    obtain ⟨p, hp, henters⟩ := (Option.any_eq_true _ _).mp henters
    obtain ⟨htg, hev⟩ := ht
    have hround : out.2.round[ObservationClass.of classes t.source]? = some p := hp
    rw [hround] at hev
    have hstays := (entersUnder_iff.mp henters).2 t (Automaton.mem_transitionsFrom.mpr ⟨htg, rfl⟩) hev
    simp only [IdentSet.mem_union, IdentSet.mem_sdiff] at hstays
    rcases hstays with (htarget | ⟨hy, hplant⟩) | ⟨hy, hplant⟩
    · exact .inl htarget
    · exact .inr ⟨hplant, .inl (hgrow hy)⟩
    · exact .inr ⟨hplant, .inr hy⟩

/-- The innermost loop confines what it finds to target and domain, and changes the patterns of the
round only. -/
theorem confined_attract :
    let out := ((observed g controllable classes).attract g plantMarking target domain).outcome s
    out.2.level = s.level ∧ out.2.total = s.total ∧
      RoundConfined (g.allowedUnder classes out.2.round) plantMarking target domain out.1 := by
  refine ascend_keeps _ (I := fun near (s' : Records ClassPatterns) =>
    s'.level = s.level ∧ s'.total = s.total ∧
      RoundConfined (g.allowedUnder classes s'.round) plantMarking target domain near) ?_
    ⟨rfl, rfl, fun _ _ hx => absurd hx IdentSet.not_mem_empty⟩
  rintro near s' found s'' ⟨hlevel, htotal, hround⟩ hout
  obtain ⟨rfl, rfl⟩ := Prod.mk.inj hout
  exact ⟨hlevel, htotal,
    roundConfined_resolve controllable plantMarking classes target domain s' hround⟩

/-- The fourth loop adds patterns to those of the level that confine what it
returns. Rounds before the last one are given up with their patterns. In the last
one the domain has shrunk no further, or nothing is left of it. -/
theorem confined_stay :
    let out := ((observed g controllable classes).stay g plantMarking resolved target).outcome s
    ∃ round held, out.2.level = s.level.join round ∧ out.2.total = s.total ∧
      out.1.carrier ⊆ held.carrier ∧
      Confined (g.allowedUnder classes round) plantMarking target.carrier held := by
  have hloop := descend_induction (fun domain => do
      Watched.checkpoint .fixpoint resolved.size g.size
      modify (observed g controllable classes).beginRound
      (observed g controllable classes).attract g plantMarking target domain)
    (s := g.states) (r := s)
    (I := fun _ (s' : Records ClassPatterns) => s'.level = s.level ∧ s'.total = s.total)
    (Q := fun domain (s' : Records ClassPatterns) => (s'.level = s.level ∧ s'.total = s.total) ∧
      ∃ held : StateSet, domain.carrier ⊆ held.carrier ∧
        Confined (g.allowedUnder classes s'.round) plantMarking target.carrier held) ?_ ⟨rfl, rfl⟩
  · obtain ⟨⟨hlevel, htotal⟩, held, hsub, hconfined⟩ := hloop
    simp only [stay, Recorded.outcome_bind, Recorded.outcome_modify, Recorded.outcome_pure]
    exact ⟨_, held, congrArg (ClassPatterns.join · _) hlevel, htotal, hsub, hconfined⟩
  · rintro domain s' near s'' ⟨hlevel, htotal⟩ hout
    simp only [Recorded.outcome_bind, Recorded.outcome_lift, Recorded.outcome_modify] at hout
    obtain ⟨hlevel', htotal', hround⟩ := confined_attract controllable plantMarking classes target
      domain ((observed g controllable classes).beginRound s')
    rw [hout] at hlevel' htotal' hround
    have hkept := And.intro (hlevel'.trans hlevel) (htotal'.trans htotal)
    refine ⟨hkept, fun hstop => ⟨hkept, ?_⟩⟩
    rcases hstop with hdomain | hempty
    · -- a state may be found that is in the domain no more, and others through it
      exact ⟨near, fun x hx => (IdentSet.mem_inter.mp hx).2, hround.confined hdomain⟩
    · exact ⟨∅, hempty ▸ Set.empty_subset _, .empty⟩

/-- The third loop confines what it returns by the patterns of the level. What each
round adds goes to the states that were there before, so ranks are stacked round
upon round (`Confined.union`). -/
theorem confined_approach :
    let out := ((observed g controllable classes).approach g plantMarking resolved target).outcome s
    out.2.total = s.total ∧ ∃ held : StateSet, out.1.carrier ⊆ held.carrier ∧
      Confined (g.allowedUnder classes out.2.level) plantMarking target.carrier held := by
  refine ascend_keeps _ (I := fun near (s' : Records ClassPatterns) => s'.total = s.total ∧
    ∃ held : StateSet, near.carrier ⊆ held.carrier ∧
      Confined (g.allowedUnder classes s'.level) plantMarking target.carrier held) ?_
    ⟨rfl, ∅, subset_rfl, .empty⟩
  rintro near s' found s'' ⟨htotal, held, hsub, hconfined⟩ hout
  obtain ⟨round, held', hlevel, htotal', hsub', hconfined'⟩ :=
    confined_stay controllable plantMarking classes resolved (target ∪ near) s'
  rw [hout] at hlevel htotal' hsub'
  rw [IdentSet.carrier_union] at hconfined'
  dsimp only at hlevel htotal' hsub'
  refine ⟨htotal'.trans htotal, held ∪ held', ?_, hlevel ▸ ?_⟩
  · rw [IdentSet.carrier_union, IdentSet.carrier_union]
    exact Set.union_subset_union hsub hsub'
  · exact (hconfined.mono Automaton.allowedUnder_join_subset_left).union
      (hconfined'.mono Automaton.allowedUnder_join_subset_right) subset_rfl
      (Set.union_subset_union_right _ hsub)

/-- The second loop adds patterns to those in total that confine what it returns.
Levels before the last one are given up with their patterns, so only the last one
counts. -/
theorem confined_recur :
    let out := ((observed g controllable classes).recur g plantMarking resolved).outcome s
    ∃ level held, out.2.total = s.total.join level ∧ out.1.carrier ⊆ held.carrier ∧
      Confined (g.allowedUnder classes level) plantMarking
        ((out.1.carrier ∩ g.marked.carrier) ∪ resolved.carrier) held := by
  have hloop := descend_induction (fun states => do
      modify (observed g controllable classes).beginLevel
      (observed g controllable classes).approach g plantMarking resolved
        ((states ∩ g.marked) ∪ resolved))
    (s := g.states) (r := s) (I := fun _ (s' : Records ClassPatterns) => s'.total = s.total)
    (Q := fun states (s' : Records ClassPatterns) => s'.total = s.total ∧
      ∃ held : StateSet, states.carrier ⊆ held.carrier ∧
        Confined (g.allowedUnder classes s'.level) plantMarking
          ((states.carrier ∩ g.marked.carrier) ∪ resolved.carrier) held) ?_ rfl
  · obtain ⟨htotal, held, hsub, hconfined⟩ := hloop
    simp only [recur, Recorded.outcome_bind, Recorded.outcome_modify, Recorded.outcome_pure]
    exact ⟨_, held, congrArg (ClassPatterns.join · _) htotal, hsub, hconfined⟩
  · -- each round starts a new level, and only the last of them is kept
    rintro states s' near s'' htotal hout
    simp only [Recorded.outcome_bind, Recorded.outcome_modify] at hout
    obtain ⟨htotal', held, hsub, hconfined⟩ := confined_approach controllable plantMarking classes
      resolved ((states ∩ g.marked) ∪ resolved) ((observed g controllable classes).beginLevel s')
    rw [hout] at htotal' hsub hconfined
    rw [IdentSet.carrier_union, IdentSet.carrier_inter] at hconfined
    refine ⟨htotal'.trans htotal, fun hstop => ⟨htotal'.trans htotal, ?_⟩⟩
    rcases hstop with hstates | hempty
    · rw [IdentSet.carrier_inter, Set.inter_eq_left.mpr hstates]
      exact ⟨held, hstates.trans hsub, hconfined⟩
    · -- nothing is left, and nothing has to be held
      exact ⟨∅, hempty ▸ Set.empty_subset _, .empty⟩

/-- **Confinement**: the patterns that are recorded in the end confine all states
that are left. A later level leads to marked states or to what earlier ones have
resolved, and the ranks of those stay what they are, since patterns are added and
never taken back. -/
theorem confined_enforceable :
    let out := ((observed g controllable classes).enforceable g plantMarking).value
    ∃ held : StateSet, out.1.carrier ⊆ held.carrier ∧
      Confined (g.allowedUnder classes out.2.total) plantMarking
        (out.1.carrier ∩ g.marked.carrier) held := by
  refine ascend_keeps ((observed g controllable classes).recur g plantMarking)
    (I := fun resolved (s : Records ClassPatterns) => ∃ held : StateSet,
      resolved.carrier ⊆ held.carrier ∧ Confined (g.allowedUnder classes s.total) plantMarking
        (resolved.carrier ∩ g.marked.carrier) held)
    ?_ ⟨∅, subset_rfl, .empty⟩
  rintro resolved s states s' ⟨held, hsub, hconfined⟩ hout
  obtain ⟨level, held', htotal, hsub', hconfined'⟩ :=
    confined_recur controllable plantMarking classes resolved s
  rw [hout] at htotal hsub' hconfined'
  dsimp only at htotal hsub' hconfined'
  refine ⟨held ∪ held', ?_, htotal ▸ ?_⟩
  · rw [IdentSet.carrier_union, IdentSet.carrier_union]
    exact Set.union_subset_union hsub hsub'
  · rw [IdentSet.carrier_union]
    exact (hconfined.mono Automaton.allowedUnder_join_subset_left).union
      (hconfined'.mono Automaton.allowedUnder_join_subset_right)
      (Set.inter_subset_inter_left _ Set.subset_union_left)
      (Set.union_subset_union (Set.inter_subset_inter_left _ Set.subset_union_right) hsub)

end Rule

/-! ## The closed loop
 -/

/-- What is left when the patterns are enforced: the states that the fixpoint finds,
and of their transitions those that the feedback enables. -/
abbrev observedLoop (g : Automaton) (controllable : EventSet) (plantMarking : StateSet)
    (classes : ObserverMap) : Automaton :=
  applyFeedback (restrictObserved g controllable plantMarking classes).value.1
    (restrictObserved g controllable plantMarking classes).value.2

/-- What is left are states that the loops have found. -/
theorem mem_observedStates {x : StateId}
    (hx : x ∈ (restrictObserved g controllable plantMarking classes).value.1.states) :
    x ∈ observedStates g controllable plantMarking classes := by
  rw [value_restrictObserved] at hx
  exact (Automaton.mem_states_restrictStates.mp hx).2

section

variable (hwf : g.WellFormed)
include hwf

/-- The restriction keeps all transitions between the states that are left. -/
theorem isPart_restrictObserved :
    (restrictObserved g controllable plantMarking classes).value.1.IsPart g := by
  rw [value_restrictObserved]
  exact hwf.isPart_restrictStates _

/-- The marking of what is left is that of the whole. -/
theorem mem_marked_observedLoop {x : StateId} :
    x ∈ (observedLoop g controllable plantMarking classes).marked ↔
      x ∈ g.marked ∧ x ∈ (restrictObserved g controllable plantMarking classes).value.1.states := by
  rw [observedLoop, applyFeedback, Automaton.retainTransitions]
  exact (isPart_restrictObserved hwf).mem_marked

/-- **The closed loop** has the transitions between the states that are left, except those on events
that the patterns disable. -/
theorem mem_transitions_observedLoop {t : Transition} :
    t ∈ (observedLoop g controllable plantMarking classes).transitions ↔
      t ∈ g.allowedUnder classes (observedPatterns g controllable plantMarking classes) ∧
      t.source ∈ (restrictObserved g controllable plantMarking classes).value.1.states ∧
      t.target ∈ (restrictObserved g controllable plantMarking classes).value.1.states := by
  have hpart : (restrictObserved g controllable plantMarking classes).value.1.IsPart g :=
    isPart_restrictObserved hwf
  rw [observedLoop, applyFeedback, Automaton.mem_retainTransitions, hpart.mem_transitions,
    Option.any_eq_true]
  constructor
  · rintro ⟨⟨ht, hsource, htarget⟩, enabled, hget, hev⟩
    obtain ⟨-, rfl⟩ := getElem?_restrictObserved.mp hget
    exact ⟨⟨ht, (IdentSet.mem_sdiff.mp (of_decide_eq_true hev)).2⟩, hsource, htarget⟩
  · rintro ⟨⟨ht, hev⟩, hsource, htarget⟩
    refine ⟨⟨ht, hsource, htarget⟩, _,
      getElem?_restrictObserved.mpr ⟨mem_observedStates hsource, rfl⟩, decide_eq_true ?_⟩
    exact IdentSet.mem_sdiff.mpr ⟨hpart.alphabet_eq ▸ hwf.event_mem t ht, hev⟩

/-- Uncontrollable events are not disabled. -/
theorem mem_allowedUnder_observedPatterns {t : Transition} (ht : t ∈ g.transitions)
    (hev : t.event ∉ controllable) :
    t ∈ g.allowedUnder classes (observedPatterns g controllable plantMarking classes) := by
  have hconsistent := (Rule.keeps_observed hwf controllable classes).enforceable g plantMarking
  refine ⟨ht, fun hdisabled => hev ?_⟩
  cases hp : (observedPatterns g controllable plantMarking classes)[
      ObservationClass.of classes t.source]? with
  | none =>
    rw [hp] at hdisabled
    exact absurd hdisabled ControlPattern.not_mem_disableAll_empty
  | some p =>
    rw [hp] at hdisabled
    exact (hconsistent.total hp).disableAll_subset _ hdisabled

/-- **No bad cycle**: a cycle that visits the plant marking visits a marked state.
Patterns of any classes do so, as only what they disable is used, and not what they
promise to enable. -/
theorem marked_of_cycle_observedLoop {x : StateId} {ts : List Transition}
    (hts : (observedLoop g controllable plantMarking classes).IsPath x ts) (hcycle : endOf x ts = x)
    (hplant : ∃ t ∈ ts, t.target ∈ plantMarking) :
    ∃ t ∈ ts, t.target ∈ (observedLoop g controllable plantMarking classes).marked := by
  by_contra hnone
  push Not at hnone
  obtain ⟨held, hsub, rank, bound, -, hstays⟩ :=
    Rule.confined_enforceable (g := g) controllable plantMarking classes
  have hstep : ∀ t ∈ ts, t.target ∈ notAbove plantMarking held rank t.source := by
    intro t ht
    obtain ⟨hallowed, hsource, htarget⟩ :=
      (mem_transitions_observedLoop hwf).mp (hts.mem_transitions ht)
    rcases hstays t hallowed (hsub (mem_observedStates hsource)) with ⟨-, hmarked⟩ | hbelow
    · exact absurd ((mem_marked_observedLoop hwf).mpr ⟨hmarked, htarget⟩) (hnone t ht)
    · exact hbelow
  have hlt := (Automaton.rank_endOf_le hts
    (fun t ht => (hstep t ht).2.elim Nat.le_of_lt fun hsame => hsame.1.le)
    fun t ht hplant => (hstep t ht).2.resolve_right fun hsame => hsame.2 hplant).2 hplant
  rw [hcycle] at hlt
  exact Nat.lt_irrefl _ hlt

end

end OmegaControl
