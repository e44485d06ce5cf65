import OmegaControl.Proofs.Synthesis.Construction

/-!
# Critical states are dead ends

Whether a state of the product is critical is decided when it is taken up, and not
before: a state that is pending is not critical and has no transitions yet, and one
that turns out to be critical never gets any (`Construction.Tidy`). So a transition
never leaves a critical state, and what is reached is reached without passing one. A
state that is taken up and not critical refuses no uncontrollable event.

Together with what the walk keeps of the product itself, this makes up the invariant
of the walk (`Construction.Underway`), and what is left of it when nothing is
pending is all that is used later (`Construction.Finished`).
-/

namespace OmegaControl.ControlledProduct

open Automaton

variable {c : ControlProblem} {s : Construction} {p q : ProductState} {x y z : StateId}
  {ev : EventId}

namespace Construction

/-- Pending states have nothing yet, critical states have no way on, states are
reached, and what was taken up and is not critical complies. -/
structure Tidy (c : ControlProblem) (s : Construction) : Prop where
  /-- each state is pending once -/
  pending_nodup : s.pending.Nodup
  /-- what is pending is not critical -/
  pending_not_critical : ∀ p ∈ s.pending, ∀ x, s.composition[p]? = some x → x ∉ s.critical
  /-- what is pending has no transitions -/
  pending_not_left : ∀ p ∈ s.pending, ∀ x, s.composition[p]? = some x →
    ∀ t ∈ s.automaton.transitions, t.source ≠ x
  /-- what is critical has none, and never gets one -/
  critical_not_left : ∀ t ∈ s.automaton.transitions, t.source ∉ s.critical
  /-- states are reached from the start -/
  allReached : s.automaton.AllReached
  /-- what was taken up is critical, or refuses controllable events only -/
  complies : ∀ p x, s.composition[p]? = some x →
    p ∈ s.pending ∨ x ∈ s.critical ∨ ∀ ev ∈ refusedEvents c p, ev ∈ c.controllable

/-- The state is followed right now: it has a number, and is neither pending nor
critical. Transitions are added at such a state only. -/
structure Followable (s : Construction) (p : ProductState) (x : StateId) : Prop where
  met : s.composition[p]? = some x
  not_pending : p ∉ s.pending
  not_critical : x ∉ s.critical

/-! ## Adding a step

A step is added from the state that is taken up, which is pending no more. Its
target may be any state that has been met, or one that is new. -/

theorem mem_transitions_insertTransition {g : Automaton} {t u : Transition} :
    t ∈ (g.insertTransition u).transitions ↔ t = u ∨ t ∈ g.transitions := by
  refine Std.ExtTreeSet.mem_insert.trans (or_congr_left ?_)
  exact Std.compare_eq_iff_eq.trans eq_comm

theorem mem_states_insertTransition {g : Automaton} {t : Transition} :
    z ∈ (g.insertTransition t).states ↔ z = t.source ∨ z = t.target ∨ z ∈ g.states := by
  simp only [Automaton.insertTransition, Automaton.insertEvent, Automaton.insertStateWithId,
    IdentSet.mem_insert]
  tauto

/-- A transition from a state that is reached makes its target reached. -/
theorem allReached_insertTransition {g : Automaton} (hx : ∃ w, g.Reaches w x)
    (hstates : ∀ z ∈ g.states, z = y ∨ ∃ w, g.Reaches w z) :
    (g.insertTransition ⟨x, ev, y⟩).AllReached := by
  have hmore : ∀ {w z}, g.Reaches w z → (g.insertTransition ⟨x, ev, y⟩).Reaches w z := fun hw =>
    Reaches.mono (h := g) (fun _ h => h)
      (fun _ ht => mem_transitions_insertTransition.mpr (.inr ht)) hw
  obtain ⟨u, hu⟩ := hx
  have htarget : (g.insertTransition ⟨x, ev, y⟩).Reaches (u ++ [ev]) y :=
    (hmore hu).concat (mem_transitions_insertTransition.mpr (.inl rfl))
  intro z hz
  rcases mem_states_insertTransition.mp hz with rfl | rfl | hz
  · exact ⟨u, hmore hu⟩
  · exact ⟨_, htarget⟩
  · rcases hstates z hz with rfl | ⟨w, hw⟩
    · exact ⟨_, htarget⟩
    · exact ⟨w, hmore hw⟩

/-- A transition from the state that is followed. This state is neither pending nor
critical, so no state that must not be left is left. -/
theorem Tidy.insertTransition (ht : s.Tidy c) (hs : s.Sound c) (hp : s.Followable p x) :
    ({ s with automaton := s.automaton.insertTransition ⟨x, ev, y⟩ } : Construction).Tidy c :=
  { ht with
    pending_not_left := fun q hq z hz t hmem => by
      rcases mem_transitions_insertTransition.mp hmem with rfl | hmem
      · rintro rfl
        exact hp.not_pending (hs.injective hp.met hz ▸ hq)
      · exact ht.pending_not_left q hq z hz t hmem
    critical_not_left := fun t hmem => by
      rcases mem_transitions_insertTransition.mp hmem with rfl | hmem
      · exact hp.not_critical
      · exact ht.critical_not_left t hmem
    allReached := allReached_insertTransition (ht.allReached x ((hs.mem_states x).mpr ⟨p, hp.met⟩))
      fun z hz => .inr (ht.allReached z hz) }

/-- A transition from the state that is followed, to one that is new. The new state
is pending, nothing leaves it, and it is reached by this transition. -/
theorem Tidy.insertNew (ht : s.Tidy c) (hs : s.Sound c) (hp : s.Followable p x)
    (hnew : s.composition[q]? = none) (hfresh : y ∉ s.automaton.states) :
    ({ s with
      automaton := (addState c.spec s.automaton q y).insertTransition ⟨x, ev, y⟩
      composition := s.composition.insert q y
      pending := q :: s.pending } : Construction).Tidy c where
  pending_nodup := by
    refine List.nodup_cons.mpr ⟨fun hq => ?_, ht.pending_nodup⟩
    obtain ⟨z, hz⟩ := hs.pending_met q hq
    rw [hnew] at hz
    cases hz
  pending_not_critical r hr z hz := by
    rcases getElem?_insert_iff.mp hz with ⟨rfl, rfl⟩ | ⟨hne, hz⟩
    · intro hcritical
      -- a critical state has a number, so the new state is not one of them
      obtain ⟨q', hq', -⟩ := hs.forced_of_critical _ hcritical
      exact hfresh ((hs.mem_states _).mpr ⟨q', hq'⟩)
    · exact ht.pending_not_critical r ((List.mem_cons.mp hr).resolve_left hne) z hz
  pending_not_left r hr z hz t hmem := by
    have hx := (hs.mem_states x).mpr ⟨p, hp.met⟩
    rw [mem_transitions_insertTransition, transitions_addState] at hmem
    rcases getElem?_insert_iff.mp hz with ⟨rfl, rfl⟩ | ⟨hne, hz⟩
    · -- nothing leaves the new state, since all transitions start where there was a state before
      intro hsource
      rcases hmem with rfl | hmem
      · exact hfresh (hsource ▸ hx)
      · exact hfresh (hsource ▸ hs.wellFormed.source_mem t hmem)
    · have hr := (List.mem_cons.mp hr).resolve_left hne
      rcases hmem with rfl | hmem
      · rintro rfl
        exact hp.not_pending (hs.injective hp.met hz ▸ hr)
      · exact ht.pending_not_left r hr z hz t hmem
  critical_not_left t hmem := by
    rw [mem_transitions_insertTransition, transitions_addState] at hmem
    rcases hmem with rfl | hmem
    · exact hp.not_critical
    · exact ht.critical_not_left t hmem
  allReached := by
    have hreached : ∀ z ∈ s.automaton.states, ∃ w, (addState c.spec s.automaton q y).Reaches w z := by
      intro z hz
      obtain ⟨w, hw⟩ := ht.allReached z hz
      exact ⟨w, hw.mono (fun _ h => initial_addState.symm ▸ h) fun _ h => transitions_addState.symm ▸ h⟩
    refine allReached_insertTransition (hreached x ((hs.mem_states x).mpr ⟨p, hp.met⟩)) fun z hz => ?_
    exact (mem_states_addState.mp hz).imp_right (hreached z)
  complies r z hz := by
    rcases getElem?_insert_iff.mp hz with ⟨rfl, -⟩ | ⟨-, hz⟩
    · exact .inl List.mem_cons_self
    · exact (ht.complies r z hz).imp_left (List.mem_cons_of_mem q)

/-- Following one step of the state: its target has been met before, or is new. -/
theorem Tidy.insertStep (ht : s.Tidy c) (hs : s.Sound c) (hfits : c.Fits) (hp : s.Followable p x)
    (hstep : c.Step p ev q) :
    ({ (s.meet c.spec q).2 with
      automaton := (s.meet c.spec q).2.automaton.insertTransition ⟨x, ev, (s.meet c.spec q).1⟩ } :
      Construction).Tidy c ∧
      (s.meet c.spec q).2.Followable p x := by
  rcases hnew : s.composition[q]? with _ | y
  · have hreachable := hs.reachable p (Std.ExtTreeMap.mem_iff_isSome_getElem?.mpr (hp.met ▸ rfl))
    obtain ⟨-, hfresh⟩ := hs.freshState_not_mem hfits (hreachable.step hstep) hnew
    rw [meet_eq_of_none hnew]
    refine ⟨ht.insertNew hs hp hnew hfresh, getElem?_insert_of_some hnew hp.met, ?_, hp.not_critical⟩
    refine List.not_mem_cons_of_ne_of_not_mem ?_ hp.not_pending
    rintro rfl
    rw [hp.met] at hnew
    cases hnew
  · rw [meet_eq_of_some hnew]
    exact ⟨ht.insertTransition hs hp, hp⟩

/-- Following steps of the state, one after the other. -/
theorem Tidy.insertSteps (ht : s.Tidy c) (hs : s.Sound c) (hfits : c.Fits) (hp : s.Followable p x)
    (steps : List (EventId × ProductState)) (hsteps : ∀ ev q, (ev, q) ∈ steps → c.Step p ev q) :
    (s.insertSteps c.spec x steps).Tidy c := by
  induction steps generalizing s with
  | nil => exact ht
  | cons step steps ih =>
    obtain ⟨ev, q⟩ := step
    have hstep := hsteps ev q List.mem_cons_self
    have hreachable := hs.reachable p (Std.ExtTreeMap.mem_iff_isSome_getElem?.mpr (hp.met ▸ rfl))
    obtain ⟨hmeet, hgrows, hq⟩ := hs.meet hfits (hreachable.step hstep)
    obtain ⟨htidy, hp'⟩ := ht.insertStep hs hfits hp hstep
    exact ih htidy (hmeet.insertTransition hp'.met hq hstep) ⟨hp'.met, hp'.not_pending, hp'.not_critical⟩
      fun ev q h => hsteps ev q (List.mem_cons_of_mem _ h)

/-! ## Taking up a state

The state is taken from the pending ones first, so the invariant is stated with the
state still among them. -/

/-- A state that turns out to be critical has no transitions, and none of the others
is it. It has been pending until now, so nothing has left it. -/
theorem Tidy.insertCritical (ht : ({ s with pending := p :: s.pending } : Construction).Tidy c)
    (hs : s.Sound c) (hx : s.composition[p]? = some x) :
    ({ s with critical := s.critical.insert x } : Construction).Tidy c where
  pending_nodup := (List.nodup_cons.mp ht.pending_nodup).2
  pending_not_critical q hq z hz hmem := by
    rcases IdentSet.mem_insert.mp hmem with rfl | hmem
    · exact (List.nodup_cons.mp ht.pending_nodup).1 (hs.injective hz hx ▸ hq)
    · exact ht.pending_not_critical q (List.mem_cons_of_mem p hq) z hz hmem
  pending_not_left q hq := ht.pending_not_left q (List.mem_cons_of_mem p hq)
  critical_not_left t hmem hcritical := by
    rcases IdentSet.mem_insert.mp hcritical with heq | hcritical
    · exact ht.pending_not_left p List.mem_cons_self x hx t hmem heq
    · exact ht.critical_not_left t hmem hcritical
  allReached := ht.allReached
  complies q z hz := by
    rcases ht.complies q z hz with hq | hcritical | hcomplies
    · rcases List.mem_cons.mp hq with rfl | hq
      · exact .inr (.inl (IdentSet.mem_insert.mpr (.inl (Option.some.inj (hz.symm.trans hx)))))
      · exact .inl hq
    · exact .inr (.inl (IdentSet.mem_insert.mpr (.inr hcritical)))
    · exact .inr (.inr hcomplies)

/-- A state that does not turn out to be critical may be followed. -/
theorem Tidy.followable (ht : ({ s with pending := p :: s.pending } : Construction).Tidy c)
    (hx : s.composition[p]? = some x) (hcomplies : ∀ ev ∈ refusedEvents c p, ev ∈ c.controllable) :
    s.Tidy c ∧ s.Followable p x := by
  obtain ⟨hout, hnodup⟩ := List.nodup_cons.mp ht.pending_nodup
  refine ⟨⟨hnodup, fun q hq => ht.pending_not_critical q (List.mem_cons_of_mem p hq),
    fun q hq => ht.pending_not_left q (List.mem_cons_of_mem p hq), ht.critical_not_left,
    ht.allReached, fun q z hz => ?_⟩, hx, hout, ht.pending_not_critical p List.mem_cons_self x hx⟩
  rcases ht.complies q z hz with hq | hrest
  · rcases List.mem_cons.mp hq with rfl | hq
    · exact .inr (.inr hcomplies)
    · exact .inl hq
  · exact .inr hrest

/-- Taking up the next pending state. It is not known to be critical: as long as each state has a number
of its own, only states that have been taken up are. -/
theorem Tidy.takeUp (ht : ({ s with pending := p :: s.pending } : Construction).Tidy c)
    (hs : s.Sound c) (hc : c.Deterministic) (hfits : c.Fits) (hx : s.composition[p]? = some x) :
    (s.takeUp c p).Tidy c := by
  rw [Construction.takeUp, hx]
  dsimp only
  rw [if_neg (ht.pending_not_critical p List.mem_cons_self x hx)]
  split
  next => exact ht.insertCritical hs hx
  next hgood =>
    obtain ⟨htidy, hp⟩ := ht.followable hx fun ev hev => by
      by_contra hout
      exact hgood (List.any_eq_true.mpr ⟨ev, List.mem_append_left _ hev, decide_eq_true hout⟩)
    exact htidy.insertSteps hs hfits hp _ fun ev q h =>
      (ControlProblem.mem_sharedSteps hc).mp (List.mem_filter.mp h).1

end Construction

/-! ## The whole walk

Both invariants together are kept by taking up one state after the other. -/

open Construction

/-- What the walk keeps true. Each of its parts is kept by taking up a state, and at
the end, when nothing is pending, they say that the walk is finished. -/
structure Construction.Underway (c : ControlProblem) (s : Construction) : Prop where
  /-- what is built is a part of the product -/
  sound : s.Sound c
  /-- what is missing is pending -/
  complete : s.Complete c
  /-- critical states are dead ends -/
  tidy : s.Tidy c

/-- What is true when nothing is pending any more. This is all that later modules
need to know about the walk. -/
structure Construction.Finished (c : ControlProblem) (s : Construction) : Prop where
  sound : s.Sound c
  /-- every state is critical or has been followed -/
  followed : ∀ p x, s.composition[p]? = some x → x ∈ s.critical ∨ s.Followed c p
  /-- every state is critical or refuses controllable events only -/
  complies : ∀ p x, s.composition[p]? = some x →
    x ∈ s.critical ∨ ∀ ev ∈ refusedEvents c p, ev ∈ c.controllable
  /-- no transition leaves a critical state -/
  critical_not_left : ∀ t ∈ s.automaton.transitions, t.source ∉ s.critical
  allReached : s.automaton.AllReached

/-- Taking up a state keeps the whole invariant. -/
theorem Construction.Underway.takeUp (hs : s.Underway c) (hc : c.Deterministic) (hfits : c.Fits)
    {pending : List ProductState} (hpending : s.pending = p :: pending) :
    (({ s with pending } : Construction).takeUp c p).Underway c := by
  obtain ⟨hsound, hcomplete⟩ := hs.complete.takeUp hs.sound hc hfits hpending
  obtain ⟨x, hx⟩ := hs.sound.pending_met p (hpending ▸ List.mem_cons_self)
  refine ⟨hsound, hcomplete, Tidy.takeUp (hpending ▸ hs.tidy) ?_ hc hfits hx⟩
  exact { hs.sound with pending_met := fun q hq =>
    hs.sound.pending_met q (hpending ▸ List.mem_cons_of_mem p hq) }

theorem Construction.Underway.finished (hs : s.Underway c) (hpending : s.pending = []) :
    s.Finished c := by
  have hnone : ∀ p, p ∉ s.pending := fun p => hpending ▸ List.not_mem_nil
  exact ⟨hs.sound, fun p x hx => (hs.complete p x hx).resolve_left (hnone p),
    fun p x hx => (hs.tidy.complies p x hx).resolve_left (hnone p), hs.tidy.critical_not_left,
    hs.tidy.allReached⟩

/-- At the start, only the start is met, and it is pending. So no state is critical
yet, and none has to be. -/
theorem underway_start (hc : c.Deterministic) (hp : c.IsStart p) :
    Construction.Underway c ⟨(blank c.plant c.spec).insertInitialState.2,
      (∅ : ProductComposition).insert p (blank c.plant c.spec).insertInitialState.1, ∅, [p]⟩ := by
  have hmet : ∀ {q : ProductState} {x y : StateId},
      ((∅ : ProductComposition).insert p y)[q]? = some x → q ∈ [p] := by
    intro q x y hq
    rcases getElem?_insert_iff.mp hq with ⟨rfl, -⟩ | ⟨-, hq⟩
    · exact List.mem_cons_self
    · rw [Std.ExtTreeMap.getElem?_empty] at hq
      cases hq
  refine ⟨sound_start hc hp, fun q x hq => .inl (hmet hq), ?_⟩
  obtain ⟨g, hg, -, -, hstates, hinitial, -, hnone⟩ :=
    exists_insertInitialState_blank c.plant c.spec
  rw [hg]
  refine ⟨List.nodup_singleton p, fun _ _ _ _ => IdentSet.not_mem_empty,
    fun _ _ _ _ t ht => absurd ht (hnone t), fun t ht => absurd ht (hnone t), fun x hx => ?_,
    fun q x hq => .inl (hmet hq)⟩
  exact ⟨[], reaches_nil.mpr ((hinitial x).mpr ((hstates x).mp hx))⟩

/-- **The walk**: from the start of the product, everything is met and followed that
is not behind critical states. -/
theorem finished_build (hc : c.Deterministic) (hfits : c.Fits) (hp : c.IsStart p) :
    (build c 0 ⟨(blank c.plant c.spec).insertInitialState.2,
      (∅ : ProductComposition).insert p (blank c.plant c.spec).insertInitialState.1, ∅,
      [p]⟩).value.Finished c := by
  obtain ⟨hs, hpending⟩ := build_induction 0
    (fun s p pending hpending (hs : s.Underway c) => hs.takeUp hc hfits hpending)
    (underway_start hc hp)
  exact hs.finished hpending

end OmegaControl.ControlledProduct
