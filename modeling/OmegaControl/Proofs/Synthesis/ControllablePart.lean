import Mathlib.Data.List.Induction
import OmegaControl.Controllability
import OmegaControl.Proofs.JoinByEvent
import OmegaControl.Proofs.Reaching

/-!
# The controllable part

The search for the controllable part of a candidate deletes neither too much nor too
little. A set of states that goes along with every uncontrollable event of the
plant, and within which each state can be reached, is kept (`mem_controllablePart`).
And the states that are kept are such a set (`complies_controllablePart`).

The first rests on the invariant that no critical state is in such a set, although
what is critical is found in the order of the search. The second rests on the
invariant that a visited state is critical or has no violation, its successors have
been visited or are pending, and its uncontrollable transitions are followed, and
that no state becomes critical without those from which followed uncontrollable
transitions lead to it.

In terms of words, the controllable part has the largest set of words of the
candidate that go along with the uncontrollable events of the plant
(`controllablePart_isGreatest`).

The plant need not be searched on its own: `plantState` says in which state it is
when the candidate is in a given one, and the pairs of the search are in step with
it.
-/

namespace OmegaControl

/-- The state goes along with the uncontrollable events of the plant, into states of
`safe`. If all states of `safe` do, then so does every run that stays among them. -/
def CompliesWithin (plant : Automaton) (controllable : EventSet) (cand : Automaton)
    (plantState : StateId → StateId) (safe : Set StateId) (x : StateId) : Prop :=
  ∀ l ∈ plant.transitions, l.source = plantState x → l.event ∉ controllable →
    ∃ r ∈ cand.transitions, r.source = x ∧ r.event = l.event ∧ r.target ∈ safe

/-- The plant goes along with every transition of the candidate. -/
def GoesAlong (plant cand : Automaton) (plantState : StateId → StateId) : Prop :=
  ∀ r ∈ cand.transitions, ⟨plantState r.source, r.event, plantState r.target⟩ ∈ plant.transitions

/-- The plant goes along with every transition of the candidate that is reached.
Where the candidate is not reached, nothing is asked. -/
def GoesAlongReached (plant cand : Automaton) (plantState : StateId → StateId) : Prop :=
  ∀ r ∈ cand.transitions, r.source ∈ cand.accessibleSet →
    ⟨plantState r.source, r.event, plantState r.target⟩ ∈ plant.transitions

theorem GoesAlong.reached {plant cand : Automaton} {plantState : StateId → StateId}
    (h : GoesAlong plant cand plantState) : GoesAlongReached plant cand plantState :=
  fun r hr _ => h r hr

namespace ControllablePart

variable {plant cand : Automaton} {controllable : EventSet} {plantState : StateId → StateId}
  {safe : Set StateId} {s : Search} {p : StatePair}

/-! ## Following the events of a pair

The events of the pair are taken up one after the other; each of them may push a
pair, note a transition as followed, or show that the state is critical, and then
the rest is left out. `FollowSpec` says what has become of the search in the end. -/

/-- What is pending stays pending. -/
theorem mem_pending_push {q : StatePair} (hq : q ∈ s.pending) : q ∈ (s.push p).pending := by
  rw [Search.push]
  split
  · exact hq
  · exact List.mem_cons_of_mem p hq

/-- Only the pair itself is added. -/
theorem eq_of_mem_pending_push {q : StatePair} (hq : q ∈ (s.push p).pending) :
    q = p ∨ q ∈ s.pending := by
  rw [Search.push] at hq
  split at hq
  · exact .inr hq
  · exact List.mem_cons.mp hq

/-- A pair is not pushed if its state has been visited. -/
theorem visited_or_pending_push : p.right ∈ s.visited ∨ p ∈ (s.push p).pending := by
  rw [Search.push]
  split
  next h => exact .inl h
  next => exact .inr List.mem_cons_self

theorem critical_push : (s.push p).critical = s.critical := by
  rw [Search.push]
  split <;> rfl

theorem followed_push : (s.push p).followed = s.followed := by
  rw [Search.push]
  split <;> rfl

/-- What following the events `js` of a pair does, and what it says about them.
Targets become pending unless they were visited, and the flag tells whether an
uncontrollable event of the plant leads to a critical state or has no partner. What
was visited or critical does not change. -/
structure FollowSpec (controllable : EventSet) (s : Search) (js : List Joined) (s' : Search)
    (isCritical : Bool) : Prop where
  visited_eq : s'.visited = s.visited
  critical_eq : s'.critical = s.critical
  /-- what was pending is pending -/
  pending_of_mem : ∀ q ∈ s.pending, q ∈ s'.pending
  /-- new pairs are targets of common events -/
  of_mem_pending : ∀ q ∈ s'.pending, q ∈ s.pending ∨
    ∃ l r, .both l r ∈ js ∧ q = ⟨l.target, r.target⟩
  /-- what was followed is followed -/
  followed_of_mem : ∀ t ∈ s.followed, t ∈ s'.followed
  /-- a transition into a critical state is not followed -/
  of_mem_followed : ∀ t ∈ s'.followed, t ∈ s.followed ∨
    (∃ l, .both l t ∈ js) ∧ t.target ∉ s.critical
  /-- critical, as an uncontrollable event leads to a critical state or is missing -/
  of_critical : isCritical = true →
    (∃ l r, .both l r ∈ js ∧ l.event ∉ controllable ∧ r.target ∈ s.critical) ∨
      ∃ l, .left l ∈ js ∧ l.event ∉ controllable
  /-- not critical, so all targets are known and no uncontrollable event is missing -/
  of_not_critical : isCritical = false →
    (∀ l r, .both l r ∈ js → (r.target ∈ s.visited ∨ ∃ q ∈ s'.pending, q.right = r.target) ∧
      (l.event ∉ controllable → r ∈ s'.followed)) ∧
      ∀ l, .left l ∈ js → l.event ∈ controllable

/-- An event that both sides have, before the other events `js` are followed.
Whether the transition is noted as followed depends on its target; the hypotheses
leave this open. -/
theorem FollowSpec.cons_both {s₁ s' : Search} {l r : Transition} {js : List Joined}
    {isCritical : Bool} (h : FollowSpec controllable s₁ js s' isCritical)
    (hvisited : s₁.visited = s.visited) (hcritical : s₁.critical = s.critical)
    (hpending : s₁.pending = (s.push ⟨l.target, r.target⟩).pending)
    (hmore : ∀ t ∈ s.followed, t ∈ s₁.followed)
    (hfollowed : ∀ t ∈ s₁.followed, t ∈ s.followed ∨ t = r ∧ r.target ∉ s.critical)
    (hr : l.event ∉ controllable → r ∈ s₁.followed) :
    FollowSpec controllable s (.both l r :: js) s' isCritical where
  visited_eq := h.visited_eq.trans hvisited
  critical_eq := h.critical_eq.trans hcritical
  pending_of_mem q hq := h.pending_of_mem q (hpending ▸ mem_pending_push hq)
  of_mem_pending q hq := by
    rcases h.of_mem_pending q hq with hq | ⟨l', r', hmem, rfl⟩
    · rw [hpending] at hq
      rcases eq_of_mem_pending_push hq with rfl | hq
      · exact .inr ⟨l, r, List.mem_cons_self, rfl⟩
      · exact .inl hq
    · exact .inr ⟨l', r', List.mem_cons_of_mem _ hmem, rfl⟩
  followed_of_mem t ht := h.followed_of_mem t (hmore t ht)
  of_mem_followed t ht := by
    rcases h.of_mem_followed t ht with ht | ⟨⟨l', hmem⟩, htarget⟩
    · refine (hfollowed t ht).imp_right ?_
      rintro ⟨rfl, htarget⟩
      exact ⟨⟨l, List.mem_cons_self⟩, htarget⟩
    · exact .inr ⟨⟨l', List.mem_cons_of_mem _ hmem⟩, hcritical ▸ htarget⟩
  of_critical hb := by
    rcases h.of_critical hb with ⟨l', r', hmem, hev, htarget⟩ | ⟨l', hmem, hev⟩
    · exact .inl ⟨l', r', List.mem_cons_of_mem _ hmem, hev, hcritical ▸ htarget⟩
    · exact .inr ⟨l', List.mem_cons_of_mem _ hmem, hev⟩
  of_not_critical hb := by
    obtain ⟨hboth, hleft⟩ := h.of_not_critical hb
    refine ⟨fun l' r' hmem => ?_, fun l' hmem => ?_⟩
    · -- the pair that comes first is pending now, unless its state was visited
      rcases List.mem_cons.mp hmem with heq | hmem
      · obtain ⟨rfl, rfl⟩ := Joined.both.inj heq
        refine ⟨?_, fun hev => h.followed_of_mem _ (hr hev)⟩
        rcases visited_or_pending_push (s := s) (p := ⟨l'.target, r'.target⟩) with hv | hq
        · exact .inl hv
        · exact .inr ⟨_, h.pending_of_mem _ (hpending ▸ hq), rfl⟩
      · exact hvisited ▸ hboth l' r' hmem
    · exact hleft l' ((List.mem_cons.mp hmem).resolve_left Joined.noConfusion)

/-- An event that calls for nothing: it is not shared, and if it is the plant's, it
is controllable. So what follows it decides. -/
theorem FollowSpec.cons_of_ne {s' : Search} {j : Joined} {js : List Joined} {isCritical : Bool}
    (h : FollowSpec controllable s js s' isCritical) (hboth : ∀ l r, j ≠ .both l r)
    (hleft : ∀ l, j = .left l → l.event ∈ controllable) :
    FollowSpec controllable s (j :: js) s' isCritical where
  visited_eq := h.visited_eq
  critical_eq := h.critical_eq
  pending_of_mem := h.pending_of_mem
  of_mem_pending q hq := (h.of_mem_pending q hq).imp_right
    fun ⟨l, r, hmem, heq⟩ => ⟨l, r, List.mem_cons_of_mem _ hmem, heq⟩
  followed_of_mem := h.followed_of_mem
  of_mem_followed t ht := (h.of_mem_followed t ht).imp_right
    fun ⟨⟨l, hmem⟩, htarget⟩ => ⟨⟨l, List.mem_cons_of_mem _ hmem⟩, htarget⟩
  of_critical hb := (h.of_critical hb).imp
    (fun ⟨l, r, hmem, hrest⟩ => ⟨l, r, List.mem_cons_of_mem _ hmem, hrest⟩)
    fun ⟨l, hmem, hev⟩ => ⟨l, List.mem_cons_of_mem _ hmem, hev⟩
  of_not_critical hb := by
    obtain ⟨hall, hnone⟩ := h.of_not_critical hb
    refine ⟨fun l r hmem => ?_, fun l hmem => ?_⟩
    · exact hall l r ((List.mem_cons.mp hmem).resolve_left fun heq => hboth l r heq.symm)
    · rcases List.mem_cons.mp hmem with heq | hmem
      · exact hleft l heq.symm
      · exact hnone l hmem

/-- Following the events of a pair, whatever they are. The induction is on the list
of events, with one case for each thing that can happen to the first of them. -/
theorem follow_spec (controllable : EventSet) (s : Search) (js : List Joined) :
    FollowSpec controllable s js (follow controllable s js).1 (follow controllable s js).2 := by
  fun_induction follow controllable s js with
  | case1 s =>
    exact ⟨rfl, rfl, fun _ => id, fun _ => .inl, fun _ => id, fun _ => .inl,
      fun h => absurd h (by simp),
      fun _ => ⟨fun _ _ h => absurd h List.not_mem_nil, fun _ h => absurd h List.not_mem_nil⟩⟩
  | case2 s l r js s₁ hnot ih =>
    refine ih.cons_both (visited_push s _) critical_push rfl (fun t ht => ?_) (fun t ht => ?_)
      fun _ => List.mem_cons_self
    · exact List.mem_cons_of_mem r (followed_push.symm ▸ ht)
    · rcases List.mem_cons.mp ht with rfl | ht
      · exact .inr ⟨rfl, critical_push (s := s) ▸ hnot⟩
      · exact .inl (followed_push ▸ ht)
  | case3 s l r js s₁ hmem hev =>
    -- an uncontrollable event leads to a critical state
    have hcritical : r.target ∈ s.critical := critical_push ▸ Classical.not_not.mp hmem
    exact ⟨visited_push s _, critical_push, fun _ => mem_pending_push, fun q hq =>
      (eq_of_mem_pending_push hq).elim (fun h => .inr ⟨l, r, List.mem_cons_self, h⟩) .inl,
      fun t ht => followed_push.symm ▸ ht, fun t ht => .inl (followed_push ▸ ht),
      fun _ => .inl ⟨l, r, List.mem_cons_self, hev, hcritical⟩, fun h => absurd h (by simp)⟩
  | case4 s l r js s₁ hmem hev ih =>
    exact ih.cons_both (visited_push s _) critical_push rfl (fun t ht => followed_push.symm ▸ ht)
      (fun t ht => .inl (followed_push ▸ ht)) fun h => absurd h hev
  | case5 s l js hev =>
    exact ⟨rfl, rfl, fun _ => id, fun _ => .inl, fun _ => id, fun _ => .inl,
      fun _ => .inr ⟨l, List.mem_cons_self, hev⟩, fun h => absurd h (by simp)⟩
  | case6 s l js hev ih =>
    refine ih.cons_of_ne (fun _ _ => Joined.noConfusion) fun l' heq => ?_
    obtain rfl := Joined.left.inj heq
    exact Classical.not_not.mp hev
  | case7 s r js ih =>
    exact ih.cons_of_ne (fun _ _ => Joined.noConfusion) fun _ => Joined.noConfusion

/-! ## Visiting a pair

The events of a pair are followed, and if its state is critical, so are the states
from which it is forced. The invariant of the search speaks of all this at once. -/

/-- The state complies, and the search knows where it goes on to. Uncontrollable
transitions are noted, since they are followed backwards when their target turns out
to be critical. -/
structure Search.Explored (plant : Automaton) (controllable : EventSet) (cand : Automaton)
    (plantState : StateId → StateId) (s : Search) (x : StateId) : Prop where
  /-- no uncontrollable event of the plant is missing -/
  complies : CompliesWithin plant controllable cand plantState Set.univ x
  /-- its successors have been visited or are pending -/
  known : ∀ r ∈ cand.transitions, r.source = x →
    r.target ∈ s.visited ∨ ∃ q ∈ s.pending, q.right = r.target
  /-- its uncontrollable transitions are noted as followed -/
  followed : ∀ r ∈ cand.transitions, r.source = x → r.event ∉ controllable → r ∈ s.followed

/-- What the search keeps true: pairs are reached and in step, no critical state is in a set of
states that comply within it, a visited state that is not critical is explored, and no state is
critical without those from which followed uncontrollable transitions lead to it. -/
structure Search.Sound (plant : Automaton) (controllable : EventSet) (cand : Automaton)
    (plantState : StateId → StateId) (s : Search) : Prop where
  /-- the plant is where the candidate says -/
  in_step : ∀ p ∈ s.pending, p.left = plantState p.right
  /-- what is pending is reached -/
  pending_reached : ∀ p ∈ s.pending, p.right ∈ cand.accessibleSet
  /-- what was visited is reached -/
  visited_reached : ∀ x ∈ s.visited, x ∈ cand.accessibleSet
  /-- what is followed are transitions that are reached -/
  followed_mem : ∀ t ∈ s.followed, t ∈ cand.transitions ∧ t.source ∈ cand.accessibleSet
  /-- no critical state is in a set of states that comply within it -/
  not_safe : ∀ safe : Set StateId,
    (∀ x ∈ safe, CompliesWithin plant controllable cand plantState safe x) →
    ∀ x ∈ s.critical, x ∉ safe
  /-- what was visited is critical or explored -/
  explored : ∀ x ∈ s.visited, x ∈ s.critical ∨ s.Explored plant controllable cand plantState x
  /-- what is forced into a critical state is critical -/
  forced : ∀ t ∈ s.followed, t.event ∉ controllable → t.target ∈ s.critical → t.source ∈ s.critical

/-- What is known about a state stays known. -/
theorem Search.Explored.mono {s s' : Search} {x : StateId}
    (h : s.Explored plant controllable cand plantState x)
    (hvisited : ∀ y ∈ s.visited, y ∈ s'.visited)
    (hpending : ∀ q ∈ s.pending, q.right ∈ s'.visited ∨ q ∈ s'.pending)
    (hfollowed : ∀ t ∈ s.followed, t ∈ s'.followed) :
    s'.Explored plant controllable cand plantState x where
  complies := h.complies
  known r hr hrs := by
    rcases h.known r hr hrs with hr | ⟨q, hq, hright⟩
    · exact .inl (hvisited _ hr)
    · exact (hpending q hq).imp (fun h => hright ▸ h) fun h => ⟨q, h, hright⟩
  followed r hr hrs hev := hfollowed r (h.followed r hr hrs hev)

/-- The states from which followed uncontrollable transitions lead to a given one,
past no critical state. -/
theorem mem_forcedInto {x y : StateId} : y ∈ forcedInto controllable s x ↔
    Traversal.Leads (fun y => (s.followed.filter fun t =>
      t.target = y ∧ t.event ∉ controllable ∧ t.source ∉ s.critical).map (·.source)) x y := by
  simp [forcedInto, Traversal.mem_reachable]

/-- Uncontrollable transitions that were followed are followed back. -/
theorem source_mem_forcedInto {x : StateId} {t : Transition} (ht : t ∈ s.followed)
    (hev : t.event ∉ controllable) (htarget : t.target ∈ forcedInto controllable s x) :
    t.source ∈ s.critical ∨ t.source ∈ forcedInto controllable s x := by
  refine or_iff_not_imp_left.mpr fun hsource => mem_forcedInto.mpr ?_
  refine (mem_forcedInto.mp htarget).tail (List.mem_map.mpr ⟨t, List.mem_filter.mpr ⟨ht, ?_⟩, rfl⟩)
  exact decide_eq_true ⟨rfl, hev, hsource⟩

/-- Transitions into critical states are not followed, so following others changes nothing. -/
theorem FollowSpec.forced {s' : Search} {js : List Joined} {isCritical : Bool}
    (h : FollowSpec controllable s js s' isCritical)
    (hs : ∀ t ∈ s.followed, t.event ∉ controllable → t.target ∈ s.critical → t.source ∈ s.critical) :
    ∀ t ∈ s'.followed, t.event ∉ controllable → t.target ∈ s'.critical → t.source ∈ s'.critical := by
  intro t ht hev htarget
  rw [h.critical_eq] at htarget ⊢
  rcases h.of_mem_followed t ht with ht | ⟨-, hnot⟩
  · exact hs t ht hev htarget
  · exact absurd htarget hnot

section

variable (hcand : cand.HasUniqueSuccessors) (halong : GoesAlongReached plant cand plantState)
include hcand halong

/-- From states that comply within a set, uncontrollable events lead into the set:
the plant goes along with the transition, and successors are unique. -/
theorem target_mem_safe
    (hsafe : ∀ x ∈ safe, CompliesWithin plant controllable cand plantState safe x) {t : Transition}
    (ht : t ∈ cand.transitions) (hreached : t.source ∈ cand.accessibleSet) (hsource : t.source ∈ safe)
    (hev : t.event ∉ controllable) : t.target ∈ safe := by
  obtain ⟨r, hr, hrsource, hrevent, hrtarget⟩ :=
    hsafe t.source hsource _ (halong t ht hreached) rfl hev
  obtain rfl := hcand r hr t ht hrsource hrevent
  exact hrtarget

/-- Following uncontrollable events backwards does not lead into the set, either. -/
theorem not_mem_safe_of_mem_forcedInto
    (hsafe : ∀ x ∈ safe, CompliesWithin plant controllable cand plantState safe x)
    (hfollowed : ∀ t ∈ s.followed, t ∈ cand.transitions ∧ t.source ∈ cand.accessibleSet)
    {x y : StateId} (hx : x ∉ safe) (hy : y ∈ forcedInto controllable s x) : y ∉ safe := by
  have hleads := mem_forcedInto.mp hy
  induction hleads with
  | refl => exact hx
  | tail hreach hstep ih =>
    obtain ⟨t, hmem, rfl⟩ := List.mem_map.mp hstep
    obtain ⟨ht, htest⟩ := List.mem_filter.mp hmem
    obtain ⟨rfl, hev, -⟩ := of_decide_eq_true htest
    obtain ⟨ht, hreached⟩ := hfollowed t ht
    intro hsource
    exact ih (mem_forcedInto.mpr hreach) (target_mem_safe hcand halong hsafe ht hreached hsource hev)

variable (hplant : plant.HasUniqueSuccessors)
include hplant

/-- If following the events of a pair makes its state critical, the state is in no set of
states that comply within it. -/
theorem not_safe_of_critical {x : StateId} (hreached : x ∈ cand.accessibleSet)
    (hsafe : ∀ x ∈ safe, CompliesWithin plant controllable cand plantState safe x)
    (hcritical : ∀ x ∈ s.critical, x ∉ safe)
    (h : (∃ l r, .both l r ∈ plant.joinAt cand ⟨plantState x, x⟩ ∧ l.event ∉ controllable ∧
        r.target ∈ s.critical) ∨
      ∃ l, .left l ∈ plant.joinAt cand ⟨plantState x, x⟩ ∧ l.event ∉ controllable) : x ∉ safe := by
  intro hx
  rcases h with ⟨l, r, hmem, hev, htarget⟩ | ⟨l, hmem, hev⟩
  · obtain ⟨-, ⟨hr, rfl⟩, hevent⟩ := (Automaton.both_mem_joinAt_iff hplant hcand).mp hmem
    exact hcritical _ htarget (target_mem_safe hcand halong hsafe hr hreached hx (hevent ▸ hev))
  · obtain ⟨⟨hl, hlsource⟩, hnone⟩ := (Automaton.left_mem_joinAt_iff hplant hcand).mp hmem
    obtain ⟨r, hr, hrsource, hrevent, -⟩ := hsafe x hx l hl hlsource hev
    exact hnone r hr hrsource hrevent

omit halong in
/-- If following the events of a pair does not make its state critical, the state
complies. -/
theorem complies_of_not_critical {x : StateId}
    (h : ∀ l, .left l ∈ plant.joinAt cand ⟨plantState x, x⟩ → l.event ∈ controllable) :
    CompliesWithin plant controllable cand plantState Set.univ x := by
  intro l hl hlsource hev
  by_contra hnone
  push Not at hnone
  refine hev (h l ((Automaton.left_mem_joinAt_iff hplant hcand).mpr ⟨⟨hl, hlsource⟩, ?_⟩))
  exact fun r hr hrsource hrevent => hnone r hr hrsource hrevent (Set.mem_univ _)

/-- Then it is explored, too, once it counts as visited: every transition of the candidate shows
up among the events of its pair. -/
theorem explored_of_not_critical {s' : Search} {x : StateId} (hreached : x ∈ cand.accessibleSet)
    (h : FollowSpec controllable s (plant.joinAt cand ⟨plantState x, x⟩) s' false) :
    ({ s' with visited := s'.visited.insert x } : Search).Explored plant controllable cand plantState
      x := by
  obtain ⟨hboth, hleft⟩ := h.of_not_critical rfl
  have hjoined : ∀ r ∈ cand.transitions, r.source = x → ∃ l : Transition, l.event = r.event ∧
      .both l r ∈ plant.joinAt cand ⟨plantState x, x⟩ := by
    rintro r hr rfl
    exact ⟨⟨plantState r.source, r.event, plantState r.target⟩, rfl,
      (Automaton.both_mem_joinAt_iff hplant hcand).mpr ⟨⟨halong r hr hreached, rfl⟩, ⟨hr, rfl⟩, rfl⟩⟩
  refine ⟨complies_of_not_critical hcand hplant hleft, fun r hr hrs => ?_, fun r hr hrs hev => ?_⟩
  · obtain ⟨l, -, hmem⟩ := hjoined r hr hrs
    refine (hboth l r hmem).1.imp_left fun hvisited => IdentSet.mem_insert.mpr (.inr ?_)
    exact h.visited_eq.symm ▸ hvisited
  · obtain ⟨l, hevent, hmem⟩ := hjoined r hr hrs
    exact (hboth l r hmem).2 (hevent.symm ▸ hev)

section

variable {s' : Search} {isCritical : Bool} {x : StateId}
  (hs : ({ s with pending := ⟨plantState x, x⟩ :: s.pending } : Search).Sound plant controllable cand
    plantState)
  (h : FollowSpec controllable s (plant.joinAt cand ⟨plantState x, x⟩) s' isCritical)
include hs h

/-- Following the events of the next pair, the search meets pairs that are reached and in step. -/
theorem Search.Sound.pending_follow {q : StatePair} (hq : q ∈ s'.pending) :
    q.left = plantState q.right ∧ q.right ∈ cand.accessibleSet := by
  have hreached := hs.pending_reached ⟨plantState x, x⟩ List.mem_cons_self
  rcases h.of_mem_pending q hq with hq | ⟨l, r, hmem, rfl⟩
  · exact ⟨hs.in_step q (List.mem_cons_of_mem _ hq), hs.pending_reached q (List.mem_cons_of_mem _ hq)⟩
  · obtain ⟨⟨hl, hlsource⟩, ⟨hr, rfl⟩, hevent⟩ :=
      (Automaton.both_mem_joinAt_iff hplant hcand).mp hmem
    exact ⟨congrArg (·.target) (hplant l hl _ (halong r hr hreached) hlsource hevent),
      Automaton.target_mem_accessibleSet hr hreached⟩

omit halong in
/-- Transitions that are followed start where the search is. -/
theorem Search.Sound.followed_follow {t : Transition} (ht : t ∈ s'.followed) :
    t ∈ cand.transitions ∧ t.source ∈ cand.accessibleSet := by
  rcases h.of_mem_followed t ht with ht | ⟨⟨l, hmem⟩, -⟩
  · exact hs.followed_mem t ht
  · obtain ⟨-, ⟨ht, hsource⟩, -⟩ := (Automaton.both_mem_joinAt_iff hplant hcand).mp hmem
    exact ⟨ht, hsource ▸ hs.pending_reached ⟨plantState x, x⟩ List.mem_cons_self⟩

omit hcand halong hplant in
/-- What is visited is reached, the state of the pair included. -/
theorem Search.Sound.visited_follow {y : StateId} (hy : y ∈ s'.visited.insert x) :
    y ∈ cand.accessibleSet := by
  rcases IdentSet.mem_insert.mp hy with rfl | hy
  · exact hs.pending_reached ⟨plantState y, y⟩ List.mem_cons_self
  · exact hs.visited_reached y (h.visited_eq ▸ hy)

/-- What was explored stays explored, and the state of the pair is, unless it is found critical. -/
theorem Search.Sound.explored_follow {critical : StateSet} (hmore : ∀ y ∈ s.critical, y ∈ critical)
    (hx : x ∉ critical → isCritical = false) {y : StateId} (hy : y ∈ s'.visited.insert x) :
    y ∈ critical ∨ ({ s' with visited := s'.visited.insert x } : Search).Explored plant controllable
      cand plantState y := by
  refine or_iff_not_imp_left.mpr fun hnot => ?_
  rcases IdentSet.mem_insert.mp hy with rfl | hy
  · have hreached := hs.pending_reached ⟨plantState y, y⟩ List.mem_cons_self
    exact explored_of_not_critical hcand halong hplant hreached (hx hnot ▸ h)
  · have hbefore := (hs.explored y (h.visited_eq ▸ hy)).resolve_left fun h => hnot (hmore y h)
    refine hbefore.mono (fun z hz => ?_) (fun q hq => ?_) h.followed_of_mem
    · exact IdentSet.mem_insert.mpr (.inr (h.visited_eq.symm ▸ hz))
    · rcases List.mem_cons.mp hq with rfl | hq
      · exact .inl (IdentSet.mem_insert.mpr (.inl rfl))
      · exact .inr (h.pending_of_mem q hq)

end

/-- Visiting the next pending pair. If it is critical, so are all states that lead
to it by uncontrollable events among those visited. Otherwise it complies as far as
the search has come. -/
theorem Search.Sound.visit {x : StateId}
    (hs : ({ s with pending := ⟨plantState x, x⟩ :: s.pending } : Search).Sound plant controllable
      cand plantState) :
    (visit plant controllable cand s ⟨plantState x, x⟩).Sound plant controllable cand
      plantState := by
  have hspec := follow_spec controllable s (plant.joinAt cand ⟨plantState x, x⟩)
  rw [ControllablePart.visit]
  generalize follow controllable s (plant.joinAt cand ⟨plantState x, x⟩) = out at hspec
  obtain ⟨s', isCritical⟩ := out
  dsimp only at hspec ⊢
  have hpending := fun q (hq : q ∈ s'.pending) => hs.pending_follow hcand halong hplant hspec hq
  have hfollowed := fun t (ht : t ∈ s'.followed) => hs.followed_follow hcand hplant hspec ht
  have hforced := hspec.forced hs.forced
  cases isCritical with
  | true =>
    -- `x` is critical, and so is all that leads to it by uncontrollable events
    rw [if_pos rfl]
    refine ⟨fun q hq => (hpending q hq).1, fun q hq => (hpending q hq).2,
      fun y hy => hs.visited_follow hspec hy, hfollowed, fun safe hsafe y hy => ?_, fun y hy => ?_,
      fun t ht hev htarget => ?_⟩
    · have hcritical : ∀ z ∈ s.critical, z ∉ safe := hs.not_safe safe hsafe
      have hreached := hs.pending_reached ⟨plantState x, x⟩ List.mem_cons_self
      have hx : x ∉ safe :=
        not_safe_of_critical hcand halong hplant hreached hsafe hcritical (hspec.of_critical rfl)
      rcases IdentSet.mem_union.mp hy with hy | hy
      · exact hcritical y (hspec.critical_eq ▸ hy)
      · exact not_mem_safe_of_mem_forcedInto hcand halong hsafe hfollowed hx hy
    · refine (hs.explored_follow hcand halong hplant hspec (fun z hz => ?_) (fun hx => ?_) hy).imp_right
        fun h => ⟨h.complies, h.known, h.followed⟩
      · exact IdentSet.mem_union.mpr (.inl (hspec.critical_eq.symm ▸ hz))
      · exact absurd (IdentSet.mem_union.mpr (.inr (mem_forcedInto.mpr .refl))) hx
    · refine IdentSet.mem_union.mpr ?_
      rcases IdentSet.mem_union.mp htarget with htarget | htarget
      · exact .inl (hforced t ht hev htarget)
      · exact source_mem_forcedInto ht hev htarget
  | false =>
    -- `x` complies as far as is known, and its successors are pending
    rw [if_neg Bool.false_ne_true]
    refine ⟨fun q hq => (hpending q hq).1, fun q hq => (hpending q hq).2,
      fun y hy => hs.visited_follow hspec hy, hfollowed,
      fun safe hsafe y hy => hs.not_safe safe hsafe y (hspec.critical_eq ▸ hy), fun y hy => ?_, hforced⟩
    exact (hs.explored_follow hcand halong hplant hspec (fun z hz => hspec.critical_eq.symm ▸ hz)
      (fun _ => rfl) hy).imp_right fun h => ⟨h.complies, h.known, h.followed⟩

omit hcand halong hplant in
/-- Pairs whose states have been visited need not be visited again. -/
theorem Search.Sound.dropVisited (hs : s.Sound plant controllable cand plantState)
    {rest : List StatePair} (hrest : s.pending.dropWhile (·.right ∈ s.visited) = rest) :
    ({ s with pending := rest } : Search).Sound plant controllable cand plantState ∧
      ∀ p ∈ s.pending, p.right ∈ s.visited ∨ p ∈ rest := by
  have hsplit : ∀ p ∈ s.pending, p.right ∈ s.visited ∨ p ∈ rest := by
    intro p hp
    rw [← List.takeWhile_append_dropWhile (p := (·.right ∈ s.visited)) (l := s.pending), hrest] at hp
    rcases List.mem_append.mp hp with hp | hp
    · exact .inl (of_decide_eq_true (List.all_eq_true.mp List.all_takeWhile p hp))
    · exact .inr hp
  have hsub : ∀ p ∈ rest, p ∈ s.pending := fun p hp =>
    (List.dropWhile_suffix (·.right ∈ s.visited)).subset (hrest ▸ hp)
  refine ⟨⟨fun p hp => hs.in_step p (hsub p hp), fun p hp => hs.pending_reached p (hsub p hp),
    hs.visited_reached, hs.followed_mem, hs.not_safe, fun x hx => ?_, hs.forced⟩, hsplit⟩
  exact (hs.explored x hx).imp_right fun h => h.mono (fun _ hy => hy) hsplit fun _ ht => ht

omit hcand halong hplant in
/-- Visiting a pair takes no other one away from the pending ones. -/
theorem mem_pending_visit {q : StatePair} (hq : q ∈ s.pending) :
    q ∈ (visit plant controllable cand s p).pending := by
  have hmem := (follow_spec controllable s (plant.joinAt cand p)).pending_of_mem q hq
  rw [ControllablePart.visit]
  dsimp only
  split <;> exact hmem

/-- **The whole search**: at its end, whatever was or is pending has been visited.
What is left in the list when it ends was visited before, and so every target of a
visited state that complies is visited, too. -/
theorem Search.Sound.run (hs : s.Sound plant controllable cand plantState) :
    (run plant controllable cand s).Sound plant controllable cand plantState ∧
    (∀ x ∈ s.visited, x ∈ (run plant controllable cand s).visited) ∧
    (∀ p ∈ s.pending, p.right ∈ (run plant controllable cand s).visited) ∧
    ∀ p ∈ (run plant controllable cand s).pending,
      p.right ∈ (run plant controllable cand s).visited := by
  fun_induction ControllablePart.run plant controllable cand s with
  | case1 s hdone =>
    have hvisited : ∀ p ∈ s.pending, p.right ∈ s.visited := fun p hp =>
      ((hs.dropVisited hdone).2 p hp).resolve_right List.not_mem_nil
    exact ⟨hs, fun _ hx => hx, hvisited, hvisited⟩
  | case2 s p rest hdrop ih =>
    obtain ⟨hs', hsplit⟩ := hs.dropVisited hdrop
    -- the pair is in step, so it is the pair that goes with its state
    have hp : p = ⟨plantState p.right, p.right⟩ := by
      rw [← hs'.in_step p List.mem_cons_self]
    have hvisit := hs'
    rw [hp] at hvisit
    obtain ⟨hsound, hmore, hpending, hdone⟩ :=
      ih (hp ▸ Search.Sound.visit hcand halong hplant hvisit)
    have hmono : ∀ x ∈ s.visited.insert p.right, x ∈ (ControllablePart.run plant controllable cand
        (ControllablePart.visit plant controllable cand { s with pending := rest } p)).visited := by
      intro x hx
      refine hmore x ?_
      rwa [visited_visit]
    refine ⟨hsound, fun x hx => hmono x (IdentSet.mem_insert.mpr (.inr hx)), fun q hq => ?_, hdone⟩
    rcases hsplit q hq with hq | hq
    · exact hmono _ (IdentSet.mem_insert.mpr (.inr hq))
    · rcases List.mem_cons.mp hq with rfl | hq
      · exact hmono _ (IdentSet.mem_insert.mpr (.inl rfl))
      · exact hpending q (mem_pending_visit hq)

end

end ControllablePart

/-! ## What is kept

The search starts with the initial states. If there are none, or if they are
critical, nothing is kept. -/

/-- The controllable part has lost states at most. -/
theorem Automaton.WellFormed.isPart_controllablePart {g : Automaton} (hg : g.WellFormed)
    (plant : Automaton) (controllable : EventSet) :
    (controllablePart plant controllable g).IsPart g ∧
      (controllablePart plant controllable g).WellFormed := by
  rw [controllablePart]
  split
  · exact ⟨hg.isPart, hg⟩
  · exact ⟨hg.isPart_restrictStates _, hg.restrictStates _⟩

section

variable {plant cand : Automaton} {controllable : EventSet} {plantState : StateId → StateId}
  {x₀ : StateId}

/-- The search for the controllable part, from the initial states on. One state of
the candidate is attached to one state of the plant, so a pair is known from its
right component. -/
theorem sound_of_run_eq (hcand : cand.HasUniqueSuccessors)
    (halong : GoesAlongReached plant cand plantState) (hplant : plant.HasUniqueSuccessors)
    (hx₀ : x₀ ∈ cand.initial) {s : ControllablePart.Search}
    (hs : ControllablePart.run plant controllable cand ⟨[⟨plantState x₀, x₀⟩], ∅, ∅, []⟩ = s) :
    s.Sound plant controllable cand plantState ∧ x₀ ∈ s.visited ∧
      ∀ p ∈ s.pending, p.right ∈ s.visited := by
  have hstart : (⟨[⟨plantState x₀, x₀⟩], ∅, ∅, []⟩ : ControllablePart.Search).Sound plant
      controllable cand plantState := by
    refine ⟨fun p hp => ?_, fun p hp => ?_, fun _ hx => absurd hx IdentSet.not_mem_empty,
      fun _ ht => absurd ht List.not_mem_nil, fun _ _ _ hx => absurd hx IdentSet.not_mem_empty,
      fun _ hx => absurd hx IdentSet.not_mem_empty, fun _ ht => absurd ht List.not_mem_nil⟩
    · rw [List.mem_singleton.mp hp]
    · rw [List.mem_singleton.mp hp]
      exact Automaton.mem_accessibleSet_of_mem_initial hx₀
  have hrun := ControllablePart.Search.Sound.run hcand halong hplant hstart
  rw [hs] at hrun
  obtain ⟨hsound, -, hpending, hdone⟩ := hrun
  exact ⟨hsound, hpending ⟨plantState x₀, x₀⟩ List.mem_cons_self, hdone⟩

variable (hcand : cand.HasUniqueSuccessors) (halong : GoesAlongReached plant cand plantState)
  (hplant : plant.HasUniqueSuccessors)
  (hstart : initialPair? plant cand = some ⟨plantState x₀, x₀⟩)
include hcand halong hplant hstart

/-- **What is kept**: a path within a set of states that comply within it ends in a
state of the controllable part. It is visited, as the search goes on from every
state that is not critical, and no state of the set is critical. -/
theorem mem_controllablePart (safe : Set StateId)
    (hsafe : ∀ x ∈ safe, CompliesWithin plant controllable cand plantState safe x)
    {ts : List Transition} (hts : cand.IsPath x₀ ts) (hx₀ : x₀ ∈ safe)
    (hvisits : ∀ t ∈ ts, t.target ∈ safe) (hend : endOf x₀ ts ∈ cand.states) :
    endOf x₀ ts ∈ (controllablePart plant controllable cand).states := by
  rw [controllablePart, hstart]
  dsimp only
  generalize hrun : ControllablePart.run plant controllable cand
    ⟨[⟨plantState x₀, x₀⟩], ∅, ∅, []⟩ = s
  obtain ⟨hsound, hfirst, hdone⟩ := sound_of_run_eq hcand halong hplant
    (mem_initial_of_initialPair?_eq_some hstart).2 hrun
  have hcritical : ∀ x ∈ safe, x ∉ s.critical := fun x hx hc => hsound.not_safe safe hsafe x hc hx
  -- every state on the path is visited, since the one before it is visited and not critical
  have hvisited : endOf x₀ ts ∈ s.visited ∧ endOf x₀ ts ∈ safe := by
    clear hend
    induction ts using List.reverseRecOn with
    | nil => exact ⟨hfirst, hx₀⟩
    | append_singleton ts t ih =>
      obtain ⟨hts, ht, hsource⟩ := Automaton.isPath_concat.mp hts
      obtain ⟨hmem, hin⟩ := ih hts fun u hu => hvisits u (List.mem_append_left _ hu)
      rw [endOf_concat]
      refine ⟨?_, hvisits t (List.mem_append_right _ List.mem_cons_self)⟩
      have hexplored := (hsound.explored _ hmem).resolve_left (hcritical _ hin)
      rcases hexplored.known t ht hsource with htarget | ⟨q, hq, hright⟩
      · exact htarget
      · exact hright ▸ hdone q hq
  refine Automaton.mem_states_restrictStates.mpr ⟨hend, IdentSet.mem_sdiff.mpr ⟨hvisited.1, ?_⟩⟩
  exact hcritical _ hvisited.2

/-- **What is kept complies**, within what is kept, and is reached in the candidate.
An uncontrollable transition from a state that is kept was followed, so its target
is not critical; and it was visited. -/
theorem complies_controllablePart (hwf : cand.WellFormed) {x : StateId}
    (hx : x ∈ (controllablePart plant controllable cand).states) :
    CompliesWithin plant controllable cand plantState
      (controllablePart plant controllable cand).states.carrier x ∧ x ∈ cand.accessibleSet := by
  rw [controllablePart, hstart] at hx ⊢
  dsimp only at hx ⊢
  generalize hrun : ControllablePart.run plant controllable cand
    ⟨[⟨plantState x₀, x₀⟩], ∅, ∅, []⟩ = s at hx ⊢
  obtain ⟨hsound, -, hdone⟩ := sound_of_run_eq hcand halong hplant
    (mem_initial_of_initialPair?_eq_some hstart).2 hrun
  obtain ⟨hvisited, hcritical⟩ := IdentSet.mem_sdiff.mp (Automaton.mem_states_restrictStates.mp hx).2
  have hexplored := (hsound.explored x hvisited).resolve_left hcritical
  refine ⟨fun l hl hlsource hev => ?_, hsound.visited_reached x hvisited⟩
  obtain ⟨r, hr, rfl, hevent, -⟩ := hexplored.complies l hl hlsource hev
  refine ⟨r, hr, rfl, hevent, Automaton.mem_states_restrictStates.mpr ⟨hwf.target_mem r hr, ?_⟩⟩
  have hfollowed := hexplored.followed r hr rfl (hevent.symm ▸ hev)
  refine IdentSet.mem_sdiff.mpr ⟨?_, fun hc => hcritical (hsound.forced r hfollowed
    (hevent.symm ▸ hev) hc)⟩
  rcases hexplored.known r hr rfl with htarget | ⟨q, hq, hright⟩
  · exact htarget
  · exact hright ▸ hdone q hq

/-- **If nothing is taken away**, every state goes along with the uncontrollable events of
the plant. -/
theorem complies_of_controllablePart_eq (hwf : cand.WellFormed)
    (heq : controllablePart plant controllable cand = cand) {x : StateId} (hx : x ∈ cand.states) :
    CompliesWithin plant controllable cand plantState Set.univ x := by
  intro l hl hlsource hev
  obtain ⟨r, hr, hrsource, hevent, -⟩ :=
    (complies_controllablePart hcand halong hplant hstart hwf (heq.symm ▸ hx)).1 l hl hlsource hev
  exact ⟨r, hr, hrsource, hevent, Set.mem_univ _⟩

end

end OmegaControl
