import OmegaControl.Inclusion
import OmegaControl.Proofs.Iteration
import OmegaControl.Proofs.Path

/-!
# Joining by event

The transitions that leave one state ascend by event, each event at most once, if
successors are unique. On such lists `joinByEvent` pairs off exactly the transitions
that share an event (`both_mem_joinAt_iff`), and lists on the left those without a
partner (`left_mem_joinAt_iff`). The pairs and the others ascend by event again
(`joinAt_ascends`).

Deterministic automata that run in step start in the only pair of initial states, if
there is one (`initialPair?_eq_some_iff`).

The inductions follow the merge: it takes the head of one list or of both, depending
on which event comes first, and what is taken has an event that nothing after it
has.
-/

namespace OmegaControl

/-- The events of the transitions ascend strictly, so that no two of them have the
same one. -/
abbrev AscendsByEvent (ts : List Transition) : Prop :=
  ts.Pairwise fun s t => s.event.index < t.event.index

variable {ls rs : List Transition} {l r : Transition}

/-- What is paired off are the transitions that share an event. Of two heads with
different events the lower one is put in front alone. As both lists ascend, no
partner for it comes later. -/
theorem both_mem_joinByEvent_iff (hl : AscendsByEvent ls) (hr : AscendsByEvent rs) :
    .both l r ∈ joinByEvent ls rs ↔ l ∈ ls ∧ r ∈ rs ∧ l.event = r.event := by
  fun_induction joinByEvent ls rs with
  | case1 => simp
  | case2 => simp
  | case3 l' ls r' rs hevent ih =>
    -- the two heads share an event, which nothing after them has
    obtain ⟨hl', hls⟩ := List.pairwise_cons.mp hl
    obtain ⟨hr', hrs⟩ := List.pairwise_cons.mp hr
    rw [List.mem_cons, ih hls hrs, List.mem_cons, List.mem_cons, Joined.both.injEq]
    constructor
    · rintro (⟨rfl, rfl⟩ | ⟨hmeml, hmemr, he⟩)
      · exact ⟨.inl rfl, .inl rfl, hevent⟩
      · exact ⟨.inr hmeml, .inr hmemr, he⟩
    · rintro ⟨rfl | hmeml, rfl | hmemr, he⟩
      · exact .inl ⟨rfl, rfl⟩
      · exact absurd (hr' r hmemr) (by rw [← he, hevent]; exact Nat.lt_irrefl _)
      · exact absurd (hl' l hmeml) (by rw [he, hevent]; exact Nat.lt_irrefl _)
      · exact .inr ⟨hmeml, hmemr, he⟩
  -- the left head comes first, so no transition on the right has its event
  | case4 l' ls r' rs hevent hlt ih =>
    obtain ⟨hl', hls⟩ := List.pairwise_cons.mp hl
    obtain ⟨hr', -⟩ := List.pairwise_cons.mp hr
    rw [List.mem_cons, ih hls hr, List.mem_cons (a := l), or_iff_right (by simp)]
    refine ⟨fun ⟨hmeml, hmemr, he⟩ => ⟨.inr hmeml, hmemr, he⟩, ?_⟩
    rintro ⟨rfl | hmeml, hmemr, he⟩
    · rcases List.mem_cons.mp hmemr with rfl | hmemr
      · exact absurd he hevent
      · have hgt := hr' r hmemr
        rw [← he] at hgt
        omega
    · exact ⟨hmeml, hmemr, he⟩
  -- the right head comes first, so no transition on the left has its event
  | case5 l' ls r' rs hevent hge ih =>
    obtain ⟨hl', -⟩ := List.pairwise_cons.mp hl
    obtain ⟨hr', hrs⟩ := List.pairwise_cons.mp hr
    rw [List.mem_cons, ih hl hrs, List.mem_cons (a := r), or_iff_right (by simp)]
    refine ⟨fun ⟨hmeml, hmemr, he⟩ => ⟨hmeml, .inr hmemr, he⟩, ?_⟩
    rintro ⟨hmeml, rfl | hmemr, he⟩
    · rcases List.mem_cons.mp hmeml with rfl | hmeml
      · exact absurd he hevent
      · have hgt := hl' l hmeml
        rw [he] at hgt
        omega
    · exact ⟨hmeml, hmemr, he⟩

/-- What is left alone on the left are the transitions whose event the right list
does not have. -/
theorem left_mem_joinByEvent_iff (hl : AscendsByEvent ls) (hr : AscendsByEvent rs) :
    .left l ∈ joinByEvent ls rs ↔ l ∈ ls ∧ ∀ r ∈ rs, r.event ≠ l.event := by
  fun_induction joinByEvent ls rs with
  | case1 => simp
  | case2 => simp
  | case3 l' ls r' rs hevent ih =>
    obtain ⟨hl', hls⟩ := List.pairwise_cons.mp hl
    obtain ⟨hr', hrs⟩ := List.pairwise_cons.mp hr
    rw [List.mem_cons, ih hls hrs, List.mem_cons, List.forall_mem_cons, or_iff_right (by simp)]
    constructor
    · rintro ⟨hmem, hnone⟩
      refine ⟨.inr hmem, fun he => ?_, hnone⟩
      have hgt := hl' l hmem
      rw [hevent, he] at hgt
      exact Nat.lt_irrefl _ hgt
    · rintro ⟨rfl | hmem, hne, hnone⟩
      · exact absurd hevent.symm hne
      · exact ⟨hmem, hnone⟩
  -- here a transition is left alone, since all events on the right come later
  | case4 l' ls r' rs hevent hlt ih =>
    obtain ⟨hl', hls⟩ := List.pairwise_cons.mp hl
    obtain ⟨hr', -⟩ := List.pairwise_cons.mp hr
    rw [List.mem_cons, ih hls hr, List.mem_cons, Joined.left.injEq]
    constructor
    · rintro (rfl | ⟨hmem, hnone⟩)
      · refine ⟨.inl rfl, fun r hmem he => ?_⟩
        rcases List.mem_cons.mp hmem with rfl | hmem
        · exact hevent he.symm
        · have hgt := hr' r hmem
          rw [he] at hgt
          omega
      · exact ⟨.inr hmem, hnone⟩
    · rintro ⟨rfl | hmem, hnone⟩
      · exact .inl rfl
      · exact .inr ⟨hmem, hnone⟩
  | case5 l' ls r' rs hevent hge ih =>
    obtain ⟨hl', -⟩ := List.pairwise_cons.mp hl
    obtain ⟨-, hrs⟩ := List.pairwise_cons.mp hr
    rw [List.mem_cons, ih hl hrs, List.forall_mem_cons, or_iff_right (by simp)]
    refine ⟨fun ⟨hmem, hnone⟩ => ⟨hmem, fun he => ?_, hnone⟩, fun ⟨hmem, _, hnone⟩ => ⟨hmem, hnone⟩⟩
    rcases List.mem_cons.mp hmem with rfl | hmem
    · exact hevent he.symm
    · have hgt := hl' l hmem
      rw [← he] at hgt
      omega

/-- The event that is offered, by the left side wherever both offer it. In a join
the two sides offer the same one. -/
def Joined.event : Joined → EventId
  | .both l _ => l.event
  | .left t => t.event
  | .right t => t.event

/-- What is offered comes from one of the two sides. This is all that is needed to
see that it ascends. -/
theorem exists_event_eq_of_mem_joinByEvent {j : Joined} (hj : j ∈ joinByEvent ls rs) :
    (∃ l ∈ ls, l.event = j.event) ∨ ∃ r ∈ rs, r.event = j.event := by
  fun_induction joinByEvent ls rs with
  | case1 rs =>
    obtain ⟨r, hr, rfl⟩ := List.mem_map.mp hj
    exact .inr ⟨r, hr, rfl⟩
  | case2 l ls =>
    obtain ⟨t, ht, rfl⟩ := List.mem_map.mp hj
    exact .inl ⟨t, ht, rfl⟩
  | case3 l ls r rs hevent ih =>
    rcases List.mem_cons.mp hj with rfl | hj
    · exact .inl ⟨l, List.mem_cons_self, rfl⟩
    · exact (ih hj).imp (fun ⟨t, ht, he⟩ => ⟨t, List.mem_cons_of_mem l ht, he⟩)
        fun ⟨t, ht, he⟩ => ⟨t, List.mem_cons_of_mem r ht, he⟩
  | case4 l ls r rs hevent hlt ih =>
    rcases List.mem_cons.mp hj with rfl | hj
    · exact .inl ⟨l, List.mem_cons_self, rfl⟩
    · exact (ih hj).imp_left fun ⟨t, ht, he⟩ => ⟨t, List.mem_cons_of_mem l ht, he⟩
  | case5 l ls r rs hevent hge ih =>
    rcases List.mem_cons.mp hj with rfl | hj
    · exact .inr ⟨r, List.mem_cons_self, rfl⟩
    · exact (ih hj).imp_right fun ⟨t, ht, he⟩ => ⟨t, List.mem_cons_of_mem r ht, he⟩

/-- The join of two ascending lists ascends. So it is an ascending list of events,
like the lists it was made from. -/
theorem joinByEvent_ascends (hl : AscendsByEvent ls) (hr : AscendsByEvent rs) :
    (joinByEvent ls rs).Pairwise fun i j => i.event.index < j.event.index := by
  -- each case puts the lowest event that is left in front
  fun_induction joinByEvent ls rs with
  | case1 rs => exact List.pairwise_map.mpr hr
  | case2 l ls => exact List.pairwise_map.mpr hl
  | case3 l ls r rs hevent ih =>
    obtain ⟨hl', hls⟩ := List.pairwise_cons.mp hl
    obtain ⟨hr', hrs⟩ := List.pairwise_cons.mp hr
    refine List.pairwise_cons.mpr ⟨fun j hj => ?_, ih hls hrs⟩
    rcases exists_event_eq_of_mem_joinByEvent hj with ⟨t, ht, he⟩ | ⟨t, ht, he⟩
    · exact he ▸ hl' t ht
    · have hgt := hr' t ht
      rwa [← hevent, he] at hgt
  | case4 l ls r rs hevent hlt ih =>
    obtain ⟨hl', hls⟩ := List.pairwise_cons.mp hl
    refine List.pairwise_cons.mpr ⟨fun j hj => ?_, ih hls hr⟩
    rcases exists_event_eq_of_mem_joinByEvent hj with ⟨t, ht, he⟩ | ⟨t, ht, he⟩
    · exact he ▸ hl' t ht
    · rcases List.mem_cons.mp ht with rfl | ht
      · exact he ▸ hlt
      · exact he ▸ hlt.trans ((List.pairwise_cons.mp hr).1 t ht)
  | case5 l ls r rs hevent hge ih =>
    obtain ⟨hr', hrs⟩ := List.pairwise_cons.mp hr
    have hlt : r.event.index < l.event.index := by
      have hne : l.event.index ≠ r.event.index := fun h => hevent (Ident.index_inj.mp h)
      omega
    refine List.pairwise_cons.mpr ⟨fun j hj => ?_, ih hl hrs⟩
    rcases exists_event_eq_of_mem_joinByEvent hj with ⟨t, ht, he⟩ | ⟨t, ht, he⟩
    · rcases List.mem_cons.mp ht with rfl | ht
      · exact he ▸ hlt
      · exact he ▸ hlt.trans ((List.pairwise_cons.mp hl).1 t ht)
    · exact he ▸ hr' t ht

namespace Automaton

variable {g g₁ g₂ : Automaton} {x : StateId} {p : StatePair}

/-- With unique successors, the transitions of a state ascend by event. They are
listed in ascending order, and those of one state with one event would be the same. -/
theorem HasUniqueSuccessors.transitionsFrom_ascends (hg : g.HasUniqueSuccessors) (x : StateId) :
    AscendsByEvent (g.transitionsFrom x) := by
  rw [transitionsFrom_eq_filter]
  refine (g.transitions.ordered_toList.filter _).imp_of_mem fun {s t} hs ht hlt => ?_
  obtain ⟨hs, hsx⟩ := List.mem_filter.mp hs
  obtain ⟨ht, htx⟩ := List.mem_filter.mp ht
  have hsource : s.source = t.source :=
    (of_decide_eq_true hsx).trans (of_decide_eq_true htx).symm
  rcases Transition.compare_eq_lt_iff.mp hlt with hlt' | ⟨-, hlt' | ⟨hevent, hlt'⟩⟩
  · rw [hsource] at hlt'
    exact absurd hlt' (Nat.lt_irrefl _)
  · exact hlt'
  · obtain rfl := hg s (Std.ExtTreeSet.mem_toList.mp hs) t (Std.ExtTreeSet.mem_toList.mp ht)
      hsource (Ident.index_inj.mp hevent)
    exact absurd hlt' (Nat.lt_irrefl _)

/-- Both automata can take a step together if they can do so on a shared event. -/
theorem both_mem_joinAt_iff (h₁ : g₁.HasUniqueSuccessors) (h₂ : g₂.HasUniqueSuccessors) :
    .both l r ∈ g₁.joinAt g₂ p ↔ (l ∈ g₁.transitions ∧ l.source = p.left) ∧
      (r ∈ g₂.transitions ∧ r.source = p.right) ∧ l.event = r.event := by
  rw [joinAt, both_mem_joinByEvent_iff (h₁.transitionsFrom_ascends _) (h₂.transitionsFrom_ascends _),
    mem_transitionsFrom, mem_transitionsFrom]

/-- The left automaton is alone on an event that the right one does not have at its
state. -/
theorem left_mem_joinAt_iff (h₁ : g₁.HasUniqueSuccessors) (h₂ : g₂.HasUniqueSuccessors) :
    .left l ∈ g₁.joinAt g₂ p ↔ (l ∈ g₁.transitions ∧ l.source = p.left) ∧
      ∀ r ∈ g₂.transitions, r.source = p.right → r.event ≠ l.event := by
  rw [joinAt, left_mem_joinByEvent_iff (h₁.transitionsFrom_ascends _) (h₂.transitionsFrom_ascends _),
    mem_transitionsFrom]
  simp only [mem_transitionsFrom, and_imp]

/-- What the two can do ascends by event. -/
theorem joinAt_ascends (h₁ : g₁.HasUniqueSuccessors) (h₂ : g₂.HasUniqueSuccessors) (p : StatePair) :
    (g₁.joinAt g₂ p).Pairwise fun i j => i.event.index < j.event.index :=
  joinByEvent_ascends (h₁.transitionsFrom_ascends _) (h₂.transitionsFrom_ascends _)

theorem mem_initial_of_initialState?_eq_some (hx : g.initialState? = some x) : x ∈ g.initial := by
  rw [initialState?, IdentSet.first?] at hx
  exact IdentSet.mem_toList.mp (List.mem_of_mem_head? hx)

/-- The initial state of a deterministic automaton, if there is one. -/
theorem initialState?_eq_some_iff (hg : g.IsDeterministic) :
    g.initialState? = some x ↔ x ∈ g.initial := by
  constructor
  · exact mem_initial_of_initialState?_eq_some
  · intro hx
    rw [initialState?, IdentSet.first?]
    rcases hhead : g.initial.toList.head? with _ | y
    · rw [List.head?_eq_none_iff] at hhead
      exact absurd (hhead ▸ IdentSet.mem_toList.mpr hx) List.not_mem_nil
    · have hy := IdentSet.mem_toList.mp (List.mem_of_mem_head? hhead)
      rw [IdentSet.eq_of_size_le_one hg.1 hx hy]

end Automaton

/-- The pair that a search starts from holds initial states, even if the automata
are not deterministic. -/
theorem mem_initial_of_initialPair?_eq_some {g₁ g₂ : Automaton} {p : StatePair}
    (hp : initialPair? g₁ g₂ = some p) : p.left ∈ g₁.initial ∧ p.right ∈ g₂.initial := by
  rw [initialPair?] at hp
  split at hp
  next x y hx hy =>
    obtain rfl := Option.some.inj hp
    exact ⟨Automaton.mem_initial_of_initialState?_eq_some hx,
      Automaton.mem_initial_of_initialState?_eq_some hy⟩
  next => cases hp

/-- The pair of initial states of deterministic automata is the only one there is. -/
theorem initialPair?_eq_some_iff {g₁ g₂ : Automaton} {p : StatePair} (h₁ : g₁.IsDeterministic)
    (h₂ : g₂.IsDeterministic) :
    initialPair? g₁ g₂ = some p ↔ p.left ∈ g₁.initial ∧ p.right ∈ g₂.initial := by
  rw [← Automaton.initialState?_eq_some_iff h₁, ← Automaton.initialState?_eq_some_iff h₂,
    initialPair?]
  cases g₁.initialState? with
  | none => simp
  | some x₁ =>
    cases g₂.initialState? with
    | none => simp
    | some x₂ =>
      obtain ⟨y₁, y₂⟩ := p
      simp

end OmegaControl
