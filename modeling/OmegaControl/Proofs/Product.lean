import Mathlib.Data.List.ProdSigma
import OmegaControl.Product
import OmegaControl.Proofs.Components
import OmegaControl.Proofs.Reaching

/-!
# Paths of the product

As long as numbers do not run out, a state of the synchronous product stands for one
pair of states, and its transitions are steps of both components
(`isProduct_product`). So a cycle of the product is one of the left component,
through the states that its pairs hold (`IsProduct.exists_cycle`). The pairs are
those that common words lead to, and steps, starts and marks are all that both
components have in common (`isSynchronousProduct_product`).

The components may be nondeterministic and may have several initial states. If they
are deterministic, so is the product, and a word leads to the pair of the states it
leads to (`Unfolds.exists_reaches_pair`).
-/

namespace OmegaControl.Automaton

variable {g g₁ g₂ : Automaton} {numbers : Composition} {p q : StatePair} {x y : StateId}
  {ev : EventId} {t : Transition}

/-- A joint step is one of both components on the same event. -/
theorem mem_jointSteps : (ev, q) ∈ g₁.jointSteps g₂ p ↔
    ⟨p.left, ev, q.left⟩ ∈ g₁.transitions ∧ ⟨p.right, ev, q.right⟩ ∈ g₂.transitions := by
  rw [jointSteps, List.mem_flatMap]
  constructor
  · rintro ⟨t₁, ht₁, hmem⟩
    obtain ⟨t₂, ht₂, heq⟩ := List.mem_map.mp hmem
    obtain ⟨rfl, rfl⟩ := Prod.mk.inj heq
    obtain ⟨ht₁, hsource₁⟩ := mem_transitionsFrom.mp ht₁
    obtain ⟨ht₂, hsource₂, hevent⟩ := mem_transitionsOn.mp ht₂
    exact ⟨mk_mem_transitions ht₁ hsource₁, hevent ▸ mk_mem_transitions ht₂ hsource₂⟩
  · rintro ⟨h₁, h₂⟩
    refine ⟨_, mem_transitionsFrom.mpr ⟨h₁, rfl⟩, List.mem_map.mpr ⟨⟨p.right, ev, q.right⟩, ?_, rfl⟩⟩
    exact mem_transitionsOn.mpr ⟨h₂, rfl, rfl⟩

theorem mem_initialPairs : p ∈ g₁.initialPairs g₂ ↔ p.left ∈ g₁.initial ∧ p.right ∈ g₂.initial := by
  obtain ⟨x, y⟩ := p
  simp [initialPairs, IdentSet.mem_toList]

/-- A common word leads to each pair that the product holds: the events on the way
to it. -/
theorem exists_reaches_of_mem_jointPairs (hp : p ∈ g₁.jointPairs g₂) :
    ∃ s, g₁.Reaches s p.left ∧ g₂.Reaches s p.right := by
  obtain ⟨start, hstart, hleads⟩ := Traversal.mem_discover.mp hp
  induction hleads with
  | refl =>
    obtain ⟨hleft, hright⟩ := mem_initialPairs.mp hstart
    exact ⟨[], reaches_nil.mpr hleft, reaches_nil.mpr hright⟩
  | @tail p _ hreach hstep ih =>
    obtain ⟨s, hleft, hright⟩ := ih (Traversal.mem_discover.mpr ⟨start, hstart, hreach⟩)
    obtain ⟨⟨ev, q⟩, hmem, rfl⟩ := List.mem_map.mp hstep
    obtain ⟨ht₁, ht₂⟩ := mem_jointSteps.mp hmem
    exact ⟨s ++ [ev], hleft.concat ht₁, hright.concat ht₂⟩

/-- There are at most as many pairs as the sizes of the components say. This is how
a bound on the components becomes one on the numbers that are needed. -/
theorem length_jointPairs_le (h₁ : g₁.WellFormed) (h₂ : g₂.WellFormed) :
    (g₁.jointPairs g₂).length ≤ g₁.size * g₂.size := by
  have hpairs : g₁.jointPairs g₂ ⊆
      (g₁.states.toList ×ˢ g₂.states.toList).map fun (x, y) => ⟨x, y⟩ := by
    intro p hp
    obtain ⟨s, hleft, hright⟩ := exists_reaches_of_mem_jointPairs hp
    refine List.mem_map.mpr ⟨(p.left, p.right), List.mem_product.mpr ⟨?_, ?_⟩, rfl⟩
    · exact IdentSet.mem_toList.mpr (hleft.mem_states h₁)
    · exact IdentSet.mem_toList.mpr (hright.mem_states h₂)
  have hle := Traversal.discover_nodup.length_le_of_subset hpairs
  rwa [List.length_map, List.length_product, IdentSet.length_toList, IdentSet.length_toList] at hle

/-- The states of `g` stand for pairs of states of the components, and its
transitions for steps of both. Nothing is said about pairs that are left out; this
is all that a cycle of `g` needs. -/
structure IsProduct (g₁ g₂ g : Automaton) (numbers : Composition) : Prop where
  wellFormed : g.WellFormed
  /-- no state stands for two pairs -/
  injective : ∀ {p q : StatePair} {x : StateId}, numbers[p]? = some x → numbers[q]? = some x → p = q
  /-- the pairs are those that are reached -/
  mem_jointPairs : ∀ {p : StatePair} {x : StateId}, numbers[p]? = some x → p ∈ g₁.jointPairs g₂
  /-- every transition is a step of both components -/
  step_of_mem : ∀ t ∈ g.transitions, ∃ p q : StatePair, numbers[p]? = some t.source ∧
    numbers[q]? = some t.target ∧ (t.event, q) ∈ g₁.jointSteps g₂ p

/-- The states whose pair passes a test. -/
theorem mem_statesWhere {test : StatePair → Bool} : x ∈ statesWhere numbers test ↔
    ∃ p : StatePair, numbers[p]? = some x ∧ test p = true := by
  rw [statesWhere, IdentSet.mem_ofList, List.mem_map]
  constructor
  · rintro ⟨⟨p, x⟩, hmem, rfl⟩
    obtain ⟨hp, htest⟩ := List.mem_filter.mp hmem
    exact ⟨p, Std.ExtTreeMap.mem_toList_iff_getElem?_eq_some.mp hp, htest⟩
  · rintro ⟨p, hp, htest⟩
    refine ⟨(p, x), List.mem_filter.mpr ⟨?_, htest⟩, rfl⟩
    exact Std.ExtTreeMap.mem_toList_iff_getElem?_eq_some.mpr hp

namespace IsProduct

variable (h : IsProduct g₁ g₂ g numbers)
include h

/-- A path of the product is a path of the left component, of the same length. What
the right component does is forgotten, but for the pairs that are visited. -/
theorem exists_path {ts : List Transition} (hts : g.IsPath x ts) (hp : numbers[p]? = some x) :
    ∃ (us : List Transition) (q : StatePair), g₁.IsPath p.left us ∧ endOf p.left us = q.left ∧
      numbers[q]? = some (endOf x ts) ∧ us.length = ts.length ∧
      ∀ u ∈ us, ∃ t ∈ ts, ∃ q' : StatePair, numbers[q']? = some t.target ∧ q'.left = u.target := by
  induction ts generalizing x p with
  | nil => exact ⟨[], p, isPath_nil, rfl, hp, rfl, fun _ hu => absurd hu List.not_mem_nil⟩
  | cons t ts ih =>
    obtain ⟨ht, rfl, hts⟩ := hts
    obtain ⟨p', q, hp', hq, hstep⟩ := h.step_of_mem t ht
    obtain rfl := h.injective hp hp'
    obtain ⟨us, q', hus, hend, hq', hlen, hvisits⟩ := ih hts hq
    refine ⟨⟨p.left, t.event, q.left⟩ :: us, q', ⟨(mem_jointSteps.mp hstep).1, rfl, hus⟩, hend, hq',
      congrArg (· + 1) hlen, fun u hu => ?_⟩
    rcases List.mem_cons.mp hu with rfl | hu
    · exact ⟨t, List.mem_cons_self, q, hq, rfl⟩
    · obtain ⟨t', ht', hvisit⟩ := hvisits u hu
      exact ⟨t', List.mem_cons_of_mem t ht', hvisit⟩

/-- **A cycle of the product** is a cycle of the left component, through a pair that
passes the first test and around all pairs that pass the second one. -/
theorem exists_cycle {through around : StatePair → Bool}
    (hcycle : g.hasCycle (statesWhere numbers through) (statesWhere numbers around) = true) :
    ∃ p ∈ g₁.jointPairs g₂, through p = true ∧ ∃ us, us ≠ [] ∧ g₁.IsPath p.left us ∧
      endOf p.left us = p.left ∧
      ∀ u ∈ us, ∃ q ∈ g₁.jointPairs g₂, q.left = u.target ∧ around q = false := by
  obtain ⟨x, hx, ts, hne, hts, hend, haround⟩ := (hasCycle_iff h.wellFormed).mp hcycle
  obtain ⟨p, hp, hthrough⟩ := mem_statesWhere.mp hx
  obtain ⟨us, q, hus, hend', hq, hlen, hvisits⟩ := h.exists_path hts hp
  rw [hend] at hq
  obtain rfl := h.injective hp hq
  refine ⟨p, h.mem_jointPairs hp, hthrough, us, ?_, hus, hend', fun u hu => ?_⟩
  · rintro rfl
    exact hne (List.length_eq_zero_iff.mp hlen.symm)
  · obtain ⟨t, ht, q', hq', hleft⟩ := hvisits u hu
    refine ⟨q', h.mem_jointPairs hq', hleft, Bool.not_eq_true _ ▸ fun htest => ?_⟩
    exact haround t ht (mem_statesWhere.mpr ⟨q', hq', htest⟩)

end IsProduct

/-! ## The construction

The product is built pair by pair, with names and marks added to each state as it is
numbered. Names are read by nothing else, so what is left to say is which pairs
there are. -/

/-- Names change nothing else. -/
theorem finishPair_eq (g₁ g₂ g : Automaton) (p : StatePair) (x : StateId) : ∃ names,
    g₁.finishPair g₂ g p x = { (if p.left ∈ g₁.marked ∧ p.right ∈ g₂.marked then
      g.setMarkedState x else g) with stateNames := names } := by
  rw [finishPair]
  generalize (if p.left ∈ g₁.marked ∧ p.right ∈ g₂.marked then g.setMarkedState x else g) = g'
  split
  next =>
    rw [setStateName]
    split
    · exact ⟨_, rfl⟩
    · exact ⟨g'.stateNames, rfl⟩
  next => exact ⟨g'.stateNames, rfl⟩

/-- A pair is marked if both its components are. -/
theorem marks_finishPair (g₁ g₂ : Automaton) :
    Marks (fun g ((p, x) : StatePair × StateId) => g₁.finishPair g₂ g p x) (·.2)
      fun b => b.1.left ∈ g₁.marked ∧ b.1.right ∈ g₂.marked := by
  refine (marks_setMarkedState Prod.snd _).of_names (fun {g b} hmarked => ?_)
    fun g b => finishPair_eq g₁ g₂ g b.1 b.2
  dsimp only
  rw [finishPair]
  split
  · exact hmarked.setStateName b.2 _
  · exact hmarked

/-- **The construction** yields the pairs that both components reach together, as long as
there are numbers for all of them. -/
theorem unfolds_product (h₁ : g₁.WellFormed) (h₂ : g₂.WellFormed)
    (hsize : (g₁.jointPairs g₂).length < UInt32.size) :
    Unfolds (g₁.product g₂).1 (g₁.product g₂).2 (g₁.alphabet ∩ g₂.alphabet) (g₁.initialPairs g₂)
      (g₁.jointSteps g₂) fun p => p.left ∈ g₁.marked ∧ p.right ∈ g₂.marked := by
  obtain ⟨hblank, halphabet⟩ := isBlank_new ("Product(" ++ g₁.name ++ "," ++ g₂.name ++ ")")
    (g₁.alphabet ∩ g₂.alphabet) g₁ (g₁.stateNamesEnabled && g₂.stateNamesEnabled)
  rw [← emptyProduct] at hblank halphabet
  have hevents : ∀ p, ∀ step ∈ g₁.jointSteps g₂ p, step.1 ∈ (g₁.emptyProduct g₂).alphabet := by
    rintro p ⟨ev, q⟩ hstep
    obtain ⟨ht₁, ht₂⟩ := mem_jointSteps.mp hstep
    rw [halphabet]
    exact IdentSet.mem_inter.mpr ⟨h₁.event_mem ⟨p.left, ev, q.left⟩ ht₁,
      h₂.event_mem ⟨p.right, ev, q.right⟩ ht₂⟩
  rw [product, ← halphabet]
  exact unfolds_of_blank _ hblank hevents hsize (marks_finishPair g₁ g₂) rfl

/-- So it yields a product. -/
theorem isProduct_product (h₁ : g₁.WellFormed) (h₂ : g₂.WellFormed)
    (hsize : (g₁.jointPairs g₂).length < UInt32.size) :
    IsProduct g₁ g₂ (g₁.product g₂).1 (g₁.product g₂).2 := by
  have h := unfolds_product h₁ h₂ hsize
  refine ⟨h.wellFormed, h.injective, fun {p x} hp => ?_, fun t ht => ?_⟩
  · exact Traversal.mem_discover.mpr ((h.exists_number_iff p).mp ⟨x, hp⟩)
  · obtain ⟨p, q, hp, hq, hstep⟩ := (h.mem_transitions t).mp ht
    exact ⟨p, q, hp, hq, hstep⟩

/-! ## Words of the product

Now each state is given the pair it stands for, which is determined as numbers are
injective. -/

/-- A state is known by its components. -/
theorem eq_of_components {value : StateId → StatePair}
    (hvalue : ∀ x ∈ g.states, numbers[value x]? = some x) (hx : x ∈ g.states) (hy : y ∈ g.states)
    (hleft : (value x).left = (value y).left) (hright : (value x).right = (value y).right) :
    x = y := by
  have hxy : value x = value y := by
    cases hp : value x
    cases hq : value y
    simp_all
  have hnumber := hvalue x hx
  rw [hxy, hvalue y hy] at hnumber
  exact (Option.some.inj hnumber).symm

namespace Unfolds

variable {s : List EventId} (h : Unfolds g numbers (g₁.alphabet ∩ g₂.alphabet) (g₁.initialPairs g₂)
  (g₁.jointSteps g₂) fun p => p.left ∈ g₁.marked ∧ p.right ∈ g₂.marked)
include h

/-- A word of both components leads to their pair. -/
theorem exists_reaches_pair (hx : g₁.Reaches s x) (hy : g₂.Reaches s y) :
    ∃ z, g.Reaches s z ∧ numbers[(⟨x, y⟩ : StatePair)]? = some z := by
  induction s using List.reverseRecOn generalizing x y with
  | nil =>
    rw [reaches_nil] at hx hy
    have hstart : ⟨x, y⟩ ∈ g₁.initialPairs g₂ := mem_initialPairs.mpr ⟨hx, hy⟩
    obtain ⟨z, hz⟩ := (h.exists_number_iff ⟨x, y⟩).mpr ⟨_, hstart, .refl⟩
    exact ⟨z, reaches_nil.mpr ((h.mem_initial z).mpr ⟨_, hstart, hz⟩), hz⟩
  | append_singleton s ev ih =>
    obtain ⟨x', hx', hleft⟩ := reaches_concat.mp hx
    obtain ⟨y', hy', hright⟩ := reaches_concat.mp hy
    obtain ⟨z', hz', hnumber⟩ := ih hx' hy'
    have hstep : (ev, ⟨x, y⟩) ∈ g₁.jointSteps g₂ ⟨x', y'⟩ := mem_jointSteps.mpr ⟨hleft, hright⟩
    obtain ⟨start, hstart, hleads⟩ := (h.exists_number_iff _).mp ⟨z', hnumber⟩
    obtain ⟨z, hz⟩ := (h.exists_number_iff ⟨x, y⟩).mpr
      ⟨start, hstart, hleads.tail (List.mem_map.mpr ⟨_, hstep, rfl⟩)⟩
    exact ⟨z, hz'.concat ((h.mem_transitions ⟨z', ev, z⟩).mpr ⟨_, _, hnumber, hz, hstep⟩), hz⟩

variable {value : StateId → StatePair} (hvalue : ∀ x ∈ g.states, numbers[value x]? = some x)
include hvalue

/-- A step of the product is one of both components, between the pairs that its
states stand for. -/
theorem step_components (ht : t ∈ g.transitions) :
    ⟨(value t.source).left, t.event, (value t.target).left⟩ ∈ g₁.transitions ∧
      ⟨(value t.source).right, t.event, (value t.target).right⟩ ∈ g₂.transitions := by
  obtain ⟨p, q, hp, hq, hstep⟩ := (h.mem_transitions t).mp ht
  obtain rfl := h.injective hp (hvalue _ (h.wellFormed.source_mem t ht))
  obtain rfl := h.injective hq (hvalue _ (h.wellFormed.target_mem t ht))
  exact mem_jointSteps.mp hstep

/-- Both components go along with a word. -/
theorem reaches_components (hs : g.Reaches s x) :
    g₁.Reaches s (value x).left ∧ g₂.Reaches s (value x).right := by
  induction s using List.reverseRecOn generalizing x with
  | nil =>
    rw [reaches_nil] at hs
    obtain ⟨p, hp, hx⟩ := (h.mem_initial x).mp hs
    obtain rfl := h.injective hx (hvalue x (h.wellFormed.initial_subset x hs))
    obtain ⟨hleft, hright⟩ := mem_initialPairs.mp hp
    exact ⟨reaches_nil.mpr hleft, reaches_nil.mpr hright⟩
  | append_singleton s ev ih =>
    obtain ⟨y, hy, ht⟩ := reaches_concat.mp hs
    obtain ⟨hleft, hright⟩ := h.step_components hvalue ht
    exact ⟨(ih hy).1.concat hleft, (ih hy).2.concat hright⟩

/-- The product generates the common words. -/
theorem words_eq : g.words = g₁.words ∩ g₂.words := by
  ext s
  constructor
  · intro hs
    obtain ⟨x, hx⟩ := mem_words_iff.mp hs
    obtain ⟨hleft, hright⟩ := h.reaches_components hvalue hx
    exact ⟨hleft.mem_words, hright.mem_words⟩
  · rintro ⟨hleft, hright⟩
    obtain ⟨x, hx⟩ := mem_words_iff.mp hleft
    obtain ⟨y, hy⟩ := mem_words_iff.mp hright
    obtain ⟨z, hz, -⟩ := h.exists_reaches_pair hx hy
    exact hz.mem_words

/-- The product of deterministic automata is deterministic: of two transitions on
one event, the components of the targets are the same, and so are the targets. -/
theorem isDeterministic (h₁ : g₁.IsDeterministic) (h₂ : g₂.IsDeterministic) : g.IsDeterministic := by
  refine HasUniqueSuccessors.isDeterministic (fun t ht t' ht' hsource hevent => ?_)
    (IdentSet.size_le_one_of_forall_eq fun x hx y hy => ?_)
  · obtain ⟨hleft, hright⟩ := h.step_components hvalue ht
    obtain ⟨hleft', hright'⟩ := h.step_components hvalue ht'
    have htarget := eq_of_components hvalue (h.wellFormed.target_mem t ht)
      (h.wellFormed.target_mem t' ht')
      (congrArg Transition.target (h₁.hasUniqueSuccessors _ hleft _ hleft'
        (congrArg (fun x => (value x).left) hsource) hevent))
      (congrArg Transition.target (h₂.hasUniqueSuccessors _ hright _ hright'
        (congrArg (fun x => (value x).right) hsource) hevent))
    cases t
    cases t'
    simp_all
  · obtain ⟨hleft, hright⟩ := h.reaches_components hvalue (reaches_nil.mpr hx)
    obtain ⟨hleft', hright'⟩ := h.reaches_components hvalue (reaches_nil.mpr hy)
    exact eq_of_components hvalue (h.wellFormed.initial_subset x hx)
      (h.wellFormed.initial_subset y hy) (h₁.reaches_unique hleft hleft')
      (h₂.reaches_unique hright hright')

end Unfolds

/-! ## The pairs that the product holds -/

/-- The states of `g` stand for the pairs of states that common words lead to, each for one, and `g`
starts, goes on and is marked where both components do and are. -/
structure IsSynchronousProduct (g₁ g₂ g : Automaton) (numbers : Composition) : Prop where
  wellFormed : g.WellFormed
  /-- only common events -/
  alphabet_eq : g.alphabet = g₁.alphabet ∩ g₂.alphabet
  /-- the pairs that a common word leads to -/
  mem_numbers : ∀ p, p ∈ numbers ↔ ∃ s, g₁.Reaches s p.left ∧ g₂.Reaches s p.right
  /-- no state stands for two pairs -/
  injective : ∀ {p q : StatePair} {x : StateId}, numbers[p]? = some x → numbers[q]? = some x → p = q
  /-- every state stands for a pair -/
  mem_states : ∀ x, x ∈ g.states ↔ ∃ p : StatePair, numbers[p]? = some x
  /-- it is initial if both components are -/
  mem_initial : ∀ x, x ∈ g.initial ↔
    ∃ p : StatePair, (p.left ∈ g₁.initial ∧ p.right ∈ g₂.initial) ∧ numbers[p]? = some x
  /-- it goes on as both components do -/
  mem_transitions : ∀ {p q : StatePair} {x y : StateId}, numbers[p]? = some x →
    numbers[q]? = some y → ∀ ev, ⟨x, ev, y⟩ ∈ g.transitions ↔
      ⟨p.left, ev, q.left⟩ ∈ g₁.transitions ∧ ⟨p.right, ev, q.right⟩ ∈ g₂.transitions
  /-- it is marked if both components are -/
  mem_marked : ∀ {p : StatePair} {x : StateId}, numbers[p]? = some x →
    (x ∈ g.marked ↔ p.left ∈ g₁.marked ∧ p.right ∈ g₂.marked)

/-- **The synchronous product** holds all pairs that common words lead to, as long
as there are numbers for all of them, and no others. Neither component has to be
deterministic. -/
theorem isSynchronousProduct_product (h₁ : g₁.WellFormed) (h₂ : g₂.WellFormed)
    (hsize : (g₁.jointPairs g₂).length < UInt32.size) :
    IsSynchronousProduct g₁ g₂ (g₁.product g₂).1 (g₁.product g₂).2 := by
  have h := unfolds_product h₁ h₂ hsize
  have hnumbers : ∀ p, p ∈ (g₁.product g₂).2 ↔ ∃ x, (g₁.product g₂).2[p]? = some x := fun p => by
    rw [Std.ExtTreeMap.mem_iff_isSome_getElem?, Option.isSome_iff_exists]
  refine ⟨h.wellFormed, h.alphabet_eq, fun p => ?_, h.injective, h.mem_states, fun x => ?_,
    fun {p q x y} hp hq ev => ?_, fun {p x} hp => ?_⟩
  · rw [hnumbers]
    constructor
    · -- found by the walk, so a word leads there
      intro hp
      exact exists_reaches_of_mem_jointPairs (Traversal.mem_discover.mpr ((h.exists_number_iff p).mp hp))
    · -- read along the word, step by step
      rintro ⟨s, hleft, hright⟩
      obtain ⟨x, -, hx⟩ := h.exists_reaches_pair hleft hright
      exact ⟨x, hx⟩
  · simp only [h.mem_initial, mem_initialPairs]
  · rw [h.mem_transitions, ← mem_jointSteps]
    constructor
    · rintro ⟨p', q', hp', hq', hstep⟩
      obtain rfl := h.injective hp hp'
      obtain rfl := h.injective hq hq'
      exact hstep
    · exact fun hstep => ⟨p, q, hp, hq, hstep⟩
  · rw [h.mem_marked]
    exact ⟨fun ⟨q, hq, hmarked⟩ => h.injective hp hq ▸ hmarked, fun hmarked => ⟨p, hp, hmarked⟩⟩

/-- Two machines need not be deterministic to be run in step. -/
theorem isSynchronousProduct_fragileMachine : ¬fragileMachine.IsDeterministic ∧
    IsSynchronousProduct fragileMachine fragileMachine (fragileMachine.product fragileMachine).1
      (fragileMachine.product fragileMachine).2 :=
  ⟨by decide +kernel, isSynchronousProduct_product fragileMachine_wellFormed fragileMachine_wellFormed
    (Nat.lt_of_le_of_lt (length_jointPairs_le fragileMachine_wellFormed fragileMachine_wellFormed)
      (by decide +kernel))⟩

end OmegaControl.Automaton
