import OmegaControl.Proofs.Product
import OmegaControl.Proofs.Projection
import OmegaControl.Proofs.Synthesis.NormalWords

/-!
# The product with an observer

A state of the product of an automaton with an observer of it stands for a state of the automaton,
and for all that has been seen on the way to it (`Automaton.ObserverProduct`). No word is lost
(`ObserverProduct.exists_reaches`), what has been seen decides the state of the observer
(`ObserverProduct.right_eq`), and conversely any word that looks like one that has led to this state
of the observer may lead to each of the states that are attached to it
(`ObserverProduct.exists_lookalike`). So if the automaton stays within a plant, the observer mirrors
the product (`ObserverProduct.mirrors`).

Numbers can run out for what can be believed, and for the pairs (`Automaton.ObserverFits`).
-/

namespace OmegaControl.Automaton

open NormalPart

variable {f g o a plant : Automaton} {observable alphabet : EventSet} {belief : StateId → Set StateId}
  {numbers : Composition} {value : StateId → StatePair} {plantState : StateId → StateId}
  {x y : StateId} {s s' : List EventId}

/-! ## What it is made of -/

/-- What the product `a` of an automaton `g` with an observer `o` is made of. The observer is one of
an automaton `f` that may mark other states, but is reached by the same words. -/
structure ObserverProduct (observable : EventSet) (f g o a : Automaton)
    (belief : StateId → Set StateId) (numbers : Composition) (value : StateId → StatePair) : Prop where
  wellFormed : g.WellFormed
  reaches_iff : ∀ {s x}, f.Reaches s x ↔ g.Reaches s x
  observes : Observes f (g.alphabet ∩ observable) o belief
  unfolds : Unfolds a numbers (g.alphabet ∩ o.alphabet) (g.initialPairs o) (g.jointSteps o)
    fun p => p.left ∈ g.marked ∧ p.right ∈ o.marked
  getElem?_value : ∀ x ∈ a.states, numbers[value x]? = some x

/-- It can be built as long as there are numbers for the pairs. -/
theorem exists_observerProduct (hg : g.WellFormed)
    (hsame : ∀ {s x}, f.Reaches s x ↔ g.Reaches s x)
    (ho : ∃ belief, Observes f (g.alphabet ∩ observable) o belief)
    (hpairs : (g.jointPairs o).length < UInt32.size) : ∃ belief value,
      ObserverProduct observable f g o (g.product o).1 belief (g.product o).2 value := by
  obtain ⟨belief, ho⟩ := ho
  have hproduct := unfolds_product hg ho.wellFormed hpairs
  have : Nonempty StatePair := ⟨⟨⟨1⟩, ⟨1⟩⟩⟩
  obtain ⟨value, hvalue⟩ := hproduct.exists_value
  exact ⟨belief, value, hg, hsame, ho, hproduct, hvalue⟩

namespace ObserverProduct

variable (h : ObserverProduct observable f g o a belief numbers value)
include h

/-- A word of the product is one of the automaton, and leads to the first component. -/
theorem left (hs : a.Reaches s x) : g.Reaches s (value x).left :=
  (h.unfolds.reaches_components h.getElem?_value hs).1

/-- It is one of the observer, and leads to the second component. -/
theorem right (hs : a.Reaches s x) : o.Reaches s (value x).right :=
  (h.unfolds.reaches_components h.getElem?_value hs).2

/-- Of events that the automaton does not have nothing is to be seen. -/
theorem seen_eq (hs : g.Reaches s x) : seen (g.alphabet ∩ observable) s = seen observable s :=
  seen_inter fun _ hev => mem_alphabet_of_mem_words h.wellFormed hs.mem_words hev

/-- What the observer believes is decided by what is seen. -/
theorem belief_eq (hs : a.Reaches s x) : belief (value x).right =
    f.beliefAfter (g.alphabet ∩ observable) (seen observable s) := by
  rw [h.observes.belief_eq (h.right hs), h.seen_eq (h.left hs)]

/-- Words that look alike lead to one state of the observer, as its states are known
from beliefs. -/
theorem right_eq (hx : a.Reaches s x) (hy : a.Reaches s' y)
    (hlook : seen observable s = seen observable s') : (value x).right = (value y).right := by
  refine h.observes.belief_injective _ ((h.right hx).mem_states h.observes.wellFormed) _
    ((h.right hy).mem_states h.observes.wellFormed) ?_
  rw [h.belief_eq hx, h.belief_eq hy, hlook]

/-- The observer believes that the automaton is where it is. -/
theorem mem_belief (hs : a.Reaches s x) : (value x).left ∈ belief (value x).right :=
  h.observes.mem_belief (h.right hs) (h.reaches_iff.mpr (h.left hs))

/-- Every word of the automaton leads on. -/
theorem exists_reaches {q : StateId} (hq : g.Reaches s q) : ∃ x, a.Reaches s x ∧ (value x).left = q := by
  obtain ⟨z, hz⟩ := h.observes.exists_reaches (h.reaches_iff.mpr hq)
  obtain ⟨x, hx, hnumber⟩ := h.unfolds.exists_reaches_pair hq hz
  have hvalue := h.unfolds.injective hnumber
    (h.getElem?_value x (hx.mem_states h.unfolds.wellFormed))
  exact ⟨x, hx, (congrArg StatePair.left hvalue).symm⟩

/-- What the observer believes are the components of the states that are attached to it, and a word
of the same look leads there. -/
theorem exists_reaches_of_mem_belief (hs : a.Reaches s x) {q : StateId}
    (hq : q ∈ belief (value x).right) : ∃ s' y, a.Reaches s' y ∧
      seen observable s' = seen observable s ∧ (value y).right = (value x).right ∧
      (value y).left = q := by
  rw [h.belief_eq hs] at hq
  obtain ⟨s', hs', hlook⟩ := mem_beliefAfter_iff.mp hq
  have hs' := h.reaches_iff.mp hs'
  rw [h.seen_eq hs'] at hlook
  obtain ⟨y, hy, hleft⟩ := h.exists_reaches hs'
  exact ⟨s', y, hy, hlook, h.right_eq hy hs hlook, hleft⟩

/-- Whatever the observer believes to be possible is reached by a word of the same look. -/
theorem exists_lookalike (hy : a.Reaches s y) (hx : x ∈ a.states)
    (hxy : (value x).right = (value y).right) :
    ∃ s', a.Reaches s' x ∧ seen observable s' = seen observable s := by
  obtain ⟨s₀, hs₀⟩ := h.unfolds.allReached x hx
  obtain ⟨s', x', hx', hlook, hright, hleft⟩ :=
    h.exists_reaches_of_mem_belief hy (hxy ▸ h.mem_belief hs₀)
  obtain rfl := eq_of_components h.getElem?_value (hx'.mem_states h.unfolds.wellFormed) hx hleft
    (hright.trans hxy.symm)
  exact ⟨s', hx', hlook⟩

/-- What is believed are the first components of the states that are attached to one
state of the observer, so it can be read off the product. -/
theorem mem_belief_iff (hx : x ∈ a.states) {q : StateId} : q ∈ belief (value x).right ↔
    ∃ y ∈ a.states, (value y).right = (value x).right ∧ (value y).left = q := by
  obtain ⟨s, hs⟩ := h.unfolds.allReached x hx
  constructor
  · intro hq
    obtain ⟨s', y, hy, -, hright, hleft⟩ := h.exists_reaches_of_mem_belief hs hq
    exact ⟨y, hy.mem_states h.unfolds.wellFormed, hright, hleft⟩
  · rintro ⟨y, hy, hright, rfl⟩
    obtain ⟨s', hs'⟩ := h.unfolds.allReached y hy
    exact hright ▸ h.mem_belief hs'

/-- There are no more states than pairs. -/
theorem size_le : a.size ≤ (g.jointPairs o).length := by
  refine IdentSet.size_le_length (f := value) (fun x hx => ?_) fun x hx y hy heq => ?_
  · exact Traversal.mem_discover.mpr ((h.unfolds.exists_number_iff _).mp ⟨x, h.getElem?_value x hx⟩)
  · exact eq_of_components h.getElem?_value hx hy (congrArg StatePair.left heq)
      (congrArg StatePair.right heq)

/-- An observer of the same alphabet leaves no event out. -/
theorem alphabet_eq (ho : o.alphabet = g.alphabet) : a.alphabet = g.alphabet := by
  rw [h.unfolds.alphabet_eq, ho]
  exact IdentSet.ext fun ev => IdentSet.mem_inter.trans (and_self_iff)

/-- The observer goes along with every step. -/
theorem noticed : Noticed (fun x => (value x).right) ⟨o, a⟩ :=
  fun _ ht => (h.unfolds.step_components h.getElem?_value ht).2

/-- So does a plant that the automaton stays within. -/
theorem along (hdet : plant.IsDeterministic) (hplant : ∀ {s x}, g.Reaches s x →
      plant.Reaches s (plantState x)) {t : Transition} (ht : t ∈ a.transitions) :
    ⟨plantState (value t.source).left, t.event, plantState (value t.target).left⟩ ∈
      plant.transitions := by
  obtain ⟨s, hs⟩ := h.unfolds.allReached t.source (h.unfolds.wellFormed.source_mem t ht)
  obtain ⟨y, hy, hl⟩ := reaches_concat.mp (hplant (h.left (hs.concat ht)))
  exact hdet.reaches_unique hy (hplant (h.left hs)) ▸ hl

/-- **The product is mirrored** by its observer if the automaton stays within the plant. -/
theorem mirrors (hg : g.IsDeterministic) (hwf : plant.WellFormed) (hdet : plant.IsDeterministic)
    (hplant : ∀ {s x}, g.Reaches s x → plant.Reaches s (plantState x)) :
    Mirrors plant observable (fun x => plantState (value x).left) (fun x => (value x).right) o a where
  plant_wellFormed := hwf
  plant_isDeterministic := hdet
  isDeterministic := h.unfolds.isDeterministic h.getElem?_value hg h.observes.isDeterministic
  wellFormed := h.unfolds.wellFormed
  along _ ht := h.along hdet hplant ht
  start _ hx := reaches_nil.mp (hplant (h.left (reaches_nil.mpr hx)))
  observer_isDeterministic := h.observes.isDeterministic
  observer_start _ hx := reaches_nil.mp (h.right (reaches_nil.mpr hx))
  follows := h.noticed.follows h.observes.isDeterministic
  noticed := h.noticed
  cls_eq := h.right_eq
  exists_lookalike := h.exists_lookalike

end ObserverProduct

/-! ## Numbers suffice -/

/-- There are enough numbers for what an observer of `g` can believe, and for the pairs of the product
with it. -/
structure ObserverFits (g : Automaton) (observable alphabet : EventSet) : Prop where
  beliefs : (g.beliefs (g.alphabet ∩ observable)).length < UInt32.size
  pairs : (g.jointPairs ((g.project observable).inverseProject alphabet)).length < UInt32.size

/-- With `n` states, there are at most `2 ^ n` things to believe. -/
theorem observerFits_of_size_le {n : ℕ} (hg : g.WellFormed) (halphabet : g.alphabet ⊆ alphabet)
    (hle : g.size ≤ n) (hsize : n * 2 ^ n < UInt32.size) : g.ObserverFits observable alphabet := by
  have hcount : (g.beliefs (g.alphabet ∩ observable)).length ≤ 2 ^ n :=
    (g.length_beliefs_le_two_pow _).trans (Nat.pow_le_pow_right Nat.two_pos hle)
  have hbeliefs : (g.beliefs (g.alphabet ∩ observable)).length < UInt32.size := by
    rcases Nat.eq_zero_or_pos n with rfl | hpos
    · exact Nat.lt_of_le_of_lt hcount (by decide)
    · exact Nat.lt_of_le_of_lt (hcount.trans (Nat.le_mul_of_pos_left _ hpos)) hsize
  obtain ⟨belief, ho⟩ := observes_inverseProject observable alphabet hg halphabet hbeliefs
  have hobserver := (size_inverseProject_le observable alphabet hg hbeliefs).trans hcount
  exact ⟨hbeliefs, Nat.lt_of_le_of_lt ((length_jointPairs_le hg ho.wellFormed).trans
    (Nat.mul_le_mul hle hobserver)) hsize⟩

end OmegaControl.Automaton
