import OmegaControl.Proofs.Synthesis.NormalPruning
import OmegaControl.Proofs.Synthesis.ObserverProduct
import OmegaControl.Proofs.Synthesis.ControlledProduct

/-!
# The observer that is attached

The synthesis for a supervisor that sees only some events starts from the product of
a part of the product of plant and specification with the observer of that part. A
state of it stands for a state of the product, and for all that has been seen on the
way to it (`Attachment`). What has been seen decides the state of the observer, and
conversely any word that looks like one that has led to this state of the observer
may lead to each of the states that are attached to it.

The observer is built once, and not again after the loop has deleted states of the
candidate.
-/

namespace OmegaControl.ObservedProblem

open NormalPart

/-- What the observer takes to be possible in the state that it attaches to `x`. -/
def believed (a : Automaton) (label : StateId → ProductState) (cls : StateId → StateId)
    (x : StateId) : Set ProductState := {p | ∃ y ∈ a.states, cls y = cls x ∧ label y = p}

/-- States of `a` stand for a state of the product together with one of the observer `o`. The
observer goes along, its state is decided by what is seen, and all states attached to it can be
reached by words of the same look. -/
structure Attachment (c : ObservedProblem) (o a : Automaton) (label : StateId → ProductState)
    (cls : StateId → StateId) : Prop where
  tracks : c.Tracks a label
  alphabet_eq : a.alphabet = c.plant.alphabet
  size_lt : a.size < UInt32.size
  isDeterministic : a.IsDeterministic
  allReached : a.AllReached
  /-- a state is known from the pair that it stands for -/
  injective : ∀ x ∈ a.states, ∀ y ∈ a.states, label x = label y → cls x = cls y → x = y
  observer_isDeterministic : o.IsDeterministic
  observer_start : ∀ x ∈ a.initial, cls x ∈ o.initial
  /-- the observer makes the step that the candidate makes -/
  noticed : ∀ t ∈ a.transitions, ⟨cls t.source, t.event, cls t.target⟩ ∈ o.transitions
  /-- what has been seen decides the state of the observer -/
  cls_eq : ∀ {s s' x y}, a.Reaches s x → a.Reaches s' y →
    seen c.observable s = seen c.observable s' → cls x = cls y
  /-- what is attached to a state of the observer is possible there -/
  exists_lookalike : ∀ {s x y}, a.Reaches s y → x ∈ a.states → cls x = cls y →
    ∃ s', a.Reaches s' x ∧ seen c.observable s' = seen c.observable s
  /-- the state of the observer is known from what it takes to be possible -/
  cls_injective : ∀ x ∈ a.states, ∀ y ∈ a.states,
    believed a label cls x = believed a label cls y → cls x = cls y

variable {c : ObservedProblem} {g o a : Automaton} {label : StateId → ProductState}
  {cls : StateId → StateId} {belief : StateId → Set StateId}

/-- Candidate and observer go together at the start, as it is asked for making a
candidate normal. -/
theorem Attachment.attached (h : c.Attachment o a label cls) (hc : c.WellPosed) :
    Attached c.plant (fun x => (label x).plant) cls ⟨o, a⟩ where
  plant_wellFormed := hc.plant_wellFormed
  plant_isDeterministic := hc.plant_isDeterministic
  isDeterministic := h.isDeterministic
  wellFormed := h.tracks.wellFormed
  along t ht := (h.tracks.step t ht).plant_mem
  start x hx := (h.tracks.start x hx).plant_mem
  observer_isDeterministic := h.observer_isDeterministic
  observer_start := h.observer_start
  follows := Noticed.follows (c := ⟨o, a⟩) h.noticed h.observer_isDeterministic

/-- The observer mirrors the candidate: what happens there is seen here as it should
be. -/
theorem Attachment.mirrors (h : c.Attachment o a label cls) (hc : c.WellPosed) :
    Mirrors c.plant c.observable (fun x => (label x).plant) cls o a :=
  ⟨h.attached hc, h.noticed, h.cls_eq, h.exists_lookalike⟩

/-- A state is known from its label and the state of the observer. -/
theorem Attachment.eq_iff {s s' : List EventId} {x y : StateId} (h : c.Attachment o a label cls)
    (hx : a.Reaches s x) (hy : a.Reaches s' y) : x = y ↔ label x = label y ∧ cls x = cls y := by
  constructor
  · rintro rfl
    exact ⟨rfl, rfl⟩
  · rintro ⟨hlabel, hcls⟩
    exact h.injective x (hx.mem_states h.tracks.wellFormed) y (hy.mem_states h.tracks.wellFormed)
      hlabel hcls

/-- Names do not matter. -/
theorem Attachment.rename (h : c.Attachment o a label cls) (name : String) (enabled : Bool) :
    c.Attachment o ((a.setName name).setStateNamesEnabled enabled) label cls := by
  exact { h with
    tracks := { h.tracks with
      wellFormed := (h.tracks.wellFormed.setName name).setStateNamesEnabled enabled }
    allReached := fun x hx => by
      obtain ⟨s, hs⟩ := h.allReached x hx
      exact ⟨s, (Automaton.reaches_rename name enabled).mpr hs⟩
    cls_eq := fun hx hy =>
      h.cls_eq ((Automaton.reaches_rename name enabled).mp hx)
        ((Automaton.reaches_rename name enabled).mp hy)
    exists_lookalike := fun hy hx hxy => by
      obtain ⟨s', hs', hlook⟩ :=
        h.exists_lookalike ((Automaton.reaches_rename name enabled).mp hy) hx hxy
      exact ⟨s', (Automaton.reaches_rename name enabled).mpr hs', hlook⟩ }

/-! ## The product with the observer
 -/

/-- What the product of a part `g` of the product of plant and specification with its observer
is made of. -/
structure AttachedProduct (c : ObservedProblem) (g o a : Automaton) (label : StateId → ProductState)
    (belief : StateId → Set StateId) (numbers : Composition) (value : StateId → StatePair) : Prop extends
    g.markAllStates.ObserverProduct c.observable g o a belief numbers value where
  wellPosed : c.WellPosed
  represents : c.Represents g label

namespace AttachedProduct

variable {numbers : Composition} {value : StateId → StatePair} {x y : StateId}
  {s s' : List EventId} (h : AttachedProduct c g o a label belief numbers value)
include h

/-- What is believed about the product decides the state of the observer. Two states
of the observer with one belief contain the same states of the product, and an
observer built as a set of states has only one state for each set. -/
theorem cls_injective (hx : x ∈ a.states) (hy : y ∈ a.states)
    (heq : believed a (fun x => label (value x).left) (fun x => (value x).right) x =
      believed a (fun x => label (value x).left) (fun x => (value x).right) y) :
    (value x).right = (value y).right := by
  have hleft : ∀ {x}, x ∈ a.states → (value x).left ∈ g.states := fun {x} hx => by
    obtain ⟨s, hs⟩ := h.unfolds.allReached x hx
    exact (h.left hs).mem_states h.represents.wellFormed
  have hsub : ∀ {x y}, x ∈ a.states → y ∈ a.states →
      believed a (fun x => label (value x).left) (fun x => (value x).right) x ⊆
        believed a (fun x => label (value x).left) (fun x => (value x).right) y →
      belief (value x).right ⊆ belief (value y).right := by
    intro x y hx hy hsub q hq
    obtain ⟨z, hz, hright, rfl⟩ := (h.mem_belief_iff hx).mp hq
    obtain ⟨z', hz', hright', hlabel⟩ := hsub ⟨z, hz, hright, rfl⟩
    exact (h.mem_belief_iff hy).mpr ⟨z', hz', hright',
      h.represents.label_injective _ (hleft hz') _ (hleft hz) hlabel⟩
  have hstate : ∀ {x}, x ∈ a.states → (value x).right ∈ o.states := fun {x} hx => by
    obtain ⟨s, hs⟩ := h.unfolds.allReached x hx
    exact (h.right hs).mem_states h.observes.wellFormed
  exact h.observes.belief_injective _ (hstate hx) _ (hstate hy)
    ((hsub hx hy heq.le).antisymm (hsub hy hx heq.ge))

/-- All states are marked in what is observed, so all states of the observer are. -/
theorem mem_marked : x ∈ a.marked ↔
    x ∈ a.states ∧ ControlledProduct.isMarked c.spec (label (value x).left) = true := by
  constructor
  · intro hx
    obtain ⟨p, hp, hmarked, -⟩ := (h.unfolds.mem_marked x).mp hx
    have hstate := (h.unfolds.mem_states x).mpr ⟨p, hp⟩
    obtain rfl := h.unfolds.injective hp (h.getElem?_value x hstate)
    exact ⟨hstate, ((h.represents.mem_marked _).mp hmarked).2⟩
  · rintro ⟨hx, hmarked⟩
    obtain ⟨s, hs⟩ := h.unfolds.allReached x hx
    have hstate := (h.left hs).mem_states h.represents.wellFormed
    refine (h.unfolds.mem_marked x).mpr ⟨_, h.getElem?_value x hx, ?_, ?_⟩
    · exact (h.represents.mem_marked _).mpr ⟨hstate, hmarked⟩
    · exact (h.observes.mem_marked _).mpr ⟨(h.right hs).mem_states h.observes.wellFormed, _,
        h.mem_belief hs, hstate⟩

/-- The product with the observer attaches it: both components of a state are known,
its label is that of the left one and its class is the right one. What the pruning
needs to know of the two is bundled here once for all rounds. -/
theorem attachment (hg : g.alphabet = c.plant.alphabet) (ho : o.alphabet = g.alphabet)
    (hpairs : (g.jointPairs o).length < UInt32.size) :
    c.Attachment o a (fun x => label (value x).left) fun x => (value x).right where
  tracks :=
    { wellFormed := h.unfolds.wellFormed
      start := fun _ hx => h.represents.tracks.start _
        (Automaton.reaches_nil.mp (h.left (Automaton.reaches_nil.mpr hx)))
      mem_marked := fun _ => h.mem_marked
      step := fun _ ht => h.represents.tracks.step _ (h.unfolds.step_components h.getElem?_value ht).1 }
  alphabet_eq := (h.alphabet_eq ho).trans hg
  size_lt := Nat.lt_of_le_of_lt h.size_le hpairs
  isDeterministic := h.unfolds.isDeterministic h.getElem?_value
    (h.represents.isDeterministic h.wellPosed) h.observes.isDeterministic
  allReached := h.unfolds.allReached
  injective x hx y hy hlabel hcls := by
    obtain ⟨s, hs⟩ := h.unfolds.allReached x hx
    obtain ⟨s', hs'⟩ := h.unfolds.allReached y hy
    refine Automaton.eq_of_components h.getElem?_value hx hy ?_ hcls
    exact h.represents.label_injective _ ((h.left hs).mem_states h.represents.wellFormed) _
      ((h.left hs').mem_states h.represents.wellFormed) hlabel
  observer_isDeterministic := h.observes.isDeterministic
  observer_start _ hx := Automaton.reaches_nil.mp (h.right (Automaton.reaches_nil.mpr hx))
  noticed := h.noticed
  cls_eq := h.right_eq
  exists_lookalike := h.exists_lookalike
  cls_injective _ hx _ hy := h.cls_injective hx hy

end AttachedProduct

/-- **The product with the observer** can be built as long as there are numbers for what the
observer can believe and for the pairs. -/
theorem exists_attachedProduct (hc : c.WellPosed) (hg : c.Represents g label)
    (hbeliefs : (g.markAllStates.beliefs (g.alphabet ∩ c.observable)).length < UInt32.size)
    (hpairs : (g.jointPairs (c.observerOf g)).length < UInt32.size) :
    (c.observerOf g).alphabet = g.alphabet ∧ ∃ belief value,
      AttachedProduct c g (c.observerOf g) (g.product (c.observerOf g)).1 label belief
        (g.product (c.observerOf g)).2 value := by
  have hwf : g.markAllStates.WellFormed := { hg.wellFormed with marked_subset := fun _ hx => hx }
  have ho := Automaton.observes_inverseProject c.observable g.alphabet hwf
    (fun _ hev => hev) hbeliefs
  refine ⟨Automaton.alphabet_inverseProject hwf (fun _ hev => hev) hbeliefs, ?_⟩
  obtain ⟨belief, value, h⟩ := Automaton.exists_observerProduct hg.wellFormed
    Automaton.reaches_markAllStates ho hpairs
  exact ⟨belief, value, h, hc, hg⟩

end OmegaControl.ObservedProblem
