import OmegaControl.ControlProblem
import OmegaControl.Inclusion

/-!
# Product of plant and specification

A run of the plant that meets the specification has to visit the markings of both
infinitely often. A state of the product therefore says, besides where the plant
and the specification are, whose marking is owed next. The plant's is owed at the
start; the debt changes sides whenever the owed marking is visited. A state is
marked if the specification's marking is owed and is visited right there: a run
that visits marked states infinitely often has paid both debts infinitely often.

The product is built by a depth-first walk. A state that disables an uncontrollable
event of the plant is critical, and so is one from which an uncontrollable event
leads to a state that is already known to be critical; critical states are not
followed any further, and are deleted at the end.
-/

namespace OmegaControl

/-- A state of the product. -/
structure ProductState where
  plant : StateId
  spec : StateId
  /-- is the plant's marking owed next, and not the specification's? -/
  plantOwed : Bool
  deriving DecidableEq

namespace ProductState

/-- Ordered by plant state, then by state of the specification; of two that differ
in what is owed only, the one that owes the plant's marking comes first. -/
instance : Ord ProductState :=
  ⟨compareLex (compareOn plant) (compareLex (compareOn spec) (compareOn fun p => !p.plantOwed))⟩

instance : Std.TransOrd ProductState :=
  inferInstanceAs (Std.TransCmp
    (compareLex (compareOn plant) (compareLex (compareOn spec) (compareOn fun p => !p.plantOwed))))

instance : Std.LawfulEqOrd ProductState where
  eq_of_compare {p q} h := by
    have h : compareLex (compareOn plant)
        (compareLex (compareOn spec) (compareOn fun p => !p.plantOwed)) p q = .eq := h
    simp only [compareLex_eq_eq, compareOn, Std.LawfulEqCmp.compare_eq_iff_eq] at h
    cases p
    cases q
    simp_all

instance : Bounded ProductState :=
  Bounded.ofInjective (fun p => (p.plant, p.spec, p.plantOwed)) fun p q h => by
    cases p
    cases q
    simp_all

/-- How the owed marking is written. -/
def owedText (p : ProductState) : String := if p.plantOwed then "r1m" else "r2m"

/-- How a state is written: `7|8|r1m`. -/
def text (p : ProductState) : String := p.plant.text ++ "|" ++ p.spec.text ++ "|" ++ p.owedText

/-- States in ascending order. -/
def sort (ps : List ProductState) : List ProductState := ps.mergeSort fun p q => (compare p q).isLE

end ProductState

/-- The state of the result that stands for a state of the product. -/
abbrev ProductComposition := Std.ExtTreeMap ProductState StateId

/-- The result of the construction. -/
structure ControlledProduct where
  automaton : Automaton
  /-- which state of the result stands for which state of the product -/
  composition : ProductComposition
  /-- the states of the result in which the plant is marked -/
  plantMarking : StateSet

namespace ControlledProduct

/-! ## One state -/

/-- Is the plant's marking owed after this state? -/
def owedNext (c : ControlProblem) (p : ProductState) : Bool :=
  if p.plantOwed then p.plant ∉ c.plant.marked else p.spec ∈ c.spec.marked

/-- The events that plant and specification can take from a state, with the state
they lead to. -/
def sharedSteps (c : ControlProblem) (p : ProductState) : List (EventId × ProductState) :=
  (c.plant.joinAt c.spec ⟨p.plant, p.spec⟩).filterMap fun
    | .both l r => some (l.event, ⟨l.target, r.target, owedNext c p⟩)
    | _ => none

/-- The events that the plant can take from a state and the specification cannot. -/
def refusedEvents (c : ControlProblem) (p : ProductState) : List EventId :=
  (c.plant.joinAt c.spec ⟨p.plant, p.spec⟩).filterMap fun
    | .left t => some t.event
    | _ => none

/-- Is a state marked in the product? -/
def isMarked (spec : Automaton) (p : ProductState) : Bool := !p.plantOwed && p.spec ∈ spec.marked

/-! ## The walk -/

/-- What the walk has built. -/
structure Construction where
  automaton : Automaton
  composition : ProductComposition
  /-- states of the result that have to go -/
  critical : StateSet
  /-- states of the product to take up, the next one first -/
  pending : List ProductState

namespace Construction

/-- Is the state known, and known to be critical? -/
def knowsCritical (s : Construction) (p : ProductState) : Bool :=
  s.composition[p]?.any (· ∈ s.critical)

/-- The state of the result that stands for `p`; a new one is put on top of the
pending ones. -/
def meet (spec : Automaton) (s : Construction) (p : ProductState) : StateId × Construction :=
  match s.composition[p]? with
  | some y => (y, s)
  | none =>
    let (y, g) := s.automaton.insertState
    (y, { s with
      automaton := if isMarked spec p then g.setMarkedState y else g
      composition := s.composition.insert p y
      pending := p :: s.pending })

/-- Adds steps from the state `x` of the result. -/
def insertSteps (spec : Automaton) (x : StateId) (s : Construction)
    (steps : List (EventId × ProductState)) : Construction :=
  steps.foldl (fun s (ev, p) =>
    let (y, s) := s.meet spec p
    { s with automaton := s.automaton.insertTransition ⟨x, ev, y⟩ }) s

/-- Takes up the state `p`, unless it is known to be critical: it turns out to be
critical, or its steps are added, except controllable ones into states known to be
critical. -/
def takeUp (c : ControlProblem) (s : Construction) (p : ProductState) : Construction :=
  match s.composition[p]? with
  | none => s
  | some x =>
    if x ∈ s.critical then s
    else
      let steps := sharedSteps c p
      let bad := (steps.filter fun (_, q) => s.knowsCritical q).map (·.1)
      if (refusedEvents c p ++ bad).any (· ∉ c.controllable) then
        { s with critical := s.critical.insert x }
      else s.insertSteps c.spec x (steps.filter fun (ev, _) => ev ∉ bad)

/-- **Taking up a state** does one of three things: nothing, or it adds a critical state, or it
adds shared steps. -/
theorem takeUp_cases {P : Construction → Prop} (c : ControlProblem) (s : Construction)
    (p : ProductState) (same : P s) (critical : ∀ x, P { s with critical := s.critical.insert x })
    (followed : ∀ x steps, s.composition[p]? = some x → (∀ step ∈ steps, step ∈ sharedSteps c p) →
      P (s.insertSteps c.spec x steps)) : P (s.takeUp c p) := by
  rw [takeUp]
  split
  next => exact same
  next x hx =>
    split
    next => exact same
    next =>
      dsimp only
      split
      next => exact critical x
      next => exact followed x _ hx fun _ hstep => (List.mem_filter.1 hstep).1

/-- How much is left to do: states not met yet, and states pending. -/
def work (s : Construction) : Nat :=
  Bounded.bound ProductState - s.composition.size + s.pending.length

theorem work_meet (spec : Automaton) (s : Construction) (p : ProductState) :
    (s.meet spec p).2.work ≤ s.work := by
  rw [meet]
  split
  · exact Nat.le_refl _
  next h =>
    -- a state met for the first time is one fewer to meet and one more pending
    have hmem : ¬s.composition.contains p = true := by simpa using h
    have hsize := Bounded.size_map_le (s.composition.insert p s.automaton.freshState)
    have hinsert : (s.composition.insert p s.automaton.freshState).size = s.composition.size + 1 := by
      rw [Std.ExtTreeMap.size_insert, if_neg hmem]
    simp only [work, Automaton.insertState, hinsert, List.length_cons]
    omega

theorem work_insertSteps (spec : Automaton) (x : StateId) (s : Construction)
    (steps : List (EventId × ProductState)) : (s.insertSteps spec x steps).work ≤ s.work := by
  induction steps generalizing s with
  | nil => exact Nat.le_refl _
  | cons step steps ih => exact Nat.le_trans (ih _) (work_meet spec s step.2)

theorem work_takeUp (c : ControlProblem) (s : Construction) (p : ProductState) :
    (s.takeUp c p).work ≤ s.work :=
  takeUp_cases (P := (·.work ≤ s.work)) c s p (Nat.le_refl _) (fun _ => Nat.le_refl _)
    fun x steps _ _ => work_insertSteps c.spec x s steps

end Construction

/-- Takes up pending states until none is left; `done` were taken up before. Each is
reported. -/
def build (c : ControlProblem) (done : Nat) (s : Construction) : Watched Construction :=
  match _h : s.pending with
  | [] => pure s
  | p :: pending => do
    Watched.checkpoint .product (done + 1) s.composition.size
    build c (done + 1) (({ s with pending } : Construction).takeUp c p)
termination_by s.work
decreasing_by
  refine Nat.lt_of_le_of_lt (Construction.work_takeUp _ _ _) ?_
  simp only [Construction.work, _h, List.length_cons]
  omega

/-- The product without states. -/
def blank (plant spec : Automaton) : Automaton :=
  ((Automaton.new ("BuechiConProduct(" ++ plant.name ++ "," ++ spec.name ++ ")")).insertEvents
    plant.alphabet).copyEventNames plant

/-- Deletes the critical states. -/
def ofConstruction (plant : Automaton) (s : Construction) : ControlledProduct :=
  let automaton := s.automaton.deleteStates s.critical
  let composition := s.composition.filter fun _ x => x ∈ automaton.states
  { automaton
    composition
    plantMarking := IdentSet.ofList
      ((composition.toList.filter fun (p, _) => p.plant ∈ plant.marked).map (·.2)) }

end ControlledProduct

/-- The product of plant and specification with respect to the controllable events.
It starts in the first initial states of both and is empty if one has none. -/
def ControlProblem.controlledProduct (c : ControlProblem) : Watched ControlledProduct :=
  let blank := ControlledProduct.blank c.plant c.spec
  match initialPair? c.plant c.spec with
  | none => pure ⟨blank, ∅, ∅⟩
  | some start => do
    let p : ProductState := ⟨start.left, start.right, true⟩
    let (x, g) := blank.insertInitialState
    let s ← ControlledProduct.build c 0 ⟨g, (∅ : ProductComposition).insert p x, ∅, [p]⟩
    pure (ControlledProduct.ofConstruction c.plant s)

end OmegaControl
