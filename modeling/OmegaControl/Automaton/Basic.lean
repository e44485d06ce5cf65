import OmegaControl.Segment
import OmegaControl.Transition

/-!
# Automata

An automaton is a finite generator over shared events: states, some of them
initial and some marked, and an ordered set of labelled transitions. The marking
is read as a Büchi condition: an infinite run is accepted if it visits marked
states infinitely often.

Everything is listed in ascending order, so results built by walking an
automaton are determined by it. Fresh states get the smallest number that was
never a state, as long as the range of numbers lasts.

The operations below are the store; what they keep true together is
`WellFormed`.
-/

namespace OmegaControl

/-- A finite automaton over shared events. -/
structure Automaton where
  name : String
  alphabet : EventSet
  states : StateSet
  initial : StateSet
  marked : StateSet
  transitions : Std.ExtTreeSet Transition
  /-- the number of the next fresh state; deleted states do not come back -/
  nextState : Nat
  eventNames : Std.ExtTreeMap EventId String
  stateNames : Std.ExtTreeMap StateId String
  /-- are names of states kept at all? -/
  stateNamesEnabled : Bool
  deriving DecidableEq

namespace Automaton

/-- The automaton without states and events. -/
def new (name : String) : Automaton where
  name := name
  alphabet := ∅
  states := ∅
  initial := ∅
  marked := ∅
  transitions := ∅
  nextState := 1
  eventNames := ∅
  stateNames := ∅
  stateNamesEnabled := true

instance : Inhabited Automaton := ⟨new ""⟩

/-- The same automaton under another name. -/
def setName (g : Automaton) (name : String) : Automaton := { g with name }

/-! ## Events -/

/-- Adds an event to the alphabet. -/
def insertEvent (g : Automaton) (ev : EventId) : Automaton :=
  { g with alphabet := g.alphabet.insert ev }

/-- Adds events to the alphabet. -/
def insertEvents (g : Automaton) (events : EventSet) : Automaton :=
  { g with alphabet := g.alphabet ∪ events }

/-- Names an event of the alphabet; an event outside the alphabet gets no name. -/
def setEventName (g : Automaton) (ev : EventId) (name : String) : Automaton :=
  if ev ∈ g.alphabet then { g with eventNames := g.eventNames.insert ev name } else g

/-- Adds an event to the alphabet and names it. -/
def insertNamedEvent (g : Automaton) (ev : EventId) (name : String) : Automaton :=
  (g.insertEvent ev).setEventName ev name

/-- The name of an event, if it has one. -/
def eventName? (g : Automaton) (ev : EventId) : Option String := g.eventNames[ev]?

/-- Takes over the names that `other` has for events of this alphabet. -/
def copyEventNames (g other : Automaton) : Automaton :=
  g.alphabet.toList.foldl (fun g ev =>
    match other.eventName? ev with
    | some name => g.setEventName ev name
    | none => g) g

/-! ## States -/

/-- The number of states. -/
def size (g : Automaton) : Nat := g.states.size

/-- Are there no states? -/
def isEmpty (g : Automaton) : Bool := g.states.isEmpty

/-- The smallest number from `n` on that an ascending list of states leaves out. -/
def firstGap : Nat → List StateId → Nat
  | n, [] => n
  | n, x :: xs => if x.index = n then firstGap (n + 1) xs else n

/-- The state that `insertState` adds: one that never was a state, or the smallest
unused one when the range of numbers is used up. -/
def freshState (g : Automaton) : StateId :=
  if g.nextState < UInt32.size then Ident.ofIndex g.nextState
  else Ident.ofIndex (min (firstGap 1 g.states.toList) (UInt32.size - 1))

/-- Adds the state `x`. -/
def insertStateWithId (g : Automaton) (x : StateId) : Automaton :=
  { g with states := g.states.insert x, nextState := max g.nextState (x.index + 1) }

/-- Adds a fresh state. -/
def insertState (g : Automaton) : StateId × Automaton :=
  (g.freshState, g.insertStateWithId g.freshState)

/-- Adds a fresh initial state. -/
def insertInitialState (g : Automaton) : StateId × Automaton :=
  let (x, g) := g.insertState
  (x, { g with initial := g.initial.insert x })

/-- Adds a fresh marked state. -/
def insertMarkedState (g : Automaton) : StateId × Automaton :=
  let (x, g) := g.insertState
  (x, { g with marked := g.marked.insert x })

/-- Deletes states together with their names and the transitions that touch them.
If none of them is a state, nothing happens. -/
def deleteStates (g : Automaton) (dead : StateSet) : Automaton :=
  if dead.disjoint g.states then g
  else
    { g with
      states := g.states \ dead
      initial := g.initial \ dead
      marked := g.marked \ dead
      transitions := g.transitions.filter fun t => t.source ∉ dead ∧ t.target ∉ dead
      stateNames := g.stateNames.filter fun x _ => x ∉ dead }

/-- Deletes one state. -/
def deleteState (g : Automaton) (x : StateId) : Automaton := g.deleteStates (IdentSet.singleton x)

/-- Deletes every state outside `keep`. -/
def restrictStates (g : Automaton) (keep : StateSet) : Automaton :=
  g.deleteStates (g.states \ keep)

/-- Deletes all states; the alphabet stays. -/
def clearStates (g : Automaton) : Automaton := g.deleteStates g.states

/-! ## Initial and marked states -/

/-- The smallest initial state. -/
def initialState? (g : Automaton) : Option StateId := g.initial.first?

/-- Makes `x` an initial state, adding it if needed. -/
def setInitialState (g : Automaton) (x : StateId) : Automaton :=
  let g := g.insertStateWithId x
  { g with initial := g.initial.insert x }

/-- Makes `x` not initial. -/
def clearInitialState (g : Automaton) (x : StateId) : Automaton :=
  { g with initial := g.initial.erase x }

/-- Makes `x` a marked state, adding it if needed. -/
def setMarkedState (g : Automaton) (x : StateId) : Automaton :=
  let g := g.insertStateWithId x
  { g with marked := g.marked.insert x }

/-- Makes `x` not marked. -/
def clearMarkedState (g : Automaton) (x : StateId) : Automaton :=
  { g with marked := g.marked.erase x }

/-- Replaces the marking by those of the given states that are states. -/
def replaceMarking (g : Automaton) (marked : StateSet) : Automaton :=
  { g with marked := marked ∩ g.states }

/-- Marks every state. -/
def markAllStates (g : Automaton) : Automaton := { g with marked := g.states }

/-! ## Transitions -/

/-- Adds a transition, and its states and its event if needed. -/
def insertTransition (g : Automaton) (t : Transition) : Automaton :=
  let g := ((g.insertStateWithId t.source).insertStateWithId t.target).insertEvent t.event
  { g with transitions := g.transitions.insert t }

/-- Takes a transition out. -/
def eraseTransition (g : Automaton) (t : Transition) : Automaton :=
  { g with transitions := g.transitions.erase t }

/-- Keeps the transitions that pass a test. -/
def retainTransitions (g : Automaton) (keep : Transition → Bool) : Automaton :=
  { g with transitions := g.transitions.filter keep }

/-- The number of transitions. -/
def transitionCount (g : Automaton) : Nat := g.transitions.size

/-- The transitions that leave `x`, ascending by event and then by target: those between
the bounds of `x`. -/
def transitionsFrom (g : Automaton) (x : StateId) : List Transition :=
  segment g.transitions (.lowerBound x) fun t => (compare t (.upperBound x)).isLE

/-- The transitions that leave `x` on `ev`. -/
def transitionsOn (g : Automaton) (x : StateId) (ev : EventId) : List Transition :=
  segment g.transitions (.lowerBoundOn x ev) fun t => t.source = x ∧ t.event = ev

/-- The transitions that enter `x`. -/
def transitionsInto (g : Automaton) (x : StateId) : List Transition :=
  g.transitions.toList.filter (·.target = x)

/-- The states that some transition from `x` leads to. -/
def successors (g : Automaton) (x : StateId) : List StateId := (g.transitionsFrom x).map (·.target)

/-- The first state that `x` leads to on `ev`. -/
def successor? (g : Automaton) (x : StateId) (ev : EventId) : Option StateId :=
  (g.transitionsOn x ev).head?.map (·.target)

/-- The events on which some transition leaves `x`. -/
def activeEvents (g : Automaton) (x : StateId) : EventSet :=
  IdentSet.ofList ((g.transitionsFrom x).map (·.event))

/-- Each state with the transitions that leave it. -/
def rows (g : Automaton) : List (StateId × List Transition) :=
  g.states.toList.map fun x => (x, g.transitionsFrom x)

/-- Each state that is entered, with the transitions that enter it. -/
def reverseTransitions (g : Automaton) : List (StateId × List Transition) :=
  (IdentSet.ofList (g.transitions.toList.map (·.target))).toList.map fun x =>
    (x, g.transitionsInto x)

/-- The states that no transition leaves. -/
def terminalStates (g : Automaton) : StateSet :=
  g.states.filter fun x => (g.transitionsFrom x).isEmpty

/-- There is at most one initial state, and at most one transition for each state
and event. -/
def IsDeterministic (g : Automaton) : Prop :=
  g.initial.size ≤ 1 ∧
    g.transitions.toList.Pairwise fun s t => ¬(s.source = t.source ∧ s.event = t.event)

/-- Does no transition of the list have the source and the event of the one before it? -/
def neighboursDiffer : List Transition → Bool
  | s :: t :: ts => !(s.source = t.source ∧ s.event = t.event) && neighboursDiffer (t :: ts)
  | _ => true

/-- In the order of transitions, those for one state and event lie side by side, so it
is enough to look at neighbours. -/
theorem pairwise_iff_neighboursDiffer {ts : List Transition} (h : Ascending ts) :
    ts.Pairwise (fun s t => ¬(s.source = t.source ∧ s.event = t.event)) ↔
      neighboursDiffer ts = true := by
  fun_induction neighboursDiffer ts with
  | case1 s t ts ih =>
    obtain ⟨hs, hts⟩ := List.pairwise_cons.1 h
    rw [List.pairwise_cons, ih hts, Bool.and_eq_true, Bool.not_eq_true', decide_eq_false_iff_not]
    refine and_congr_left fun _ => ⟨fun h => h t List.mem_cons_self, fun hst u hu hsu => ?_⟩
    rcases List.mem_cons.1 hu with rfl | hu
    · exact hst hsu
    · have h₁ := Transition.compare_eq_lt_iff.1 (hs t List.mem_cons_self)
      have h₂ := Transition.compare_eq_lt_iff.1 ((List.pairwise_cons.1 hts).1 u hu)
      simp only [← Ident.index_inj] at hst hsu
      omega
  | case2 ts hne =>
    match ts, hne with
    | [], _ => simp
    | [_], _ => simp
    | s :: t :: ts, hne => exact absurd rfl (hne s t ts)

instance (g : Automaton) : Decidable g.IsDeterministic :=
  decidable_of_iff (g.initial.size ≤ 1 ∧ neighboursDiffer g.transitions.toList = true)
    (and_congr_right fun _ => (pairwise_iff_neighboursDiffer g.transitions.ordered_toList).symm)

theorem transitionsFrom_eq_filter (g : Automaton) (x : StateId) :
    g.transitionsFrom x = g.transitions.toList.filter (·.source = x) := by
  rw [transitionsFrom, segment_eq_filter_isGE _ fun s t _ hst ht =>
    Std.TransCmp.isLE_trans (Ordering.isLE_of_eq_lt hst) ht]
  refine List.filter_congr fun t _ => Bool.eq_iff_iff.2 ?_
  rw [Bool.and_eq_true, Transition.isGE_lowerBound_iff, Transition.isLE_upperBound_iff,
    decide_eq_true_eq, ← Ident.index_inj]
  omega

theorem transitionsOn_eq_filter (g : Automaton) (x : StateId) (ev : EventId) :
    g.transitionsOn x ev = g.transitions.toList.filter fun t => t.source = x ∧ t.event = ev := by
  refine segment_eq_filter _ (fun t ht => ?_) fun s t hs hst ht => ?_
  · simp only [decide_eq_true_eq, ← Ident.index_inj] at ht
    exact Transition.isGE_lowerBoundOn_iff.2 (by omega)
  · have hs := Transition.isGE_lowerBoundOn_iff.1 hs
    have hst := Transition.compare_eq_lt_iff.1 hst
    simp only [decide_eq_true_eq, ← Ident.index_inj] at ht ⊢
    omega

@[simp] theorem mem_transitionsFrom {g : Automaton} {x : StateId} {t : Transition} :
    t ∈ g.transitionsFrom x ↔ t ∈ g.transitions ∧ t.source = x := by
  simp [transitionsFrom_eq_filter]

@[simp] theorem mem_transitionsOn {g : Automaton} {x : StateId} {ev : EventId} {t : Transition} :
    t ∈ g.transitionsOn x ev ↔ t ∈ g.transitions ∧ t.source = x ∧ t.event = ev := by
  simp [transitionsOn_eq_filter]

@[simp] theorem mem_transitionsInto {g : Automaton} {x : StateId} {t : Transition} :
    t ∈ g.transitionsInto x ↔ t ∈ g.transitions ∧ t.target = x := by
  simp [transitionsInto]

/-! ## Reversal -/

/-- Runs backwards: transitions lead back, initial and marked states change places. -/
def reversed (g : Automaton) : Automaton :=
  { g with
    initial := g.marked
    marked := g.initial
    transitions := .ofList (g.transitions.toList.map Transition.reversed) }

theorem mem_transitions_reversed {g : Automaton} {t : Transition} :
    t ∈ g.reversed.transitions ↔ t.reversed ∈ g.transitions := by
  rw [reversed, Std.ExtTreeSet.mem_ofList, List.contains_iff_mem, List.mem_map]
  constructor
  · rintro ⟨s, hs, rfl⟩
    rwa [Transition.reversed_reversed, ← Std.ExtTreeSet.mem_toList]
  · exact fun h => ⟨t.reversed, Std.ExtTreeSet.mem_toList.2 h, rfl⟩

/-! ## Names of states -/

/-- Keeps names of states, or drops them and takes no more. -/
def setStateNamesEnabled (g : Automaton) (enabled : Bool) : Automaton :=
  { g with
    stateNamesEnabled := enabled
    stateNames := if enabled then g.stateNames else ∅ }

/-- Names a state, if names are kept. -/
def setStateName (g : Automaton) (x : StateId) (name : String) : Automaton :=
  if g.stateNamesEnabled then { g with stateNames := g.stateNames.insert x name } else g

/-- The name of a state, if it has one. -/
def stateName? (g : Automaton) (x : StateId) : Option String := g.stateNames[x]?

/-- The variant of a name with the number `i`. -/
def variant (name : String) (i : Int32) : String := name ++ "_" ++ Int.repr i.toInt

/-- The first of `name_i`, `name_(i+1)` and so on that is not taken. The numbers are words of 32 bits
with a sign, so they wrap around; after `tries` taken variants the search is given up. -/
def firstFreeName (taken : List String) (name : String) : (tries : Nat) → Int32 → String
  | 0, _ => name
  | tries + 1, i =>
    if variant name i ∈ taken then firstFreeName taken name tries (i + 1) else variant name i

/-- The name itself if it is free, or else the first free one of `name_1`, `name_2`
and so on. No more names are taken than there are numbers, and the name itself is one
of them, so a variant is found before the numbers come back to the first. -/
def uniqueStateName (g : Automaton) (name : String) : String :=
  let taken := g.stateNames.values
  if name ∈ taken then firstFreeName taken name (taken.length + 1) 1 else name

/-! ## What the store keeps true -/

/-- Initial and marked states are states, transitions run between states on events
of the alphabet, named events are in the alphabet, names of states are there only
if they are kept, and the next fresh number is above all states. -/
structure WellFormed (g : Automaton) : Prop where
  initial_subset : g.initial ⊆ g.states
  marked_subset : g.marked ⊆ g.states
  source_mem : ∀ t ∈ g.transitions, t.source ∈ g.states
  event_mem : ∀ t ∈ g.transitions, t.event ∈ g.alphabet
  target_mem : ∀ t ∈ g.transitions, t.target ∈ g.states
  named_mem : ∀ ev ∈ g.eventNames, ev ∈ g.alphabet
  names_enabled : g.stateNamesEnabled = false → g.stateNames = ∅
  nextState_pos : 1 ≤ g.nextState
  lt_nextState : ∀ x ∈ g.states, x.index < g.nextState

/-! ## Text -/

/-- A character as it stands between quotes. Quotes and backslashes are escaped, and so
are characters that leave no trace on paper: control characters, the blank that does
not break and the soft hyphen, by their number if they have no letter of their own.
Beyond the first 256 characters, all are written as they are. -/
def debugChar (c : Char) : String :=
  match c with
  | '"' => "\\\""
  | '\\' => "\\\\"
  | '\n' => "\\n"
  | '\r' => "\\r"
  | '\t' => "\\t"
  | '\x00' => "\\0"
  | _ =>
    if c.toNat < 0x20 ∨ 0x7f ≤ c.toNat ∧ c.toNat ≤ 0xa0 ∨ c.toNat = 0xad then
      "\\u\x7b" ++ String.ofList (Nat.toDigits 16 c.toNat) ++ "\x7d"
    else c.toString

/-- A name with its quotes. -/
def debugName (name : String) : String := "\"" ++ String.join (name.toList.map debugChar) ++ "\""

/-- A one-line description: the parts of the automaton and how many transitions it has. -/
def debugText (g : Automaton) : String :=
  "Automaton \x7b name: " ++ debugName g.name ++ ", alphabet: " ++ g.alphabet.debugText ++
    ", states: " ++ g.states.debugText ++ ", init: " ++ g.initial.debugText ++
    ", marked: " ++ g.marked.debugText ++
    ", transitions: " ++ Nat.repr g.transitionCount ++ " \x7d"

end Automaton

end OmegaControl
