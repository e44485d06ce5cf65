import OmegaControl.IdentSet.Basic

/-!
# Transitions

A transition leads from a source state to a target state on an event. Automata
keep and list their transitions in the order source, event, target.

`joinByEvent` walks two lists of transitions side by side, as synchronous
composition does with the transitions that leave the two components. On lists
that ascend by event, each event comes out once: as `both` if the two sides have
it, as `left` or `right` if only one side has it.
-/

namespace OmegaControl

/-- A step of an automaton. -/
structure Transition where
  source : StateId
  event : EventId
  target : StateId
  deriving DecidableEq

namespace Transition

instance : Ord Transition :=
  ⟨compareLex (compareOn source) (compareLex (compareOn event) (compareOn target))⟩

instance : Std.TransOrd Transition :=
  inferInstanceAs
    (Std.TransCmp (compareLex (compareOn source) (compareLex (compareOn event) (compareOn target))))

instance : Std.LawfulEqOrd Transition where
  eq_of_compare {s t} h := by
    have h : compareLex (compareOn source) (compareLex (compareOn event) (compareOn target)) s t =
        .eq := h
    simp only [compareLex_eq_eq, compareOn, Std.LawfulEqCmp.compare_eq_iff_eq] at h
    cases s
    cases t
    simp_all

theorem compare_eq_lt_iff {s t : Transition} : compare s t = .lt ↔
    s.source.index < t.source.index ∨ s.source.index = t.source.index ∧
      (s.event.index < t.event.index ∨ s.event.index = t.event.index ∧
        s.target.index < t.target.index) := by
  change compareLex (compareOn source) (compareLex (compareOn event) (compareOn target)) s t =
    .lt ↔ _
  simp only [compareLex, compareOn, Ordering.then_eq_lt, Ident.compare_eq_lt_iff,
    Std.compare_eq_iff_eq, Ident.index_inj]

/-- No transition that leaves `x` is smaller. -/
def lowerBound (x : StateId) : Transition := ⟨x, .first, .first⟩

/-- No transition that leaves `x` is larger. -/
def upperBound (x : StateId) : Transition := ⟨x, .last, .last⟩

/-- No transition that leaves `x` on `ev` is smaller. -/
def lowerBoundOn (x : StateId) (ev : EventId) : Transition := ⟨x, ev, .first⟩

theorem isGE_lowerBound_iff {t : Transition} {x : StateId} :
    (compare t (lowerBound x)).isGE = true ↔ x.index ≤ t.source.index := by
  rw [Ordering.isGE_iff_ne_lt, compare_eq_lt_iff]
  simp only [lowerBound, Ident.index_first]
  omega

theorem isLE_upperBound_iff {t : Transition} {x : StateId} :
    (compare t (upperBound x)).isLE = true ↔ t.source.index ≤ x.index := by
  rw [Ordering.isLE_iff_ne_gt, Std.OrientedCmp.gt_iff_lt, compare_eq_lt_iff]
  have hevent := t.event.index_le_last
  have htarget := t.target.index_le_last
  simp only [upperBound]
  omega

theorem isGE_lowerBoundOn_iff {t : Transition} {x : StateId} {ev : EventId} :
    (compare t (lowerBoundOn x ev)).isGE = true ↔
      x.index < t.source.index ∨ x.index = t.source.index ∧ ev.index ≤ t.event.index := by
  rw [Ordering.isGE_iff_ne_lt, compare_eq_lt_iff]
  simp only [lowerBoundOn, Ident.index_first]
  omega

/-- The transition that leads back. -/
def reversed (t : Transition) : Transition := ⟨t.target, t.event, t.source⟩

@[simp] theorem reversed_reversed (t : Transition) : t.reversed.reversed = t := rfl

/-- How a transition is written: `(1 -e2-> 3)`. -/
def text (t : Transition) : String :=
  "(" ++ t.source.text ++ " -" ++ t.event.text ++ "-> " ++ t.target.text ++ ")"

/-- How a transition is written with its fields and the kinds of its identifiers. -/
def debugText (t : Transition) : String :=
  "Transition \x7b x1: " ++ t.source.debugText ++ ", ev: " ++ t.event.debugText ++
    ", x2: " ++ t.target.debugText ++ " \x7d"

/-- A list of transitions in ascending order. -/
def sort (ts : List Transition) : List Transition := ts.mergeSort fun s t => (compare s t).isLE

end Transition

/-- What two sides have to offer on one event. -/
inductive Joined where
  /-- both sides have the event -/
  | both (left right : Transition)
  /-- only the left side has it -/
  | left (t : Transition)
  /-- only the right side has it -/
  | right (t : Transition)
  deriving DecidableEq

/-- Joins two lists of transitions by event: whichever head has the smaller event
goes first, and two heads with one event go together. -/
def joinByEvent : List Transition → List Transition → List Joined
  | [], rs => rs.map .right
  | l :: ls, [] => (l :: ls).map .left
  | l :: ls, r :: rs =>
    if l.event = r.event then .both l r :: joinByEvent ls rs
    else if l.event.index < r.event.index then .left l :: joinByEvent ls (r :: rs)
    else .right r :: joinByEvent (l :: ls) rs
termination_by ls rs => ls.length + rs.length

end OmegaControl
