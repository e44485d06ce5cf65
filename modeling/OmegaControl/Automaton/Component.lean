import OmegaControl.Automaton.Basic
import OmegaControl.Traversal

/-!
# Strongly connected components

Two states belong together if each can be reached from the other. The components
of an automaton, or of what is left of it without some states to avoid, are
listed in the order in which a depth-first search closes them: a component comes
before every component from which it can be reached.

The search numbers the states as it enters them, and puts them on a stack. With
each state that it is busy with it keeps a low link, the lowest number on the stack
that it has met from there on. When it is done with a state whose low link is no
lower than its number, nothing that was entered since leads further down: the
states from the top of the stack down to this one are a component, and are closed.

The search does not call itself. The states that it is busy with stand in a list of
their own, each with the successors that it has not looked at (`Visit`).
-/

namespace OmegaControl

/-- Which components to list. -/
structure ComponentFilter where
  /-- leave out single states without a loop -/
  ignoreTrivial : Bool := false
  /-- take these states and their transitions away first -/
  avoid : StateSet := ∅
  /-- list only components with one of these states, if given -/
  require : Option StateSet := none

/-- What a search has found so far. -/
structure ComponentSearch where
  /-- which state was entered when -/
  numbers : Std.ExtTreeMap StateId Nat
  lowLinks : Std.ExtTreeMap StateId Nat
  /-- the number of the state that is entered next -/
  next : Nat
  /-- the states that are in no component yet, the one entered last first -/
  stack : List StateId
  onStack : StateSet
  /-- the components, the one closed last first -/
  closed : List StateSet

/-- A state that a search is busy with, and the successors that it has not looked at. -/
structure Visit where
  state : StateId
  ahead : List StateId

namespace ComponentSearch

/-- Nothing has been found yet. -/
def blank : ComponentSearch := ⟨∅, ∅, 0, [], ∅, []⟩

/-- The number of a state that was entered. -/
def number (s : ComponentSearch) (x : StateId) : Nat := s.numbers.getD x 0

/-- The low link of a state that was entered. -/
def low (s : ComponentSearch) (x : StateId) : Nat := s.lowLinks.getD x 0

/-- Enters a state. -/
def enter (s : ComponentSearch) (x : StateId) : ComponentSearch :=
  { s with
    numbers := s.numbers.insert x s.next
    lowLinks := s.lowLinks.insert x s.next
    next := s.next + 1
    stack := x :: s.stack
    onStack := s.onStack.insert x }

/-- Lowers the low link of a state to `n`, unless it is as low already. -/
def lower (s : ComponentSearch) (x : StateId) (n : Nat) : ComponentSearch :=
  { s with lowLinks := s.lowLinks.insert x (min (s.low x) n) }

/-- Takes states off a stack, down to `x`, and returns them with what is left. -/
def popTo (x : StateId) : List StateId → List StateId × List StateId
  | [] => ([], [])
  | y :: ys =>
    if y = x then ([y], ys)
    else
      let (members, rest) := popTo x ys
      (y :: members, rest)

/-- Closes the component that reaches down to `x`. -/
def close (s : ComponentSearch) (x : StateId) : ComponentSearch :=
  let (members, stack) := popTo x s.stack
  { s with
    stack
    onStack := members.foldl IdentSet.erase s.onStack
    closed := IdentSet.ofList members :: s.closed }

/-- Reports the low link of `x` to the state that `x` was entered from, if there is one. -/
def report (s : ComponentSearch) (x : StateId) : Option Visit → ComponentSearch
  | none => s
  | some v => s.lower v.state (s.low x)

/-- Leaves a state; if its low link is its number, a component is closed. -/
def leave (s : ComponentSearch) (x : StateId) (parent : Option Visit) : ComponentSearch :=
  let s := s.report x parent
  if s.low x = s.number x then s.close x else s

/-- Looks at a successor of `x` that was entered before. -/
def look (s : ComponentSearch) (x y : StateId) : ComponentSearch :=
  if y ∈ s.onStack then s.lower x (s.number y) else s

@[simp] theorem numbers_report (s : ComponentSearch) (x : StateId) (parent : Option Visit) :
    (s.report x parent).numbers = s.numbers := by
  cases parent <;> rfl

@[simp] theorem numbers_leave (s : ComponentSearch) (x : StateId) (parent : Option Visit) :
    (s.leave x parent).numbers = s.numbers := by
  rw [leave, ← numbers_report s x parent]
  split <;> rfl

@[simp] theorem numbers_look (s : ComponentSearch) (x y : StateId) :
    (s.look x y).numbers = s.numbers := by
  rw [look]
  split <;> rfl

/-- Goes on until it is busy with no state any more. -/
def run (successors : StateId → List StateId) (s : ComponentSearch) :
    List Visit → ComponentSearch
  | [] => s
  | ⟨x, []⟩ :: busy => run successors (s.leave x busy.head?) busy
  | ⟨x, y :: ys⟩ :: busy =>
    if y ∈ s.numbers then run successors (s.look x y) (⟨x, ys⟩ :: busy)
    else run successors (s.enter y) (⟨y, successors y⟩ :: ⟨x, ys⟩ :: busy)
termination_by busy =>
  (Bounded.bound StateId - s.numbers.size, busy.foldr (fun v n => v.ahead.length + 1 + n) 0)
decreasing_by
  · rw [numbers_leave]
    exact Prod.Lex.right _ (Nat.lt_add_of_pos_left (Nat.succ_pos _))
  · rw [numbers_look]
    exact Prod.Lex.right _ (Nat.add_lt_add_right (Nat.lt_succ_self _) _)
  next hy =>
    -- a state that is entered is no longer unseen
    have hbound := Bounded.size_map_le (s.numbers.insert y s.next)
    have hinsert : (s.numbers.insert y s.next).size = s.numbers.size + 1 := by
      rw [Std.ExtTreeMap.size_insert, if_neg (by rwa [Std.ExtTreeMap.contains_iff_mem])]
    refine Prod.Lex.left _ _ ?_
    change Bounded.bound StateId - (s.numbers.insert y s.next).size < _
    omega

/-- Visits a state and whatever can be reached from it and was not entered before. -/
def visit (successors : StateId → List StateId) (s : ComponentSearch) (x : StateId) :
    ComponentSearch :=
  run successors (s.enter x) [⟨x, successors x⟩]

end ComponentSearch

namespace Automaton

/-- The successors of a state that need not be avoided. -/
def successorsAvoiding (g : Automaton) (avoid : StateSet) (x : StateId) : List StateId :=
  (g.successors x).filter (· ∉ avoid)

/-- Visits a state, unless it is to avoid or was entered before. -/
def visitUnlessEntered (g : Automaton) (avoid : StateSet) (s : ComponentSearch) (x : StateId) :
    ComponentSearch :=
  if x ∈ avoid ∨ x ∈ s.numbers then s else s.visit (g.successorsAvoiding avoid) x

/-- All components of what is left without the states to avoid. -/
def components (g : Automaton) (avoid : StateSet) : List StateSet :=
  (g.states.toList.foldl (g.visitUnlessEntered avoid) .blank).closed.reverse

/-- Can a path go on inside the component forever? -/
def isNontrivial (g : Automaton) (c : StateSet) : Bool :=
  decide (1 < c.size) || c.toList.any fun x => x ∈ g.successors x

/-- The strongly connected components that the filter selects. -/
def stronglyConnectedComponents (g : Automaton) (f : ComponentFilter) : List StateSet :=
  (g.components f.avoid).filter fun c =>
    (!f.ignoreTrivial || g.isNontrivial c) &&
      (match f.require with
      | none => true
      | some states => !c.disjoint states)

end Automaton

end OmegaControl
