import Std.Data.ExtTreeMap.Lemmas
import Std.Data.ExtTreeSet.Lemmas

/-!
# Identifiers

States and events are named by 32-bit numbers. The two kinds of identifier are
different types, so a state is never looked up where an event is meant. Number
0 is reserved: a caller's number becomes an identifier through `ofNumber`, which
refuses it. `ofIndex` reads a bit position of a set of identifiers instead, and
wraps at the width of the number.

Identifiers are ordered by their number. The order is total and its equality is
equality, which is what the ordered sets and maps of this library ask for.
-/

namespace OmegaControl

/-- What an identifier names. -/
inductive Kind where
  /-- a state of an automaton -/
  | state
  /-- an event, shared by all automata that use its number -/
  | event
  deriving DecidableEq

/-- The identifier of a state or of an event. -/
structure Ident (kind : Kind) where
  /-- the number that names it -/
  number : UInt32
  deriving DecidableEq

/-- The identifier of a state. -/
abbrev StateId := Ident .state

/-- The identifier of an event. -/
abbrev EventId := Ident .event

/-- The reserved number 0 was given for an identifier. -/
structure ReservedNumber where
  /-- what the identifier should have named -/
  kind : Kind
  deriving DecidableEq

/-- What is reported for the reserved number. -/
def ReservedNumber.message : ReservedNumber → String
  | ⟨.state⟩ => "State IDs must be >= 1"
  | ⟨.event⟩ => "Event IDs must be >= 1"

namespace Ident

variable {kind : Kind}

/-- The identifier with the given number, unless the number is reserved. -/
def ofNumber (kind : Kind) (n : UInt32) : Except ReservedNumber (Ident kind) :=
  if n = 0 then .error ⟨kind⟩ else .ok ⟨n⟩

/-- The position of an identifier in a set of identifiers. -/
def index (x : Ident kind) : Nat := x.number.toNat

/-- The identifier at a position; positions wrap at `2 ^ 32`. -/
def ofIndex (i : Nat) : Ident kind := ⟨UInt32.ofNat i⟩

/-- The identifier with the smallest number. No caller gets it from `ofNumber`; it
bounds all others. -/
def first : Ident kind := ⟨0⟩

/-- The identifier with the largest number. -/
def last : Ident kind := ⟨4294967295⟩

theorem index_lt (x : Ident kind) : x.index < UInt32.size := UInt32.toNat_lt x.number

@[simp] theorem ofIndex_index (x : Ident kind) : ofIndex x.index = x := by
  cases x
  simp [ofIndex, index]

theorem index_ofIndex {i : Nat} (h : i < UInt32.size) : (ofIndex i : Ident kind).index = i := by
  rw [index, ofIndex, UInt32.toNat_ofNat', Nat.mod_eq_of_lt h]

theorem index_injective {x y : Ident kind} (h : x.index = y.index) : x = y := by
  rw [← ofIndex_index x, h, ofIndex_index]

@[simp] theorem index_inj {x y : Ident kind} : x.index = y.index ↔ x = y :=
  ⟨index_injective, congrArg index⟩

theorem index_first : (first : Ident kind).index = 0 := rfl

theorem index_le_last (x : Ident kind) : x.index ≤ (last : Ident kind).index :=
  Nat.le_of_lt_succ x.index_lt

/-! ## Order -/

instance : Ord (Ident kind) := ⟨compareOn number⟩

instance : Std.TransOrd (Ident kind) :=
  inferInstanceAs (Std.TransCmp (compareOn number))

instance : Std.LawfulEqOrd (Ident kind) where
  eq_of_compare {x y} h := by
    have h : compare x.number y.number = .eq := h
    cases x
    cases y
    simpa using h

theorem compare_eq_lt_iff {x y : Ident kind} : compare x y = .lt ↔ x.index < y.index := by
  change compare x.number y.number = .lt ↔ _
  rw [Std.compare_eq_lt]
  exact UInt32.lt_iff_toNat_lt

/-! ## Text -/

/-- How an identifier is written: a state `7`, an event `e7`. -/
def text : {kind : Kind} → Ident kind → String
  | .state, x => Nat.repr x.index
  | .event, x => "e" ++ Nat.repr x.index

/-- How an identifier is written where its kind is spelled out: `StateId(7)`. -/
def debugText : {kind : Kind} → Ident kind → String
  | .state, x => "StateId(" ++ Nat.repr x.index ++ ")"
  | .event, x => "EventId(" ++ Nat.repr x.index ++ ")"

end Ident

end OmegaControl
