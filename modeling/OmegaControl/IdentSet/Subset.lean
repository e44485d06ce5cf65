import OmegaControl.IdentSet.Basic
import OmegaControl.Traversal

/-!
# Subsets of a set of identifiers

A set with `n` members has at most `2 ^ n` subsets: a subset is told apart from
the others by which members it has, one bit each. So a walk whose values are
subsets of one set of states ends.
-/

namespace OmegaControl.IdentSet

variable {kind : Kind}

/-- A subset of `u`. -/
def SubsetOf (u : IdentSet kind) : Type := { s : IdentSet kind // s ⊆ u }

namespace SubsetOf

instance (u : IdentSet kind) : DecidableEq (SubsetOf u) :=
  inferInstanceAs (DecidableEq { s : IdentSet kind // s ⊆ u })

/-- The part of `s` that lies in `u`. -/
def ofSet (u s : IdentSet kind) : SubsetOf u := ⟨s ∩ u, fun _ hx => (mem_inter.1 hx).2⟩

/-- Which members of the list a set has, as a binary number. -/
def code (s : IdentSet kind) : List (Ident kind) → Nat
  | [] => 0
  | x :: xs => 2 * code s xs + (decide (x ∈ s)).toNat

/-- A code has one bit for each member of the list, so there are no more codes than
subsets. -/
theorem code_lt (s : IdentSet kind) (xs : List (Ident kind)) : code s xs < 1 <<< xs.length := by
  induction xs with
  | nil => exact Nat.zero_lt_one
  | cons x xs ih =>
    have := Bool.toNat_le (decide (x ∈ s))
    rw [code, List.length_cons, Nat.shiftLeft_succ]
    omega

private theorem eq_of_toNat_eq {a b : Bool} (h : a.toNat = b.toNat) : a = b := by
  revert h
  cases a <;> cases b <;> decide

/-- Subsets with the same code have the same members among those of the list. -/
theorem mem_iff_of_code_eq {s t : IdentSet kind} {xs : List (Ident kind)}
    (h : code s xs = code t xs) : ∀ x ∈ xs, x ∈ s ↔ x ∈ t := by
  induction xs with
  | nil => exact List.forall_mem_nil _
  | cons y ys ih =>
    have hs := Bool.toNat_le (decide (y ∈ s))
    have ht := Bool.toNat_le (decide (y ∈ t))
    rw [code, code] at h
    have hy : decide (y ∈ s) = decide (y ∈ t) := eq_of_toNat_eq (by omega)
    intro x hx
    rcases List.mem_cons.1 hx with rfl | hx
    · exact decide_eq_decide.1 hy
    · exact ih (by omega) x hx

instance (u : IdentSet kind) : Bounded (SubsetOf u) where
  bound := 1 <<< u.size
  code s := code s.1 u.toList
  code_lt s := length_toList u ▸ code_lt s.1 u.toList
  code_injective s t h := by
    refine Subtype.ext (ext fun x => ⟨fun hx => ?_, fun hx => ?_⟩)
    · exact (mem_iff_of_code_eq h x (mem_toList.2 (s.2 x hx))).1 hx
    · exact (mem_iff_of_code_eq h x (mem_toList.2 (t.2 x hx))).2 hx

instance (u : IdentSet kind) : Ord (SubsetOf u) := ⟨compareOn Subtype.val⟩

instance (u : IdentSet kind) : Std.TransOrd (SubsetOf u) :=
  inferInstanceAs (Std.TransCmp (compareOn Subtype.val))

instance (u : IdentSet kind) : Std.LawfulEqOrd (SubsetOf u) where
  eq_of_compare {s t} h := by
    have h : compare s.1 t.1 = .eq := h
    exact Subtype.ext (Std.LawfulEqOrd.eq_of_compare h)

end SubsetOf

end OmegaControl.IdentSet
