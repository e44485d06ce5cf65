import Mathlib.Data.Set.Card
import OmegaControl.IdentSet.Basic

/-!
# Sets of identifiers are finite sets

What a set of identifiers stands for can be read off its blocks: the identifiers
whose bit is set (`IdentSet.elements`). The operations look up blocks, set and clear
single bits, merge lists of blocks, walk through set bits and take short cuts by the
number of members; each of them does to the elements what its name says
(`ActsAsFiniteSet`).

As the blocks ascend and none is zero, two sets have the same blocks only if they
have the same elements, and the order in which sets are kept is that of their
elements, listed in ascending order. So sets may be compared and kept in ordered tables by their blocks.

From here on nothing needs to know about blocks: a set is used through membership
(`mem_elements`).
-/

namespace OmegaControl

namespace Block

/-- The number of bits that are set in a list of blocks, counted one by one. The
number of members that a set keeps is computed from whole words. -/
def bitCount (blocks : List Block) : ℕ :=
  (blocks.map fun b => ((Finset.range 64).filter fun i => testBit b.bits i = true).card).sum

/-- The walk through the set bits of a word finds each of them once. -/
theorem length_positions (bits : UInt64) :
    (positions bits).length = ((Finset.range 64).filter fun i => testBit bits i = true).card := by
  have hnodup : (positions bits).Nodup := (positions_sorted bits).imp Nat.ne_of_lt
  rw [← List.toFinset_card_of_nodup hnodup]
  congr 1
  ext i
  rw [List.mem_toFinset, mem_positions, Finset.mem_filter, Finset.mem_range, iff_and_self]
  exact fun h => Nat.lt_of_not_le fun hle => by simp [testBit_of_le hle] at h

theorem population_eq_bitCount (blocks : List Block) : population blocks = bitCount blocks := by
  induction blocks with
  | nil => rfl
  | cons b bs ih =>
    rw [bitCount, List.map_cons, List.sum_cons, ← length_positions, ← bitCount, ← ih]
    rfl

end Block

/-- Lists in which elements are compared one by one, a proper beginning being less
than the list. This is the order that tables of sets are kept in. -/
theorem Ident.compare_eq_lt_iff_lex {kind : Kind} {xs ys : List (Ident kind)} :
    compare xs ys = .lt ↔ List.Lex (·.index < ·.index) xs ys := by
  induction xs generalizing ys with
  | nil => cases ys <;> simp
  | cons x xs ih =>
    cases ys with
    | nil => simp
    | cons y ys =>
      rw [List.compare_cons_cons, Ordering.then_eq_lt, Ident.compare_eq_lt_iff,
        Std.compare_eq_iff_eq, ih]
      constructor
      · rintro (hlt | ⟨rfl, hlex⟩)
        · exact .rel hlt
        · exact .cons hlex
      · intro hlex
        cases hlex with
        | rel hlt => exact .inl hlt
        | cons hlex => exact .inr ⟨rfl, hlex⟩

namespace IdentSet

variable {kind : Kind}

/-- The identifiers whose bit is set. It is defined from the blocks alone, and not
by the operations that are described with it. -/
def elements (s : IdentSet kind) : Set (Ident kind) :=
  {x | ∃ b ∈ s.blocks, b.index = x.index / 64 ∧ Block.testBit b.bits (x.index % 64) = true}

variable {s t : IdentSet kind} {x : Ident kind}

/-- An identifier is found if its bit is set. -/
theorem mem_elements : x ∈ s.elements ↔ x ∈ s := by
  rw [mem_iff_bitAt, Block.bitAt]
  constructor
  · rintro ⟨b, hb, hindex, hbit⟩
    rwa [← hindex, Block.bitsAt_of_mem s.sorted hb]
  · intro hbit
    by_contra hnone
    rw [Block.bitsAt_eq_zero, Block.testBit_zero] at hbit
    · cases hbit
    · intro b hb hindex
      rw [← hindex, Block.bitsAt_of_mem s.sorted hb] at hbit
      exact hnone ⟨b, hb, hindex, hbit⟩

/-- There is one set for given elements, since each is kept in one form only. -/
theorem elements_injective (h : s.elements = t.elements) : s = t :=
  ext fun x => by rw [← mem_elements, h, mem_elements]

theorem elements_eq_empty : s.elements = ∅ ↔ ∀ x, x ∉ s := by
  rw [Set.eq_empty_iff_forall_notMem]
  exact forall_congr' fun x => not_congr mem_elements

/-- The size that is kept along is the number of elements. -/
theorem ncard_elements (s : IdentSet kind) : s.elements.ncard = s.size := by
  have hlist : s.elements = (s.toList.toFinset : Set (Ident kind)) := by
    ext x
    rw [mem_elements, Finset.mem_coe, List.mem_toFinset, mem_toList]
  rw [hlist, Set.ncard_coe_finset, List.toFinset_card_of_nodup s.toList_nodup, length_toList]

/-- The first member is the smallest one. It is the lowest bit of the first block:
blocks ascend, and none of them is empty. -/
theorem first?_eq_some_iff :
    s.first? = some x ↔ x ∈ s ∧ ∀ y, y ∈ s → x.index ≤ y.index := by
  have hsorted := s.toList_sorted
  simp only [first?, ← mem_toList]
  generalize s.toList = xs at hsorted
  cases xs with
  | nil => simp
  | cons z zs =>
    obtain ⟨hz, -⟩ := List.pairwise_cons.mp hsorted
    rw [List.head?_cons, Option.some.injEq]
    constructor
    · rintro rfl
      refine ⟨List.mem_cons_self, fun y hy => ?_⟩
      rcases List.mem_cons.mp hy with rfl | hy
      · exact Nat.le_refl _
      · exact Nat.le_of_lt (hz y hy)
    · rintro ⟨hx, hleast⟩
      rcases List.mem_cons.mp hx with rfl | hx
      · rfl
      · exact absurd (hz x hx) (Nat.not_lt.mpr (hleast z List.mem_cons_self))

theorem first?_eq_none_iff : s.first? = none ↔ ∀ x, x ∉ s := by
  rw [first?, List.head?_eq_none_iff, List.eq_nil_iff_forall_not_mem]
  exact forall_congr' fun x => not_congr mem_toList

/-- What is left when the first member has been taken out, if there was one. -/
theorem mem_popFirst : x ∈ s.popFirst.2 ↔ x ∈ s ∧ s.first? ≠ some x := by
  rw [popFirst]
  split
  next hnone => simp [hnone]
  next y hy =>
    rw [mem_erase, hy, and_comm, ne_eq, ne_eq, Option.some.injEq, eq_comm (a := x)]

/-! ## What the operations do
 -/

variable (kind) in
/-- The operations act on the elements as those of finite sets do, and answer what
these answer. Blocks are where they work, so three fields say what they keep of
them: blocks ascend, none is empty, and the size counts bits. The blocks are the
same if and only if the elements are. -/
structure ActsAsFiniteSet : Prop where
  /-- the blocks ascend strictly -/
  blocks_ascend : ∀ s : IdentSet kind, s.blocks.Pairwise (·.index < ·.index)
  /-- no block is left over when its last bit is cleared -/
  bits_ne_zero : ∀ s : IdentSet kind, ∀ b ∈ s.blocks, b.bits ≠ 0
  /-- the number of members is kept along and not counted -/
  size_eq_bitCount : ∀ s : IdentSet kind, s.size = Block.bitCount s.blocks
  contains : ∀ (s : IdentSet kind) x, s.contains x = true ↔ x ∈ s.elements
  /-- adding a member answers whether it was new -/
  insertNew : ∀ (s : IdentSet kind) x, ((s.insertNew x).1 = true ↔ x ∉ s.elements) ∧
    (s.insertNew x).2.elements = {x} ∪ s.elements
  /-- taking out a member answers whether it was there -/
  eraseOld : ∀ (s : IdentSet kind) x, ((s.eraseOld x).1 = true ↔ x ∈ s.elements) ∧
    (s.eraseOld x).2.elements = s.elements \ {x}
  first?_none : ∀ s : IdentSet kind, s.first? = none ↔ s.elements = ∅
  /-- the first member is the smallest -/
  first?_some : ∀ (s : IdentSet kind) x,
    s.first? = some x ↔ x ∈ s.elements ∧ ∀ y ∈ s.elements, x.index ≤ y.index
  /-- taking out the first member answers which one it was -/
  popFirst : ∀ s : IdentSet kind, s.popFirst.1 = s.first? ∧
    s.popFirst.2.elements = {x ∈ s.elements | s.first? ≠ some x}
  empty : (∅ : IdentSet kind).elements = ∅
  singleton : ∀ x : Ident kind, (singleton x).elements = {x}
  ofList : ∀ xs : List (Ident kind), (ofList xs).elements = {x | x ∈ xs}
  insertMany : ∀ (s : IdentSet kind) xs, (s.insertMany xs).elements = s.elements ∪ {x | x ∈ xs}
  filter : ∀ (s : IdentSet kind) p, (s.filter p).elements = {x ∈ s.elements | p x = true}
  union : ∀ s t : IdentSet kind, (s ∪ t).elements = s.elements ∪ t.elements
  inter : ∀ s t : IdentSet kind, (s ∩ t).elements = s.elements ∩ t.elements
  diff : ∀ s t : IdentSet kind, (s \ t).elements = s.elements \ t.elements
  /-- the test compares the sizes first, and then looks up each block -/
  subset : ∀ s t : IdentSet kind, s.subset t = true ↔ s.elements ⊆ t.elements
  disjoint : ∀ s t : IdentSet kind, s.disjoint t = true ↔ s.elements ∩ t.elements = ∅
  size : ∀ s : IdentSet kind, s.size = s.elements.ncard
  isEmpty : ∀ s : IdentSet kind, s.isEmpty = true ↔ s.elements = ∅
  /-- listing goes through the elements in strictly ascending order -/
  toList_ascends : ∀ s : IdentSet kind, s.toList.Pairwise (·.index < ·.index)
  mem_toList : ∀ (s : IdentSet kind) x, x ∈ s.toList ↔ x ∈ s.elements
  /-- sets with the same blocks are the same set -/
  blocks_eq : ∀ s t : IdentSet kind, s.blocks = t.blocks ↔ s.elements = t.elements
  eq_iff : ∀ s t : IdentSet kind, decide (s = t) = true ↔ s.elements = t.elements
  /-- the order is lexicographic -/
  compare_lt : ∀ s t : IdentSet kind,
    compare s t = .lt ↔ List.Lex (·.index < ·.index) s.toList t.toList
  compare_eq : ∀ s t : IdentSet kind, compare s t = .eq ↔ s.elements = t.elements
  compare_swap : ∀ s t : IdentSet kind, compare t s = (compare s t).swap
  compare_trans : ∀ s t u : IdentSet kind,
    compare s t = .lt → compare t u = .lt → compare s u = .lt

/-- **Sets of identifiers act as finite sets.** Nothing is assumed of the sets: that
blocks ascend, that none is zero and that the size is right is part of what a set
is. -/
theorem actsAsFiniteSet (kind : Kind) : ActsAsFiniteSet kind where
  blocks_ascend s := s.sorted
  bits_ne_zero s := s.bits_ne_zero
  size_eq_bitCount s := s.size_eq.trans (Block.population_eq_bitCount _)
  contains _ _ := mem_elements.symm
  insertNew s x := by
    refine ⟨?_, ?_⟩
    · rw [insertNew, Bool.not_eq_true', ← Bool.not_eq_true]
      exact not_congr mem_elements.symm
    · ext y
      rw [Set.mem_union, Set.mem_singleton_iff, mem_elements, mem_elements]
      exact mem_insert
  eraseOld s x := by
    refine ⟨mem_elements.symm, ?_⟩
    ext y
    rw [Set.mem_sdiff, Set.mem_singleton_iff, mem_elements, mem_elements, and_comm]
    exact mem_erase
  first?_none s := first?_eq_none_iff.trans elements_eq_empty.symm
  first?_some s x := by
    simp only [mem_elements]
    exact first?_eq_some_iff
  popFirst s := by
    refine ⟨?_, ?_⟩
    · rw [IdentSet.popFirst]
      split <;> simp [*]
    · ext x
      rw [Set.mem_sep_iff, mem_elements, mem_elements]
      exact mem_popFirst
  empty := elements_eq_empty.mpr fun _ => not_mem_empty
  singleton x := by
    ext y
    rw [mem_elements, mem_singleton, Set.mem_singleton_iff]
  ofList xs := by
    ext x
    rw [mem_elements, mem_ofList, Set.mem_ofPred_eq]
  insertMany s xs := by
    ext x
    rw [mem_elements, mem_insertMany, Set.mem_union, mem_elements, Set.mem_ofPred_eq, or_comm]
  filter s p := by
    ext x
    rw [mem_elements, mem_filter, Set.mem_sep_iff, mem_elements]
  union s t := by
    ext x
    rw [mem_elements, mem_union, Set.mem_union, mem_elements, mem_elements]
  inter s t := by
    ext x
    rw [mem_elements, mem_inter, Set.mem_inter_iff, mem_elements, mem_elements]
  diff s t := by
    ext x
    rw [mem_elements, mem_sdiff, Set.mem_sdiff, mem_elements, mem_elements]
  subset s t := by
    rw [subset_iff, Set.subset_def]
    simp only [mem_elements]
    rfl
  disjoint s t := by
    rw [disjoint_iff, Set.eq_empty_iff_forall_notMem]
    simp only [Set.mem_inter_iff, mem_elements, not_and]
  size s := (ncard_elements s).symm
  isEmpty s := isEmpty_iff.trans elements_eq_empty.symm
  toList_ascends := toList_sorted
  mem_toList s x := IdentSet.mem_toList.trans mem_elements.symm
  blocks_eq s t :=
    ⟨fun h => by rw [elements, elements, h], fun h => congrArg blocks (elements_injective h)⟩
  eq_iff s t := decide_eq_true_iff.trans ⟨congrArg elements, elements_injective⟩
  compare_lt _ _ := Ident.compare_eq_lt_iff_lex
  compare_eq s t := Std.compare_eq_iff_eq.trans ⟨congrArg elements, elements_injective⟩
  compare_swap _ _ := Std.OrientedCmp.eq_swap
  compare_trans _ _ _ := Std.TransCmp.lt_trans

end IdentSet

end OmegaControl
