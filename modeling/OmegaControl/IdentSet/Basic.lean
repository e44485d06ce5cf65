import OmegaControl.IdentSet.Block

/-!
# Sets of identifiers

`IdentSet kind` is a finite set of identifiers of one kind, kept as sparse
blocks of bits together with the number of its members. The three facts about the
blocks that every operation relies on (ascending, none zero, none beyond the 32-bit
range) and what the number is are part of the type, so two sets with the same members
are equal.

The members are read through `contains` and, in ascending order, through
`toList`. Each operation has one lemma that says what it does to the members;
nothing outside this file looks at blocks.
-/

namespace OmegaControl

/-- A finite set of identifiers of one kind. -/
structure IdentSet (kind : Kind) where
  /-- the occupied blocks -/
  blocks : List Block
  /-- the number of members -/
  size : Nat
  sorted : Block.Sorted blocks
  bits_ne_zero : ∀ b ∈ blocks, b.bits ≠ 0
  index_lt : ∀ b ∈ blocks, b.index < UInt32.size / 64
  size_eq : size = Block.population blocks

/-- A set of states. -/
abbrev StateSet := IdentSet .state

/-- A set of events. -/
abbrev EventSet := IdentSet .event

namespace IdentSet

variable {kind : Kind}

/-! ## Members -/

/-- Is `x` a member? -/
def contains (s : IdentSet kind) (x : Ident kind) : Bool := Block.bitAt s.blocks x.index

instance : Membership (Ident kind) (IdentSet kind) := ⟨fun s x => s.contains x = true⟩

instance (s : IdentSet kind) (x : Ident kind) : Decidable (x ∈ s) :=
  inferInstanceAs (Decidable (s.contains x = true))

/-- The members in ascending order. -/
def toList (s : IdentSet kind) : List (Ident kind) :=
  (s.blocks.flatMap Block.members).map Ident.ofIndex

/-- Membership is a bit of the block that the number belongs to. -/
theorem mem_iff_bitAt {s : IdentSet kind} {x : Ident kind} :
    x ∈ s ↔ Block.bitAt s.blocks x.index = true := Iff.rfl

/-- Numbers beyond the range of identifiers are present in no block. -/
theorem lt_of_bitAt {s : IdentSet kind} {n : Nat} (h : Block.bitAt s.blocks n = true) :
    n < UInt32.size := by
  obtain ⟨b, hb, hn⟩ := List.mem_flatMap.1 ((Block.mem_flatMap_members s.sorted).2 h)
  have := s.index_lt b hb
  have := (Block.mem_members.1 hn).1
  omega

@[simp] theorem mem_toList {s : IdentSet kind} {x : Ident kind} : x ∈ s.toList ↔ x ∈ s := by
  simp only [toList, List.mem_map, Block.mem_flatMap_members s.sorted, mem_iff_bitAt]
  constructor
  · rintro ⟨n, hn, rfl⟩
    rwa [Ident.index_ofIndex (lt_of_bitAt hn)]
  · exact fun h => ⟨x.index, h, Ident.ofIndex_index x⟩

theorem toList_sorted (s : IdentSet kind) : s.toList.Pairwise (·.index < ·.index) := by
  refine List.pairwise_map.2 ((Block.flatMap_members_sorted s.sorted).imp_of_mem ?_)
  intro a b ha hb hab
  have ha := lt_of_bitAt ((Block.mem_flatMap_members s.sorted).1 ha)
  have hb := lt_of_bitAt ((Block.mem_flatMap_members s.sorted).1 hb)
  rwa [Ident.index_ofIndex ha, Ident.index_ofIndex hb]

theorem toList_nodup (s : IdentSet kind) : s.toList.Nodup :=
  s.toList_sorted.imp fun h he => by simp [he] at h

@[simp] theorem length_toList (s : IdentSet kind) : s.toList.length = s.size := by
  rw [toList, List.length_map, Block.length_flatMap_members, s.size_eq]

private theorem blocks_injective {s t : IdentSet kind} (h : s.blocks = t.blocks) : s = t := by
  obtain ⟨bs, n, _, _, _, hn⟩ := s
  obtain ⟨cs, m, _, _, _, hm⟩ := t
  cases h
  cases hn
  cases hm
  rfl

/-- Two sets with the same members are equal. -/
@[ext] theorem ext {s t : IdentSet kind} (h : ∀ x, x ∈ s ↔ x ∈ t) : s = t := by
  refine blocks_injective
    (Block.eq_of_bitAt s.sorted t.sorted s.bits_ne_zero t.bits_ne_zero fun n => ?_)
  have key : ∀ {s t : IdentSet kind}, (∀ x, x ∈ s → x ∈ t) →
      Block.bitAt s.blocks n = true → Block.bitAt t.blocks n = true := by
    intro s t h hn
    have := h (Ident.ofIndex n)
    rw [mem_iff_bitAt, mem_iff_bitAt, Ident.index_ofIndex (lt_of_bitAt hn)] at this
    exact this hn
  exact Bool.eq_iff_iff.2 ⟨key fun x => (h x).1, key fun x => (h x).2⟩

instance : DecidableEq (IdentSet kind) := fun s t =>
  decidable_of_iff (s.blocks = t.blocks) ⟨blocks_injective, congrArg blocks⟩

/-- A set is known from its members in order. -/
theorem toList_injective {s t : IdentSet kind} (h : s.toList = t.toList) : s = t :=
  ext fun x => by rw [← mem_toList, h, mem_toList]

/-! ## Building sets -/

/-- The set without members. -/
def empty : IdentSet kind where
  blocks := []
  size := 0
  sorted := List.Pairwise.nil
  bits_ne_zero := List.forall_mem_nil _
  index_lt := List.forall_mem_nil _
  size_eq := rfl

instance : EmptyCollection (IdentSet kind) := ⟨empty⟩

instance : Inhabited (IdentSet kind) := ⟨∅⟩

/-- The set with the one member `x`. -/
def singleton (x : Ident kind) : IdentSet kind where
  blocks := [⟨x.index / 64, Block.oneBit (x.index % 64)⟩]
  size := Block.population [⟨x.index / 64, Block.oneBit (x.index % 64)⟩]
  sorted := List.pairwise_singleton _ _
  bits_ne_zero := by
    simp only [List.mem_singleton, forall_eq]
    exact Block.oneBit_ne_zero (Nat.mod_lt _ (by decide))
  index_lt := by
    simp only [List.mem_singleton, forall_eq]
    have : x.index < 64 * (UInt32.size / 64) := x.index_lt
    exact Nat.div_lt_of_lt_mul this
  size_eq := rfl

/-- Combines two sets block by block. -/
private def merge (op : UInt64 → UInt64 → UInt64) (h0 : op 0 0 = 0) (s t : IdentSet kind) :
    IdentSet kind where
  blocks := Block.merge op s.blocks t.blocks
  size := Block.population (Block.merge op s.blocks t.blocks)
  sorted := Block.sorted_merge h0 s.sorted t.sorted
  bits_ne_zero _ := Block.bits_ne_zero_of_mem_merge
  index_lt b hb := by
    rcases Block.index_of_mem_merge hb with ⟨c, hc, e⟩ | ⟨c, hc, e⟩
    · exact e ▸ s.index_lt c hc
    · exact e ▸ t.index_lt c hc
  size_eq := rfl

/-- The members of either set. -/
def union (s t : IdentSet kind) : IdentSet kind := merge (· ||| ·) (by decide) s t

/-- The members of both sets. -/
def inter (s t : IdentSet kind) : IdentSet kind := merge (· &&& ·) (by decide) s t

/-- The members of `s` that are not members of `t`. -/
def diff (s t : IdentSet kind) : IdentSet kind := merge (fun a b => a &&& ~~~b) (by decide) s t

instance : Union (IdentSet kind) := ⟨union⟩

instance : Inter (IdentSet kind) := ⟨inter⟩

instance : SDiff (IdentSet kind) := ⟨diff⟩

/-! ## Members of built sets -/

@[simp] theorem not_mem_empty {x : Ident kind} : x ∉ (∅ : IdentSet kind) := by
  intro h
  change Block.bitAt [] x.index = true at h
  simp [Block.bitAt] at h

@[simp] theorem mem_singleton {x y : Ident kind} : y ∈ singleton x ↔ y = x := by
  change Block.bitAt [⟨x.index / 64, Block.oneBit (x.index % 64)⟩] y.index = true ↔ _
  rw [Block.bitAt, Block.bitsAt_cons]
  split
  next h =>
    change x.index / 64 = y.index / 64 at h
    rw [Block.testBit_oneBit (Nat.mod_lt _ (by decide)), decide_eq_true_iff, ← Ident.index_inj]
    omega
  next h =>
    simp only [Block.bitsAt_nil, Block.testBit_zero, Bool.false_eq_true, false_iff]
    rintro rfl
    exact h rfl

private theorem mem_merge {op : UInt64 → UInt64 → UInt64} (h0 : op 0 0 = 0) {s t : IdentSet kind}
    {x : Ident kind} :
    x ∈ merge op h0 s t ↔ Block.testBit (op (Block.bitsAt s.blocks (x.index / 64))
      (Block.bitsAt t.blocks (x.index / 64))) (x.index % 64) = true := by
  change Block.testBit (Block.bitsAt (Block.merge op s.blocks t.blocks) _) _ = true ↔ _
  rw [Block.bitsAt_merge h0 s.sorted t.sorted]

@[simp] theorem mem_union {s t : IdentSet kind} {x : Ident kind} : x ∈ s ∪ t ↔ x ∈ s ∨ x ∈ t := by
  refine (mem_merge (by decide)).trans ?_
  rw [Block.testBit_or, Bool.or_eq_true]
  exact Iff.rfl

@[simp] theorem mem_inter {s t : IdentSet kind} {x : Ident kind} : x ∈ s ∩ t ↔ x ∈ s ∧ x ∈ t := by
  refine (mem_merge (by decide)).trans ?_
  rw [Block.testBit_and, Bool.and_eq_true]
  exact Iff.rfl

@[simp] theorem mem_sdiff {s t : IdentSet kind} {x : Ident kind} : x ∈ s \ t ↔ x ∈ s ∧ x ∉ t := by
  refine (mem_merge (by decide)).trans ?_
  rw [Block.testBit_and_not, Bool.and_eq_true, Bool.not_eq_true', ← Bool.not_eq_true]
  exact Iff.rfl

/-! ## Adding and taking out members -/

theorem size_union_singleton {s : IdentSet kind} {x : Ident kind} (h : x ∉ s) :
    (s ∪ singleton x).size = s.size + 1 := by
  rw [← length_toList, ← length_toList, ← List.length_cons]
  refine List.Perm.length_eq ((List.perm_ext_iff_of_nodup (toList_nodup _) ?_).2 fun y => ?_)
  · exact List.nodup_cons.2 ⟨mt mem_toList.1 h, s.toList_nodup⟩
  · simp [or_comm]

theorem size_sdiff_singleton {s : IdentSet kind} {x : Ident kind} (h : x ∈ s) :
    (s \ singleton x).size = s.size - 1 := by
  have hback : s = (s \ singleton x) ∪ singleton x := ext fun y => by
    by_cases hy : y = x
    · simp [hy, h]
    · simp [hy]
  have hsize := size_union_singleton (s := s \ singleton x) (x := x) (by simp)
  rw [← hback] at hsize
  omega

private theorem blocks_union_singleton (s : IdentSet kind) (x : Ident kind) :
    Block.modify (· ||| Block.oneBit (x.index % 64)) (x.index / 64) s.blocks =
      (s ∪ singleton x).blocks :=
  Block.modify_eq_merge (· ||| ·) (fun _ => UInt64.or_zero) s.bits_ne_zero _ _

private theorem blocks_sdiff_singleton (s : IdentSet kind) (x : Ident kind) :
    Block.modify (· &&& ~~~Block.oneBit (x.index % 64)) (x.index / 64) s.blocks =
      (s \ singleton x).blocks :=
  Block.modify_eq_merge (fun a b => a &&& ~~~b) (fun a => by simp) s.bits_ne_zero _ _

/-- The set with `x` added: unless it is there, its bit is set and the number of members goes up
by one. -/
def insert (s : IdentSet kind) (x : Ident kind) : IdentSet kind :=
  if h : x ∈ s then s
  else
    { blocks := Block.modify (· ||| Block.oneBit (x.index % 64)) (x.index / 64) s.blocks
      size := s.size + 1
      sorted := blocks_union_singleton s x ▸ (s ∪ singleton x).sorted
      bits_ne_zero := blocks_union_singleton s x ▸ (s ∪ singleton x).bits_ne_zero
      index_lt := blocks_union_singleton s x ▸ (s ∪ singleton x).index_lt
      size_eq := blocks_union_singleton s x ▸
        (size_union_singleton h).symm.trans (s ∪ singleton x).size_eq }

/-- Inserting changes one block in place, and comes to the same as a union. -/
theorem insert_eq_union (s : IdentSet kind) (x : Ident kind) : s.insert x = s ∪ singleton x := by
  rw [insert]
  split
  next h => exact ext fun y => by simpa using fun e => e ▸ h
  next => exact blocks_injective (blocks_union_singleton s x)

/-- The set with `x` taken out: if it is there, its bit is cleared and the number of members goes
down by one. -/
def erase (s : IdentSet kind) (x : Ident kind) : IdentSet kind :=
  if h : x ∈ s then
    { blocks := Block.modify (· &&& ~~~Block.oneBit (x.index % 64)) (x.index / 64) s.blocks
      size := s.size - 1
      sorted := blocks_sdiff_singleton s x ▸ (s \ singleton x).sorted
      bits_ne_zero := blocks_sdiff_singleton s x ▸ (s \ singleton x).bits_ne_zero
      index_lt := blocks_sdiff_singleton s x ▸ (s \ singleton x).index_lt
      size_eq := blocks_sdiff_singleton s x ▸
        (size_sdiff_singleton h).symm.trans (s \ singleton x).size_eq }
  else s

/-- Removing changes one block in place, and comes to the same as a difference. -/
theorem erase_eq_sdiff (s : IdentSet kind) (x : Ident kind) : s.erase x = s \ singleton x := by
  rw [erase]
  split
  next => exact blocks_injective (blocks_sdiff_singleton s x)
  next h =>
    refine ext fun y => ?_
    rw [mem_sdiff, mem_singleton]
    exact ⟨fun hy => ⟨hy, fun he => h (he ▸ hy)⟩, And.left⟩

/-- The set of the identifiers in a list. -/
def ofList (xs : List (Ident kind)) : IdentSet kind := xs.foldl insert ∅

/-- The set with the identifiers of a list added. -/
def insertMany (s : IdentSet kind) (xs : List (Ident kind)) : IdentSet kind := xs.foldl insert s

/-- The members that pass a test: those that fail it are taken out. -/
def filter (p : Ident kind → Bool) (s : IdentSet kind) : IdentSet kind :=
  (s.toList.filter (!p ·)).foldl erase s

/-- Adds `x`, and says whether it was new. -/
def insertNew (s : IdentSet kind) (x : Ident kind) : Bool × IdentSet kind :=
  (!s.contains x, s.insert x)

/-- Takes `x` out, and says whether it was there. -/
def eraseOld (s : IdentSet kind) (x : Ident kind) : Bool × IdentSet kind :=
  (s.contains x, s.erase x)

@[simp] theorem mem_insert {s : IdentSet kind} {x y : Ident kind} :
    y ∈ s.insert x ↔ y = x ∨ y ∈ s := by
  rw [insert_eq_union, mem_union, mem_singleton, or_comm]

@[simp] theorem mem_insertMany {s : IdentSet kind} {xs : List (Ident kind)} {y : Ident kind} :
    y ∈ s.insertMany xs ↔ y ∈ xs ∨ y ∈ s := by
  induction xs generalizing s with
  | nil => simp [insertMany]
  | cons x xs ih =>
    rw [show s.insertMany (x :: xs) = (s.insert x).insertMany xs from rfl, ih, mem_insert,
      List.mem_cons]
    grind

@[simp] theorem mem_ofList {xs : List (Ident kind)} {y : Ident kind} : y ∈ ofList xs ↔ y ∈ xs := by
  rw [show ofList xs = (∅ : IdentSet kind).insertMany xs from rfl, mem_insertMany]
  simp

@[simp] theorem mem_erase {s : IdentSet kind} {x y : Ident kind} :
    y ∈ s.erase x ↔ y ≠ x ∧ y ∈ s := by
  rw [erase_eq_sdiff, mem_sdiff, mem_singleton, and_comm]

private theorem mem_foldl_erase {s : IdentSet kind} {xs : List (Ident kind)} {y : Ident kind} :
    y ∈ xs.foldl erase s ↔ y ∈ s ∧ y ∉ xs := by
  induction xs generalizing s with
  | nil => simp
  | cons x xs ih =>
    rw [List.foldl_cons, ih, mem_erase, List.mem_cons]
    grind

@[simp] theorem mem_filter {p : Ident kind → Bool} {s : IdentSet kind} {y : Ident kind} :
    y ∈ s.filter p ↔ y ∈ s ∧ p y = true := by
  rw [filter, mem_foldl_erase, List.mem_filter, mem_toList]
  grind

/-! ## Size -/

/-- Is there no member? -/
def isEmpty (s : IdentSet kind) : Bool := s.size == 0

/-- The smallest member. -/
def first? (s : IdentSet kind) : Option (Ident kind) := s.toList.head?

/-- The smallest member and the set without it. -/
def popFirst (s : IdentSet kind) : Option (Ident kind) × IdentSet kind :=
  match s.first? with
  | none => (none, s)
  | some x => (some x, s.erase x)

theorem size_le_of_subset {s t : IdentSet kind} (h : ∀ x, x ∈ s → x ∈ t) : s.size ≤ t.size := by
  rw [← length_toList, ← length_toList]
  exact s.toList_nodup.length_le_of_subset fun x hx => mem_toList.2 (h x (mem_toList.1 hx))

theorem size_insert {s : IdentSet kind} {x : Ident kind} (h : x ∉ s) :
    (s.insert x).size = s.size + 1 := by
  rw [insert_eq_union, size_union_singleton h]

/-- A set has at most as many members as there are identifiers. -/
theorem size_le (s : IdentSet kind) : s.size ≤ UInt32.size := by
  have hnodup : (s.toList.map Ident.index).Nodup :=
    List.pairwise_map.2 (s.toList_sorted.imp Nat.ne_of_lt)
  have hrange : s.toList.map Ident.index ⊆ List.range UInt32.size := by
    intro n hn
    obtain ⟨x, _, rfl⟩ := List.mem_map.1 hn
    exact List.mem_range.2 x.index_lt
  simpa using hnodup.length_le_of_subset hrange

theorem isEmpty_iff {s : IdentSet kind} : s.isEmpty = true ↔ ∀ x, x ∉ s := by
  rw [isEmpty, beq_iff_eq, ← length_toList, List.length_eq_zero_iff,
    List.eq_nil_iff_forall_not_mem]
  exact forall_congr' fun x => not_congr mem_toList

theorem isEmpty_eq_false_iff {s : IdentSet kind} : s.isEmpty = false ↔ ∃ x, x ∈ s := by
  rw [← Bool.not_eq_true, isEmpty_iff, Classical.not_forall]
  simp only [Classical.not_not]

/-! ## Comparing sets -/

/-- Is every member of `s` a member of `t`? Not if `s` has more members. -/
def subset (s t : IdentSet kind) : Bool :=
  decide (s.size ≤ t.size) &&
    s.blocks.all fun b => b.bits &&& ~~~Block.bitsAt t.blocks b.index == 0

/-- Is no bit set in a block of `s` that is set in `t`, too? -/
private def avoids (s t : IdentSet kind) : Bool :=
  s.blocks.all fun b => b.bits &&& Block.bitsAt t.blocks b.index == 0

/-- Have the two sets no member in common? It is the side with fewer blocks that is walked
through. -/
def disjoint (s t : IdentSet kind) : Bool :=
  if s.blocks.length ≤ t.blocks.length then s.avoids t else t.avoids s

instance : HasSubset (IdentSet kind) := ⟨fun s t => ∀ x, x ∈ s → x ∈ t⟩

private theorem all_blocks_iff {s t : IdentSet kind} {op : UInt64 → UInt64 → UInt64}
    (h0 : ∀ b, op 0 b = 0) :
    (s.blocks.all fun b => op b.bits (Block.bitsAt t.blocks b.index) == 0) = true ↔
      ∀ i, op (Block.bitsAt s.blocks i) (Block.bitsAt t.blocks i) = 0 := by
  simp only [List.all_eq_true, beq_iff_eq]
  constructor
  · intro h i
    by_cases hi : ∃ b ∈ s.blocks, b.index = i
    · obtain ⟨b, hb, rfl⟩ := hi
      rw [Block.bitsAt_of_mem s.sorted hb, h b hb]
    · rw [Block.bitsAt_eq_zero fun b hb he => hi ⟨b, hb, he⟩, h0]
  · intro h b hb
    rw [← Block.bitsAt_of_mem s.sorted hb, h]

private theorem forall_word_iff {s t : IdentSet kind} {op : UInt64 → UInt64 → UInt64}
    (h0 : op 0 0 = 0) :
    (∀ i, op (Block.bitsAt s.blocks i) (Block.bitsAt t.blocks i) = 0) ↔
      ∀ x, x ∉ merge op h0 s t := by
  constructor
  · intro h x
    rw [mem_merge h0, h, Block.testBit_zero]
    exact Bool.false_ne_true
  · intro h i
    refine Classical.byContradiction fun hne => ?_
    obtain ⟨j, hj, hb⟩ := Block.exists_testBit hne
    have hbit : Block.bitAt (merge op h0 s t).blocks (64 * i + j) = true := by
      change Block.testBit (Block.bitsAt (Block.merge op s.blocks t.blocks) _) _ = true
      rw [Block.bitsAt_merge h0 s.sorted t.sorted, show (64 * i + j) / 64 = i by omega,
        show (64 * i + j) % 64 = j by omega]
      exact hb
    refine h (Ident.ofIndex (64 * i + j)) ?_
    rwa [mem_iff_bitAt, Ident.index_ofIndex (lt_of_bitAt hbit)]

private theorem avoids_iff {s t : IdentSet kind} : s.avoids t = true ↔ ∀ x, x ∈ s → x ∉ t := by
  have h0 : ∀ b : UInt64, 0 &&& b = 0 := fun b => UInt64.zero_and
  refine (all_blocks_iff h0).trans ((forall_word_iff (h0 0)).trans ?_)
  exact forall_congr' fun x => (not_congr mem_inter).trans not_and

theorem disjoint_iff {s t : IdentSet kind} : s.disjoint t = true ↔ ∀ x, x ∈ s → x ∉ t := by
  rw [disjoint]
  split
  next => exact avoids_iff
  next => exact avoids_iff.trans (forall_congr' fun x => imp_not_comm)

theorem subset_iff {s t : IdentSet kind} : s.subset t = true ↔ s ⊆ t := by
  have h0 : ∀ b : UInt64, 0 &&& ~~~b = 0 := fun b => UInt64.zero_and
  have hblocks : (s.blocks.all fun b => b.bits &&& ~~~Block.bitsAt t.blocks b.index == 0) = true ↔
      s ⊆ t :=
    (all_blocks_iff h0).trans ((forall_word_iff (h0 0)).trans
      (forall_congr' fun x => (not_congr mem_sdiff).trans (by simp)))
  rw [subset, Bool.and_eq_true, decide_eq_true_iff, hblocks]
  exact and_iff_right_of_imp size_le_of_subset

instance (s t : IdentSet kind) : Decidable (s ⊆ t) := decidable_of_iff _ subset_iff

/-- Sets are ordered lexicographically by their ascending members. -/
instance : Ord (IdentSet kind) := ⟨compareOn toList⟩

instance : Std.TransOrd (IdentSet kind) := inferInstanceAs (Std.TransCmp (compareOn toList))

instance : Std.LawfulEqOrd (IdentSet kind) where
  eq_of_compare {s t} h := by
    have h : compare s.toList t.toList = .eq := h
    exact toList_injective (Std.LawfulEqOrd.eq_of_compare h)

/-- The different sets of a list, in ascending order. -/
def sortDistinct (sets : List (IdentSet kind)) : List (IdentSet kind) :=
  (Std.ExtTreeSet.ofList sets).toList

/-! ## Text -/

private def braced (parts : List String) : String := "\x7b" ++ ", ".intercalate parts ++ "\x7d"

/-- How a set is written: `{1, 2}`, `{e1, e2}`, `{}`. -/
def text (s : IdentSet kind) : String := braced (s.toList.map Ident.text)

/-- How a set is written where the kind of its members is spelled out. -/
def debugText (s : IdentSet kind) : String := braced (s.toList.map Ident.debugText)

end IdentSet

end OmegaControl
