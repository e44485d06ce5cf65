import OmegaControl.Ident

/-!
# Blocks of identifiers

A sparse set of numbers below `2 ^ 32` is kept as a list of blocks. A block
holds sixty-four consecutive numbers, one bit each; only blocks with some bit
set are stored, in ascending order of their index. So the memory of a set grows
with the number of occupied blocks, however large the numbers are.

`merge` combines two such lists block by block with an operation on bits, a
missing block counting as zero. The view of a list is `bitsAt`, and `bitsAt_merge`
says that merging works bit by bit. `modify` changes a single block where it
stands; it does what merging with a list of that one block does
(`modify_eq_merge`), so what is known of merging holds of it.
-/

namespace OmegaControl

/-- Sixty-four consecutive numbers, from `64 * index` on; number `64 * index + i`
is present iff bit `i` is set. -/
structure Block where
  /-- which sixty-four numbers -/
  index : Nat
  /-- which of them are present -/
  bits : UInt64
  deriving DecidableEq

namespace Block

/-- Is bit `i` set? -/
def testBit (bits : UInt64) (i : Nat) : Bool := bits.toBitVec.getLsbD i

/-- The word with bit `i` set alone. -/
def oneBit (i : Nat) : UInt64 := ⟨BitVec.twoPow 64 i⟩

/-- The position of the lowest set bit. -/
def lowest (bits : UInt64) : Nat := bits.toBitVec.ctz.toNat

/-- Clearing the lowest bit makes a word smaller, so going through the bits ends. -/
theorem and_sub_one_lt {bits : UInt64} (h : bits ≠ 0) :
    (bits &&& (bits - 1)).toNat < bits.toNat := by
  have hpos : 0 < bits.toNat := Nat.pos_of_ne_zero fun hz => h (UInt64.toNat_inj.1 hz)
  have hone : (1 : UInt64) ≤ bits := UInt64.le_iff_toNat_le.2 hpos
  calc (bits &&& (bits - 1)).toNat = bits.toNat &&& (bits - 1).toNat := UInt64.toNat_and ..
    _ ≤ (bits - 1).toNat := Nat.and_le_right
    _ = bits.toNat - 1 := UInt64.toNat_sub_of_le _ _ hone
    _ < bits.toNat := Nat.sub_lt hpos Nat.one_pos

/-- The positions of the set bits, ascending: that of the lowest one, and those that are left
when it is cleared. -/
def positions (bits : UInt64) : List Nat :=
  if h : bits = 0 then [] else lowest bits :: positions (bits &&& (bits - 1))
termination_by bits.toNat
decreasing_by exact and_sub_one_lt h

/-- The numbers present in a block, ascending. -/
def members (b : Block) : List Nat := (positions b.bits).map (64 * b.index + ·)

/-- The number of set bits in a list of blocks. -/
def population (blocks : List Block) : Nat :=
  blocks.foldr (fun b n => (positions b.bits).length + n) 0

/-- The bits of the block with the given index, zero if it is not stored. -/
def bitsAt : List Block → Nat → UInt64
  | [], _ => 0
  | b :: bs, i => if b.index = i then b.bits else bitsAt bs i

/-- Is the number `n` present? -/
def bitAt (blocks : List Block) (n : Nat) : Bool := testBit (bitsAt blocks (n / 64)) (n % 64)

/-- The block with the given bits, or nothing if no bit is set. -/
def store (index : Nat) (bits : UInt64) : List Block := if bits = 0 then [] else [⟨index, bits⟩]

/-- Combines two lists of blocks with `op`, block by block; a block stored on
one side only is combined with zero. -/
def merge (op : UInt64 → UInt64 → UInt64) : List Block → List Block → List Block
  | [], [] => []
  | [], b :: bs => store b.index (op 0 b.bits) ++ merge op [] bs
  | a :: as, [] => store a.index (op a.bits 0) ++ merge op as []
  | a :: as, b :: bs =>
    if a.index = b.index then store a.index (op a.bits b.bits) ++ merge op as bs
    else if a.index < b.index then store a.index (op a.bits 0) ++ merge op as (b :: bs)
    else store b.index (op 0 b.bits) ++ merge op (a :: as) bs
termination_by as bs => as.length + bs.length

/-- Changes the bits of the block with the given index where it stands; a block that is not
stored counts as zero, and one that becomes zero is taken out. -/
def modify (f : UInt64 → UInt64) (i : Nat) : List Block → List Block
  | [] => store i (f 0)
  | b :: bs =>
    if b.index = i then store i (f b.bits) ++ bs
    else if b.index < i then b :: modify f i bs
    else store i (f 0) ++ b :: bs

/-- The blocks are stored in strictly ascending order of their index. -/
def Sorted (blocks : List Block) : Prop := blocks.Pairwise (·.index < ·.index)

/-! ## Single words -/

@[simp] theorem testBit_zero (i : Nat) : testBit 0 i = false := by
  simp [testBit]

theorem testBit_of_le {bits : UInt64} {i : Nat} (h : 64 ≤ i) : testBit bits i = false :=
  BitVec.getLsbD_of_ge _ _ h

@[simp] theorem testBit_or (a b : UInt64) (i : Nat) :
    testBit (a ||| b) i = (testBit a i || testBit b i) := by
  simp [testBit]

@[simp] theorem testBit_and (a b : UInt64) (i : Nat) :
    testBit (a &&& b) i = (testBit a i && testBit b i) := by
  simp [testBit]

theorem testBit_and_not (a b : UInt64) (i : Nat) :
    testBit (a &&& ~~~b) i = (testBit a i && !testBit b i) := by
  by_cases h : i < 64
  · simp [testBit, h]
  · simp [testBit_of_le (Nat.le_of_not_lt h)]

theorem testBit_oneBit {i : Nat} (h : i < 64) (j : Nat) :
    testBit (oneBit i) j = decide (i = j) := by
  simp [testBit, oneBit, BitVec.getLsbD_twoPow, h]

/-- Words are the same if their bits are. -/
theorem eq_of_testBit {a b : UInt64} (h : ∀ i < 64, testBit a i = testBit b i) : a = b :=
  UInt64.toBitVec_inj.1 (BitVec.eq_of_getLsbD_eq h)

theorem exists_testBit {bits : UInt64} (h : bits ≠ 0) : ∃ i < 64, testBit bits i = true := by
  refine Classical.byContradiction fun hn => h (eq_of_testBit fun i hi => ?_)
  rw [testBit_zero]
  cases hb : testBit bits i
  · rfl
  · exact absurd ⟨i, hi, hb⟩ hn

theorem oneBit_ne_zero {i : Nat} (h : i < 64) : oneBit i ≠ 0 := by
  intro hz
  have := testBit_oneBit h i
  simp [hz] at this

/-- The position that is called lowest has its bit set. -/
theorem testBit_lowest {bits : UInt64} (h : bits ≠ 0) : testBit bits (lowest bits) = true :=
  BitVec.getLsbD_true_ctz_of_ne_zero fun hz => h (UInt64.toBitVec_inj.1 hz)

/-- And no bit below it is set. -/
theorem testBit_of_lt_lowest {bits : UInt64} {i : Nat} (h : i < lowest bits) :
    testBit bits i = false :=
  BitVec.getLsbD_false_of_lt_ctz h

/-- What a number whose lowest bit is bit `k` has in common with the number before it: all its
bits but that one. -/
private theorem testBit_and_pred {n k : Nat} (hk : n.testBit k = true)
    (hlow : ∀ i < k, n.testBit i = false) (i : Nat) :
    (n &&& (n - 1)).testBit i = (n.testBit i && decide (i ≠ k)) := by
  have hmod : n % 2 ^ (k + 1) = 2 ^ k := by
    refine Nat.eq_of_testBit_eq fun j => ?_
    rw [Nat.testBit_mod_two_pow, Nat.testBit_two_pow]
    rcases Nat.lt_trichotomy j k with h | rfl | h
    · simp [hlow j h, Nat.ne_of_gt h]
    · simp [hk]
    · simp [show ¬j < k + 1 by omega, Nat.ne_of_lt h]
  have hpos : 0 < 2 ^ k := Nat.two_pow_pos k
  -- the number before it has the same bits above bit `k`, and those below it instead
  have hpred : n - 1 = 2 ^ (k + 1) * (n / 2 ^ (k + 1)) + (2 ^ k - 1) := by
    have := Nat.div_add_mod n (2 ^ (k + 1))
    omega
  have hlt : 2 ^ k - 1 < 2 ^ (k + 1) := by
    rw [Nat.pow_succ]
    omega
  rw [Nat.testBit_and, hpred, Nat.testBit_two_pow_mul_add _ hlt, Nat.testBit_two_pow_sub_one]
  rcases Nat.lt_trichotomy i k with h | rfl | h
  · simp [hlow i h]
  · simp
  · rw [if_neg (show ¬i < k + 1 by omega), Nat.testBit_div_two_pow,
      show i - (k + 1) + (k + 1) = i by omega]
    simp [show i ≠ k by omega]

/-- Clearing the lowest set bit clears no other one. -/
theorem testBit_and_sub_one {bits : UInt64} (h : bits ≠ 0) (i : Nat) :
    testBit (bits &&& (bits - 1)) i = (testBit bits i && decide (i ≠ lowest bits)) := by
  have hone : (1 : UInt64) ≤ bits := UInt64.le_iff_toNat_le.2
    (Nat.pos_of_ne_zero fun hz => h (UInt64.toNat_inj.1 hz))
  calc testBit (bits &&& (bits - 1)) i
      = (bits.toNat &&& (bits.toNat - 1)).testBit i := by
        rw [testBit, ← BitVec.testBit_toNat, UInt64.toNat_toBitVec, UInt64.toNat_and,
          UInt64.toNat_sub_of_le _ _ hone]
        rfl
    _ = (testBit bits i && decide (i ≠ lowest bits)) :=
        testBit_and_pred (testBit_lowest h) (fun _ => testBit_of_lt_lowest) i

@[simp] theorem mem_positions {bits : UInt64} {i : Nat} :
    i ∈ positions bits ↔ testBit bits i = true := by
  fun_induction positions bits with
  | case1 => simp
  | case2 bits h ih =>
    rw [List.mem_cons, ih, testBit_and_sub_one h, Bool.and_eq_true, decide_eq_true_iff]
    by_cases hi : i = lowest bits
    · simp [hi, testBit_lowest h]
    · simp [hi]

theorem positions_sorted (bits : UInt64) : (positions bits).Pairwise (· < ·) := by
  fun_induction positions bits with
  | case1 => exact List.Pairwise.nil
  | case2 bits h ih =>
    refine List.pairwise_cons.2 ⟨fun j hj => ?_, ih⟩
    rw [mem_positions, testBit_and_sub_one h, Bool.and_eq_true, decide_eq_true_iff] at hj
    obtain ⟨hj, hne⟩ := hj
    refine Nat.lt_of_le_of_ne (Nat.le_of_not_lt fun hlt => ?_) hne.symm
    rw [testBit_of_lt_lowest hlt] at hj
    cases hj

/-! ## Lists of blocks -/

@[simp] theorem bitsAt_nil (i : Nat) : bitsAt [] i = 0 := rfl

theorem bitsAt_cons (b : Block) (bs : List Block) (i : Nat) :
    bitsAt (b :: bs) i = if b.index = i then b.bits else bitsAt bs i := rfl

/-- A block whose index no stored block has reads as zero. -/
theorem bitsAt_eq_zero {blocks : List Block} {i : Nat} (h : ∀ b ∈ blocks, b.index ≠ i) :
    bitsAt blocks i = 0 := by
  induction blocks with
  | nil => rfl
  | cons b bs ih =>
    rw [bitsAt_cons, if_neg (h b List.mem_cons_self)]
    exact ih fun c hc => h c (List.mem_cons_of_mem _ hc)

theorem bitsAt_of_mem {blocks : List Block} (hs : Sorted blocks) {b : Block} (h : b ∈ blocks) :
    bitsAt blocks b.index = b.bits := by
  induction blocks with
  | nil => cases h
  | cons a as ih =>
    obtain ⟨ha, has⟩ := List.pairwise_cons.1 hs
    rcases List.mem_cons.1 h with rfl | hb
    · rw [bitsAt_cons, if_pos rfl]
    · rw [bitsAt_cons, if_neg (Nat.ne_of_lt (ha b hb)), ih has hb]

/-- A block that is put in front is the one that is found for its index. -/
theorem bitsAt_append_store {i : Nat} {bits : UInt64} {rest : List Block} {j : Nat}
    (h : ∀ b ∈ rest, i < b.index) :
    bitsAt (store i bits ++ rest) j = if i = j then bits else bitsAt rest j := by
  unfold store
  split
  next hz =>
    split
    next hij =>
      subst hij
      rw [List.nil_append, bitsAt_eq_zero fun b hb => Nat.ne_of_gt (h b hb), hz]
    next => rfl
  next => rfl

theorem mem_store {i : Nat} {bits : UInt64} {b : Block} :
    b ∈ store i bits ↔ bits ≠ 0 ∧ b = ⟨i, bits⟩ := by
  unfold store
  split <;> simp_all

/-- The indices of a merged list are indices of its sides. -/
theorem index_of_mem_merge {op : UInt64 → UInt64 → UInt64} {as bs : List Block} {c : Block}
    (h : c ∈ merge op as bs) : (∃ a ∈ as, a.index = c.index) ∨ ∃ b ∈ bs, b.index = c.index := by
  fun_induction merge op as bs with
  | case1 => cases h
  | case2 b bs ih =>
    rcases List.mem_append.1 h with h | h
    · exact .inr ⟨b, List.mem_cons_self, by rw [(mem_store.1 h).2]⟩
    · rcases ih h with ⟨a, ha, _⟩ | ⟨d, hd, e⟩
      · cases ha
      · exact .inr ⟨d, List.mem_cons_of_mem _ hd, e⟩
  | case3 a as ih =>
    rcases List.mem_append.1 h with h | h
    · exact .inl ⟨a, List.mem_cons_self, by rw [(mem_store.1 h).2]⟩
    · rcases ih h with ⟨d, hd, e⟩ | ⟨b, hb, _⟩
      · exact .inl ⟨d, List.mem_cons_of_mem _ hd, e⟩
      · cases hb
  | case4 a as b bs _ ih =>
    rcases List.mem_append.1 h with h | h
    · exact .inl ⟨a, List.mem_cons_self, by rw [(mem_store.1 h).2]⟩
    · rcases ih h with ⟨d, hd, e⟩ | ⟨d, hd, e⟩
      · exact .inl ⟨d, List.mem_cons_of_mem _ hd, e⟩
      · exact .inr ⟨d, List.mem_cons_of_mem _ hd, e⟩
  | case5 a as b bs _ _ ih =>
    rcases List.mem_append.1 h with h | h
    · exact .inl ⟨a, List.mem_cons_self, by rw [(mem_store.1 h).2]⟩
    · rcases ih h with ⟨d, hd, e⟩ | ⟨d, hd, e⟩
      · exact .inl ⟨d, List.mem_cons_of_mem _ hd, e⟩
      · exact .inr ⟨d, hd, e⟩
  | case6 a as b bs _ _ ih =>
    rcases List.mem_append.1 h with h | h
    · exact .inr ⟨b, List.mem_cons_self, by rw [(mem_store.1 h).2]⟩
    · rcases ih h with ⟨d, hd, e⟩ | ⟨d, hd, e⟩
      · exact .inl ⟨d, hd, e⟩
      · exact .inr ⟨d, List.mem_cons_of_mem _ hd, e⟩

/-- Merging brings no index up that is not in one of the two lists, so what is below
both is below all. -/
theorem lt_of_mem_merge (op : UInt64 → UInt64 → UInt64) {as bs : List Block} {i : Nat}
    (ha : ∀ a ∈ as, i < a.index) (hb : ∀ b ∈ bs, i < b.index) :
    ∀ c ∈ merge op as bs, i < c.index := by
  intro c hc
  rcases index_of_mem_merge hc with ⟨d, hd, e⟩ | ⟨d, hd, e⟩
  · exact e ▸ ha d hd
  · exact e ▸ hb d hd

theorem sorted_store_append {i : Nat} {bits : UInt64} {rest : List Block}
    (h : ∀ b ∈ rest, i < b.index) (hs : Sorted rest) : Sorted (store i bits ++ rest) := by
  unfold store
  split
  · exact hs
  · exact List.pairwise_cons.2 ⟨h, hs⟩

/-- Bounds for the blocks that follow the head of a sorted list. -/
theorem Sorted.lt_head {b : Block} {bs : List Block} {i : Nat} (h : Sorted (b :: bs))
    (hi : i < b.index) : ∀ c ∈ b :: bs, i < c.index := by
  intro c hc
  rcases List.mem_cons.1 hc with rfl | hc
  · exact hi
  · exact Nat.lt_trans hi ((List.pairwise_cons.1 h).1 c hc)

private theorem sorted_and_bitsAt_merge (op : UInt64 → UInt64 → UInt64) (h0 : op 0 0 = 0)
    (as bs : List Block) (ha : Sorted as) (hb : Sorted bs) :
    Sorted (merge op as bs) ∧
      ∀ i, bitsAt (merge op as bs) i = op (bitsAt as i) (bitsAt bs i) := by
  fun_induction merge op as bs with
  | case1 => exact ⟨ha, fun i => by simp [h0]⟩
  | case2 b bs ih =>
    obtain ⟨hb1, hb2⟩ := List.pairwise_cons.1 hb
    obtain ⟨ih1, ih2⟩ := ih ha hb2
    have hlt := lt_of_mem_merge op (List.forall_mem_nil _) hb1
    refine ⟨sorted_store_append hlt ih1, fun i => ?_⟩
    rw [bitsAt_append_store hlt, ih2, bitsAt_cons]
    split <;> simp
  | case3 a as ih =>
    obtain ⟨ha1, ha2⟩ := List.pairwise_cons.1 ha
    obtain ⟨ih1, ih2⟩ := ih ha2 hb
    have hlt := lt_of_mem_merge op ha1 (List.forall_mem_nil _)
    refine ⟨sorted_store_append hlt ih1, fun i => ?_⟩
    rw [bitsAt_append_store hlt, ih2, bitsAt_cons]
    split <;> simp
  | case4 a as b bs hab ih =>
    obtain ⟨ha1, ha2⟩ := List.pairwise_cons.1 ha
    obtain ⟨hb1, hb2⟩ := List.pairwise_cons.1 hb
    obtain ⟨ih1, ih2⟩ := ih ha2 hb2
    have hlt := lt_of_mem_merge op ha1 (hab ▸ hb1)
    refine ⟨sorted_store_append hlt ih1, fun i => ?_⟩
    rw [bitsAt_append_store hlt, ih2, bitsAt_cons, bitsAt_cons, hab]
    split <;> rfl
  | case5 a as b bs _ hab ih =>
    obtain ⟨ha1, ha2⟩ := List.pairwise_cons.1 ha
    obtain ⟨ih1, ih2⟩ := ih ha2 hb
    have hbs := hb.lt_head hab
    have hlt := lt_of_mem_merge op ha1 hbs
    refine ⟨sorted_store_append hlt ih1, fun i => ?_⟩
    rw [bitsAt_append_store hlt, ih2, bitsAt_cons a]
    split
    next hi =>
      have hz : bitsAt (b :: bs) i = 0 := bitsAt_eq_zero fun c hc => hi ▸ Nat.ne_of_gt (hbs c hc)
      rw [hz]
    next => rfl
  | case6 a as b bs hne hnlt ih =>
    have hab : b.index < a.index := by omega
    obtain ⟨hb1, hb2⟩ := List.pairwise_cons.1 hb
    obtain ⟨ih1, ih2⟩ := ih ha hb2
    have has := ha.lt_head hab
    have hlt := lt_of_mem_merge op has hb1
    refine ⟨sorted_store_append hlt ih1, fun i => ?_⟩
    rw [bitsAt_append_store hlt, ih2, bitsAt_cons b]
    split
    next hi =>
      have hz : bitsAt (a :: as) i = 0 := bitsAt_eq_zero fun c hc => hi ▸ Nat.ne_of_gt (has c hc)
      rw [hz]
    next => rfl

/-- Merging sorted lists gives a sorted list. -/
theorem sorted_merge {op : UInt64 → UInt64 → UInt64} (h0 : op 0 0 = 0) {as bs : List Block}
    (ha : Sorted as) (hb : Sorted bs) : Sorted (merge op as bs) :=
  (sorted_and_bitsAt_merge op h0 as bs ha hb).1

/-- Merging works block by block. -/
theorem bitsAt_merge {op : UInt64 → UInt64 → UInt64} (h0 : op 0 0 = 0) {as bs : List Block}
    (ha : Sorted as) (hb : Sorted bs) (i : Nat) :
    bitsAt (merge op as bs) i = op (bitsAt as i) (bitsAt bs i) :=
  (sorted_and_bitsAt_merge op h0 as bs ha hb).2 i

/-- A merged list stores no zero block. -/
theorem bits_ne_zero_of_mem_merge {op : UInt64 → UInt64 → UInt64} {as bs : List Block} {c : Block}
    (h : c ∈ merge op as bs) : c.bits ≠ 0 := by
  have hstore : ∀ {i bits}, c ∈ store i bits → c.bits ≠ 0 := by
    intro i bits hc
    obtain ⟨hne, rfl⟩ := mem_store.1 hc
    exact hne
  fun_induction merge op as bs with
  | case1 => cases h
  | _ =>
    rename_i ih
    rcases List.mem_append.1 h with h | h
    · exact hstore h
    · exact ih h

/-! ## A single block -/

private theorem store_self {b : Block} (h : b.bits ≠ 0) : store b.index b.bits = [b] := by
  rw [store, if_neg h]

private theorem merge_nil {op : UInt64 → UInt64 → UInt64} (hop : ∀ b, op b 0 = b)
    {blocks : List Block} (hne : ∀ b ∈ blocks, b.bits ≠ 0) : merge op blocks [] = blocks := by
  induction blocks with
  | nil => rw [merge]
  | cons b bs ih =>
    rw [merge, hop, store_self (hne b List.mem_cons_self),
      ih fun c hc => hne c (List.mem_cons_of_mem _ hc)]
    rfl

/-- Changing a block where it stands is merging with a list of one block. -/
theorem modify_eq_merge (op : UInt64 → UInt64 → UInt64) (hop : ∀ b, op b 0 = b)
    {blocks : List Block} (hne : ∀ b ∈ blocks, b.bits ≠ 0) (i : Nat) (bits : UInt64) :
    modify (op · bits) i blocks = merge op blocks [⟨i, bits⟩] := by
  induction blocks with
  | nil => rw [modify, merge, merge, List.append_nil]
  | cons b bs ih =>
    have hbs : ∀ c ∈ bs, c.bits ≠ 0 := fun c hc => hne c (List.mem_cons_of_mem _ hc)
    rw [modify, merge]
    split
    next hi => rw [merge_nil hop hbs, hi]
    next =>
      split
      next => rw [hop, store_self (hne b List.mem_cons_self), ih hbs]; rfl
      next => rw [merge_nil hop hne]

/-! ## Members -/

theorem mem_members {b : Block} {n : Nat} :
    n ∈ b.members ↔ n / 64 = b.index ∧ testBit b.bits (n % 64) = true := by
  simp only [members, List.mem_map, mem_positions]
  constructor
  · rintro ⟨i, hi, rfl⟩
    have : i < 64 := Nat.lt_of_not_le fun h => by simp [testBit_of_le h] at hi
    rw [show (64 * b.index + i) / 64 = b.index by omega, show (64 * b.index + i) % 64 = i by omega]
    exact ⟨rfl, hi⟩
  · rintro ⟨h, hb⟩
    exact ⟨n % 64, hb, by omega⟩

theorem members_sorted (b : Block) : b.members.Pairwise (· < ·) :=
  List.pairwise_map.2 ((positions_sorted b.bits).imp (Nat.add_lt_add_left · _))

/-- The members of all blocks are the numbers whose bits are set. -/
theorem mem_flatMap_members {blocks : List Block} (hs : Sorted blocks) {n : Nat} :
    n ∈ blocks.flatMap members ↔ bitAt blocks n = true := by
  simp only [List.mem_flatMap, mem_members, bitAt]
  constructor
  · rintro ⟨b, hb, hi, ht⟩
    rwa [hi, bitsAt_of_mem hs hb]
  · intro h
    refine Classical.byContradiction fun hn => ?_
    rw [bitsAt_eq_zero, testBit_zero] at h
    · cases h
    · intro b hb hi
      rw [← hi, bitsAt_of_mem hs hb] at h
      exact hn ⟨b, hb, hi.symm, h⟩

theorem flatMap_members_sorted {blocks : List Block} (hs : Sorted blocks) :
    (blocks.flatMap members).Pairwise (· < ·) := by
  refine List.pairwise_flatMap.2 ⟨fun b _ => members_sorted b, hs.imp fun {a b} hab => ?_⟩
  intro x hx y hy
  have hx := (mem_members.1 hx).1
  have hy := (mem_members.1 hy).1
  omega

/-- There are as many of them as bits that are set. -/
theorem length_flatMap_members (blocks : List Block) :
    (blocks.flatMap members).length = population blocks := by
  induction blocks with
  | nil => rfl
  | cons b bs ih =>
    rw [List.flatMap_cons, List.length_append, ih, members, List.length_map]
    rfl

/-- Two sorted lists without zero blocks that hold the same numbers are equal. -/
theorem eq_of_bitAt {as bs : List Block} (ha : Sorted as) (hb : Sorted bs)
    (hna : ∀ b ∈ as, b.bits ≠ 0) (hnb : ∀ b ∈ bs, b.bits ≠ 0)
    (h : ∀ n, bitAt as n = bitAt bs n) : as = bs := by
  have hbits : ∀ i, bitsAt as i = bitsAt bs i := by
    intro i
    refine eq_of_testBit fun j hj => ?_
    have := h (64 * i + j)
    rwa [bitAt, bitAt, show (64 * i + j) / 64 = i by omega,
      show (64 * i + j) % 64 = j by omega] at this
  have key : ∀ {cs ds : List Block}, Sorted cs → Sorted ds → (∀ b ∈ cs, b.bits ≠ 0) →
      (∀ i, bitsAt cs i = bitsAt ds i) → ∀ c ∈ cs, c ∈ ds := by
    intro cs ds hcs hds hnc heq c hc
    refine Classical.byContradiction fun hn => ?_
    have hci : bitsAt ds c.index = c.bits := by rw [← heq, bitsAt_of_mem hcs hc]
    have hz : bitsAt ds c.index = 0 := by
      refine bitsAt_eq_zero fun d hd hi => hn ?_
      rw [← hi, bitsAt_of_mem hds hd] at hci
      cases c
      cases d
      simp only at hi hci
      subst hi hci
      exact hd
    exact hnc c hc (hci.symm.trans hz)
  refine List.Perm.eq_of_pairwise (fun a b _ _ hab hba => ?_) ha hb ?_
  · exact absurd hab (Nat.lt_asymm hba)
  · refine (List.perm_ext_iff_of_nodup ?_ ?_).2 fun c => ⟨key ha hb hna hbits c, ?_⟩
    · exact ha.imp fun h he => by simp [he] at h
    · exact hb.imp fun h he => by simp [he] at h
    · exact key hb ha hnb (fun i => (hbits i).symm) c

end Block

end OmegaControl
