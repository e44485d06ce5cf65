import Std.Data.ExtTreeSet.Lemmas

/-!
# Segments of ordered sets

What is looked up in an ordered set often lies side by side in it: the transitions
that leave one state do, among the transitions of an automaton. `segment` reads such
members without a look at the others. It goes to the first member that is not below
a bound, and from there from each member to the next for as long as a test is passed.

If the bound and the test belong together (the test is not passed below the bound, and
once it fails above the bound it fails for good), these are all the members that
pass the test: `segment_eq_filter`.
-/

namespace OmegaControl

variable {α : Type} [Ord α]

/-- The list ascends strictly. -/
abbrev Ascending (xs : List α) : Prop := xs.Pairwise fun x y => compare x y = .lt

variable [Std.TransOrd α]

/-- Steps from member to member, from the given one on, while the test is passed. -/
def stepWhile (s : Std.ExtTreeSet α) (p : α → Bool) : (steps : Nat) → Option α → List α
  | 0, _ => []
  | _ + 1, none => []
  | steps + 1, some x => if p x then x :: stepWhile s p steps (s.getGT? x) else []

/-- The members from the first one on that is not below `low`, while the test is passed. -/
def segment (s : Std.ExtTreeSet α) (low : α) (p : α → Bool) : List α :=
  stepWhile s p s.size (s.getGE? low)

namespace Segment

/-! ## Looking up one member -/

/-- The first member that is not below `low`, as a search through the members in
order. -/
theorem getGE?_eq_find? (s : Std.ExtTreeSet α) (low : α) :
    s.getGE? low = s.toList.find? fun x => (compare x low).isGE := by
  -- a set is a tree up to the order of insertion, and lists the keys of that tree
  obtain ⟨⟨⟨q⟩⟩⟩ := s
  induction q using Quot.ind with | _ t
  change t.inner.getKeyGE? low = t.inner.keys.find? _
  rw [Std.DTreeMap.Internal.Impl.getKeyGE?_eq_getEntryGE?,
    Std.DTreeMap.Internal.Impl.getEntryGE?_eq_find? t.wf.ordered,
    Std.DTreeMap.Internal.Impl.keys_eq_keys, Std.Internal.List.keys_eq_map, List.find?_map]
  rfl

/-- The member after `x`, as a search through the members in order. -/
theorem getGT?_eq_find? (s : Std.ExtTreeSet α) (x : α) :
    s.getGT? x = s.toList.find? fun y => (compare y x).isGT := by
  obtain ⟨⟨⟨q⟩⟩⟩ := s
  induction q using Quot.ind with | _ t
  change t.inner.getKeyGT? x = t.inner.keys.find? _
  rw [Std.DTreeMap.Internal.Impl.getKeyGT?_eq_getEntryGT?,
    Std.DTreeMap.Internal.Impl.getEntryGT?_eq_find? t.wf.ordered,
    Std.DTreeMap.Internal.Impl.keys_eq_keys, Std.Internal.List.keys_eq_map, List.find?_map]
  rfl

/-! ## Finding a segment in an ascending list -/

omit [Std.TransOrd α] in
/-- Where members that pass come first, filtering an ascending list is stopping at
the first that fails. -/
theorem filter_eq_takeWhile {xs : List α} {p : α → Bool} (h : Ascending xs)
    (hgap : ∀ x ∈ xs, ∀ y, compare x y = .lt → p y = true → p x = true) :
    xs.filter p = xs.takeWhile p := by
  induction xs with
  | nil => rfl
  | cons x xs ih =>
    obtain ⟨hx, hxs⟩ := List.pairwise_cons.1 h
    have ih := ih hxs fun z hz => hgap z (List.mem_cons_of_mem x hz)
    by_cases hp : p x = true
    · rw [List.filter_cons_of_pos hp, List.takeWhile_cons_of_pos hp, ih]
    · rw [List.filter_cons_of_neg hp, List.takeWhile_cons_of_neg hp, List.filter_eq_nil_iff]
      exact fun y hy hpy => hp (hgap x List.mem_cons_self y (hx y hy) hpy)

/-- In an ascending list the first member above `x` is the one after it. -/
theorem find?_isGT {xs ys : List α} {x : α} (h : Ascending (xs ++ x :: ys)) :
    (xs ++ x :: ys).find? (fun y => (compare y x).isGT) = ys.head? := by
  obtain ⟨_, hys, hxs⟩ := List.pairwise_append.1 h
  rw [List.find?_append, List.find?_eq_none.2, Option.none_or, List.find?_cons_of_neg]
  · cases ys with
    | nil => rfl
    | cons y ys =>
      have := (List.pairwise_cons.1 hys).1 y List.mem_cons_self
      rw [List.find?_cons_of_pos, List.head?_cons]
      rw [Std.OrientedOrd.eq_swap, this]
      rfl
  · simp
  · intro y hy
    simp [hxs y hy x List.mem_cons_self]

/-- The list splits at the first member that is not below the bound. -/
theorem exists_split {xs : List α} {low : α} {p : α → Bool} (h : Ascending xs)
    (hgap : ∀ x y, (compare x low).isGE = true → compare x y = .lt → p y = true → p x = true) :
    ∃ ys zs, xs = ys ++ zs ∧ xs.find? (fun x => (compare x low).isGE) = zs.head? ∧
      xs.filter (fun x => (compare x low).isGE && p x) = zs.takeWhile p := by
  induction xs with
  | nil => exact ⟨[], [], rfl, rfl, rfl⟩
  | cons x xs ih =>
    obtain ⟨hx, hxs⟩ := List.pairwise_cons.1 h
    by_cases hge : (compare x low).isGE = true
    · have hall : ∀ y ∈ x :: xs, (compare y low).isGE = true := by
        intro y hy
        rcases List.mem_cons.1 hy with rfl | hy
        · exact hge
        · exact Std.TransCmp.isGE_trans (by simp [Std.OrientedCmp.gt_of_lt (hx y hy)]) hge
      refine ⟨[], x :: xs, rfl, List.find?_cons_of_pos hge, ?_⟩
      rw [← filter_eq_takeWhile h fun y hy z => hgap y z (hall y hy)]
      exact List.filter_congr fun y hy => by rw [hall y hy, Bool.true_and]
    · obtain ⟨ys, zs, e, hf, ht⟩ := ih hxs
      refine ⟨x :: ys, zs, by rw [e, List.cons_append], ?_, ?_⟩
      · rw [← hf]
        exact List.find?_cons_of_neg hge
      · rw [List.filter_cons_of_neg (by simp [hge]), ht]

/-! ## Reading a segment -/

/-- Going from member to member takes those at the front that pass. The number of
steps allowed is enough if it is the number of members ahead. -/
theorem stepWhile_eq_takeWhile (s : Std.ExtTreeSet α) (p : α → Bool) {n : Nat} {xs ys : List α}
    (h : s.toList = xs ++ ys) (hn : ys.length ≤ n) :
    stepWhile s p n ys.head? = ys.takeWhile p := by
  induction ys generalizing n xs with
  | nil => cases n <;> rfl
  | cons y ys ih =>
    obtain ⟨n, rfl⟩ : ∃ m, n = m + 1 := ⟨n - 1, by rw [List.length_cons] at hn; omega⟩
    have hs : Ascending (xs ++ y :: ys) := h ▸ s.ordered_toList
    rw [List.head?_cons, stepWhile, getGT?_eq_find?, h, find?_isGT hs, List.takeWhile_cons,
      @ih n (xs ++ [y]) (by simp [h]) (Nat.le_of_succ_le_succ hn)]

end Segment

/-- A segment holds the members from the bound on that pass the test, if the test is not passed
again once it has failed there. -/
theorem segment_eq_filter_isGE (s : Std.ExtTreeSet α) {low : α} {p : α → Bool}
    (hgap : ∀ x y, (compare x low).isGE = true → compare x y = .lt → p y = true → p x = true) :
    segment s low p = s.toList.filter fun x => (compare x low).isGE && p x := by
  obtain ⟨ys, zs, e, hf, ht⟩ := Segment.exists_split s.ordered_toList hgap
  have hlen := congrArg List.length e
  rw [Std.ExtTreeSet.length_toList, List.length_append] at hlen
  rw [segment, Segment.getGE?_eq_find?, hf, ht,
    Segment.stepWhile_eq_takeWhile s p e (by omega)]

/-- A segment holds all members that pass the test, if the test is not passed below
the bound, nor above the bound after it has failed there. -/
theorem segment_eq_filter (s : Std.ExtTreeSet α) {low : α} {p : α → Bool}
    (hlow : ∀ x, p x = true → (compare x low).isGE = true)
    (hgap : ∀ x y, (compare x low).isGE = true → compare x y = .lt → p y = true → p x = true) :
    segment s low p = s.toList.filter p := by
  rw [segment_eq_filter_isGE s hgap]
  exact List.filter_congr fun x _ =>
    Bool.and_eq_right_iff_imp.2 (hlow x)

end OmegaControl
