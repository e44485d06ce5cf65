import Mathlib.Data.List.Nodup
import Mathlib.Data.List.Perm.Subperm
import Mathlib.Order.FixedPoints
import Mathlib.Order.CompletePartialOrder
import Mathlib.Tactic.Choose
import OmegaControl.Fixpoint
import OmegaControl.Proofs.Observation

/-!
# Iteration reaches fixpoints

The loops `ascend` and `descend` accumulate what their step returns. Each has a rule
of induction: what holds at the start and is kept by every iteration holds at the
end, where moreover the last step has added nothing (`ascend_induction`) or taken
nothing away (`descend_induction`), or the bound is reached.

If the step computes a monotone function, it follows that growing from nothing ends
at the least fixpoint and shrinking from all states at the greatest one
(`ascend_eq_lfp`, `descend_eq_gfp`), even though the loops compare sizes only. What
the step does to its records is carried along by an invariant, so that fixpoint and
records are settled in one induction.

The rules of induction are also used where no fixpoint is computed: the step of the
rule for observation classes is not monotone, and `ascend_keeps` is all there is.
-/

namespace OmegaControl

/-! ## Sets of identifiers as sets

Fixpoints are taken in the complete lattice of all sets of states. A set of
identifiers is sent there by `carrier`, which turns its operations into those of
sets; and as it is finite, it is determined by its size among the sets that it is a
part of (`subset_of_size_le`). -/

namespace IdentSet

variable {kind : Kind} {s t : IdentSet kind}

/-- The members of a set of identifiers. -/
def carrier (s : IdentSet kind) : Set (Ident kind) := {x | x ∈ s}

@[simp] theorem mem_carrier {x : Ident kind} : x ∈ s.carrier ↔ x ∈ s := Iff.rfl

@[simp] theorem carrier_empty : (∅ : IdentSet kind).carrier = ∅ :=
  Set.eq_empty_of_forall_notMem fun _ => not_mem_empty

@[simp] theorem carrier_union : (s ∪ t).carrier = s.carrier ∪ t.carrier :=
  Set.ext fun _ => mem_union

@[simp] theorem carrier_inter : (s ∩ t).carrier = s.carrier ∩ t.carrier :=
  Set.ext fun _ => mem_inter

@[simp] theorem carrier_sdiff : (s \ t).carrier = s.carrier \ t.carrier :=
  Set.ext fun _ => mem_sdiff

/-- Sets of identifiers are the same if they have the same members. -/
theorem carrier_injective (h : s.carrier = t.carrier) : s = t :=
  ext fun x => Set.ext_iff.mp h x

/-- A part of a set that is as large as the set is all of it. This is why the loops
may compare sizes in order to find out whether they have settled. -/
theorem subset_of_size_le (h : ∀ x, x ∈ s → x ∈ t) (hsize : t.size ≤ s.size) {x : Ident kind}
    (hx : x ∈ t) : x ∈ s := by
  have hsub : s.toList ⊆ t.toList := fun y hy => mem_toList.mpr (h y (mem_toList.mp hy))
  have hperm := (List.subperm_of_subset s.toList_nodup hsub).perm_of_length_le (by simpa using hsize)
  exact mem_toList.mp (hperm.mem_iff.mpr (mem_toList.mpr hx))

/-- Two members of a set with one member at most are the same. -/
theorem eq_of_size_le_one (h : s.size ≤ 1) {x y : Ident kind} (hx : x ∈ s) (hy : y ∈ s) : x = y := by
  rw [← length_toList] at h
  rw [← mem_toList] at hx hy
  generalize s.toList = xs at h hx hy
  rcases xs with _ | ⟨z, _ | _⟩
  · exact absurd hx List.not_mem_nil
  · exact (List.mem_singleton.mp hx).trans (List.mem_singleton.mp hy).symm
  · simp at h

/-- A set has one member at most if all its members are the same. -/
theorem size_le_one_of_forall_eq (h : ∀ x ∈ s, ∀ y ∈ s, x = y) : s.size ≤ 1 := by
  have hnodup := s.toList_nodup
  rw [← length_toList]
  simp only [← mem_toList] at h
  generalize s.toList = xs at h hnodup
  rcases xs with _ | ⟨x, _ | ⟨y, xs⟩⟩
  · exact Nat.zero_le 1
  · exact Nat.le_refl 1
  · have heq := h x List.mem_cons_self y (List.mem_cons_of_mem x List.mem_cons_self)
    exact absurd (heq ▸ List.mem_cons_self) (List.nodup_cons.mp hnodup).1

/-- If each member of a list goes with a member of the set that goes with no other,
there are no more members in the list than in the set. Bounds on the number of pairs
and of beliefs come from here. -/
theorem length_le_size {α : Type} {xs : List α} {R : α → Ident kind → Prop} (hxs : xs.Nodup)
    (hR : ∀ a ∈ xs, ∃ x ∈ s, R a x) (hinjective : ∀ a ∈ xs, ∀ b ∈ xs, ∀ x, R a x → R b x → a = b) :
    xs.length ≤ s.size := by
  have : Nonempty (Ident kind) := ⟨.first⟩
  choose! f hmem hf using hR
  -- the members chosen for different members of the list are different
  have hnodup : (xs.map f).Nodup := hxs.map_on fun a ha b hb heq =>
    hinjective a ha b hb (f a) (hf a ha) (heq ▸ hf b hb)
  have hsub : xs.map f ⊆ s.toList := by
    intro x hx
    obtain ⟨a, ha, rfl⟩ := List.mem_map.mp hx
    exact mem_toList.mpr (hmem a ha)
  have hle := hnodup.length_le_of_subset hsub
  rwa [List.length_map, length_toList] at hle

/-- A set has no more members than there are values by which they can be told apart. -/
theorem size_le_length {α : Type} {xs : List α} {f : Ident kind → α} (hmem : ∀ x ∈ s, f x ∈ xs)
    (hinjective : ∀ x ∈ s, ∀ y ∈ s, f x = f y → x = y) : s.size ≤ xs.length := by
  have hnodup : (s.toList.map f).Nodup := s.toList_nodup.map_on fun x hx y hy =>
    hinjective x (mem_toList.mp hx) y (mem_toList.mp hy)
  have hsub : s.toList.map f ⊆ xs := by
    intro a ha
    obtain ⟨x, hx, rfl⟩ := List.mem_map.mp ha
    exact hmem x (mem_toList.mp hx)
  have hle := hnodup.length_le_of_subset hsub
  rwa [List.length_map, length_toList] at hle

end IdentSet

/-! ## Rules of induction

The invariant speaks of the set and of the records together, since what a step
records depends on the set it is called with. -/

section

variable {σ : Type} {step : StateSet → Recorded σ StateSet}

/-- What the steps keep true while a set grows holds at the end; there the last step
has added nothing, or the bound is reached. What is wanted at the end (`Q`) may be
more than what holds on the way (`I`), and is shown in those two cases only. -/
theorem ascend_induction {I Q : StateSet → σ → Prop} {full : ℕ}
    (hstep : ∀ s r t r', I s r → (step s).outcome r = (t, r') → I (s ∪ t) r' ∧
      (t.carrier ⊆ s.carrier ∨ (s ∪ t).size = full → Q (s ∪ t) r'))
    {s : StateSet} {r : σ} (h : I s r) :
    Q ((ascend full step s).outcome r).1 ((ascend full step s).outcome r).2 := by
  fun_induction ascend full step s generalizing r with
  | case1 s ih =>
    rw [Recorded.outcome_bind]
    rcases hout : (step s).outcome r with ⟨t, r'⟩
    obtain ⟨hI, hQ⟩ := hstep s r t r' h hout
    dsimp only
    split
    next hgrow => exact ih t hgrow hI
    next hstop =>
      refine hQ ?_
      -- the sizes do not differ, or the bound is reached; if they do not, nothing
      -- was added
      rcases Nat.lt_or_ge s.size (s ∪ t).size with hlt | hge
      · exact .inr (Classical.not_not.mp fun hne => hstop ⟨hlt, hne⟩)
      · exact .inl fun x hx => IdentSet.subset_of_size_le (fun _ hy => IdentSet.mem_union.mpr (.inl hy))
          hge (IdentSet.mem_union.mpr (.inr hx))

variable (step) in
/-- What the steps keep true while a set grows holds at the end. -/
theorem ascend_keeps {I : StateSet → σ → Prop} {full : ℕ}
    (hstep : ∀ s r t r', I s r → (step s).outcome r = (t, r') → I (s ∪ t) r')
    {s : StateSet} {r : σ} (h : I s r) :
    I ((ascend full step s).outcome r).1 ((ascend full step s).outcome r).2 :=
  ascend_induction (fun s r t r' hI hout => ⟨hstep s r t r' hI hout,
    fun _ => hstep s r t r' hI hout⟩) h

variable (step) in
/-- What the steps keep true while a set shrinks holds at the end; there the last
step has taken nothing away, or nothing is left. -/
theorem descend_induction {I Q : StateSet → σ → Prop}
    (hstep : ∀ s r t r', I s r → (step s).outcome r = (t, r') → I (s ∩ t) r' ∧
      (s.carrier ⊆ t.carrier ∨ (s ∩ t).carrier = ∅ → Q (s ∩ t) r'))
    {s : StateSet} {r : σ} (h : I s r) :
    Q ((descend step s).outcome r).1 ((descend step s).outcome r).2 := by
  fun_induction descend step s generalizing r with
  | case1 s ih =>
    rw [Recorded.outcome_bind]
    rcases hout : (step s).outcome r with ⟨t, r'⟩
    obtain ⟨hI, hQ⟩ := hstep s r t r' h hout
    dsimp only
    split
    next hshrink => exact ih t hshrink hI
    next hstop =>
      refine hQ ?_
      rcases Nat.lt_or_ge (s ∩ t).size s.size with hlt | hge
      · refine .inr (Set.eq_empty_of_forall_notMem fun x => ?_)
        exact IdentSet.isEmpty_iff.mp (Bool.of_not_eq_false fun he => hstop ⟨hlt, he⟩) x
      · exact .inl fun x hx => (IdentSet.mem_inter.mp (IdentSet.subset_of_size_le
          (fun _ hy => (IdentSet.mem_inter.mp hy).1) hge hx)).2

/-! ## Fixpoints of monotone functions

The function is only asked to be computed on sets that the loop can meet: below the
least fixpoint while the set grows, and closed under the function while it shrinks. -/

variable {F : Set StateId →o Set StateId} {full : StateSet}

/-- **Growing from nothing ends at the least fixpoint** of the function that the
step computes, and keeps what every step keeps. The iterates stay below the least
fixpoint; when nothing is added, the last one is closed under the function, and so
it is above it as well. -/
theorem ascend_eq_lfp {I : StateSet → σ → Prop} (hF : ∀ s, F s ⊆ full.carrier)
    (hstep : ∀ s r t r', s.carrier ⊆ F.lfp → I s r → (step s).outcome r = (t, r') →
      t.carrier = F s.carrier ∧ I (s ∪ t) r')
    {r : σ} (h : I ∅ r) :
    ((ascend full.size step ∅).outcome r).1.carrier = F.lfp ∧
      I ((ascend full.size step ∅).outcome r).1 ((ascend full.size step ∅).outcome r).2 := by
  have hlfp : F.lfp ⊆ full.carrier := F.map_lfp ▸ hF F.lfp
  refine ascend_induction (I := fun s r => s.carrier ⊆ F.lfp ∧ I s r)
    (Q := fun s r => s.carrier = F.lfp ∧ I s r) ?_ ⟨by simp, h⟩
  rintro s r t r' ⟨hs, hI⟩ hout
  obtain ⟨ht, hI⟩ := hstep s r t r' hs hI hout
  have hle : (s ∪ t).carrier ⊆ F.lfp := by
    rw [IdentSet.carrier_union, ht]
    exact Set.union_subset hs (F.map_le_lfp hs)
  refine ⟨⟨hle, hI⟩, fun hstop => ⟨hle.antisymm ?_, hI⟩⟩
  rcases hstop with hts | hfull
  · -- nothing was added, so the set is closed under the function
    rw [IdentSet.carrier_union, Set.union_eq_left.mpr hts]
    exact F.lfp_le (ht ▸ hts)
  · exact fun x hx => IdentSet.subset_of_size_le (fun y hy => hlfp (hle hy)) hfull.ge (hlfp hx)

variable (full F step) in
/-- **Shrinking from all states ends at the greatest fixpoint** of the function that
the step computes. In the last step it is computed from itself, unless it is empty.
So what the last step records (`K`) is recorded for the fixpoint itself, and this is
what the records of a round and of a level are judged by. -/
theorem descend_eq_gfp {I : σ → Prop} {K : StateSet → StateSet → σ → Prop}
    (hF : ∀ s, F s ⊆ full.carrier)
    (hstep : ∀ s r t r', F s.carrier ⊆ s.carrier → I r → (step s).outcome r = (t, r') →
      t.carrier = F s.carrier ∧ I r' ∧ K s t r')
    {r : σ} (h : I r) :
    ((descend step full).outcome r).1.carrier = F.gfp ∧ I ((descend step full).outcome r).2 ∧
      ∃ s, K s ((descend step full).outcome r).1 ((descend step full).outcome r).2 ∧
        (s = ((descend step full).outcome r).1 ∨
          ((descend step full).outcome r).1.carrier = ∅) := by
  refine descend_induction step
    (I := fun s r => F.gfp ⊆ s.carrier ∧ F s.carrier ⊆ s.carrier ∧ I r)
    (Q := fun s r => s.carrier = F.gfp ∧ I r ∧ ∃ s', K s' s r ∧ (s' = s ∨ s.carrier = ∅))
    ?_ ⟨F.map_gfp ▸ hF F.gfp, hF _, h⟩
  rintro s r t r' ⟨hgfp, hs, hI⟩ hout
  obtain ⟨ht, hI, hK⟩ := hstep s r t r' hs hI hout
  have hts : t.carrier ⊆ s.carrier := ht ▸ hs
  have hinter : s ∩ t = t := IdentSet.carrier_injective (by
    rw [IdentSet.carrier_inter, Set.inter_eq_right.mpr hts])
  rw [hinter]
  have hgfp' : F.gfp ⊆ t.carrier := by
    rw [ht, ← F.map_gfp]
    exact F.monotone hgfp
  refine ⟨⟨hgfp', ?_, hI⟩, fun hstop => ?_⟩
  · calc F t.carrier ⊆ F s.carrier := F.monotone hts
      _ = t.carrier := ht.symm
  · rcases hstop with hst | hempty
    · -- nothing was taken away, so the set is what the function makes of it
      obtain rfl : s = t := IdentSet.carrier_injective (hst.antisymm hts)
      exact ⟨(F.le_gfp ht.le).antisymm hgfp', hI, s, hK, .inl rfl⟩
    · have hnone : F.gfp = ∅ := Set.subset_empty_iff.mp (hempty ▸ hgfp')
      exact ⟨hempty.trans hnone.symm, hI, s, hK, .inr hempty⟩

end

end OmegaControl
