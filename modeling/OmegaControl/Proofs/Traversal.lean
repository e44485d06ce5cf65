import Mathlib.Logic.Relation
import OmegaControl.Traversal

/-!
# What a walk finds

A walk finds exactly the values that can be reached from its starts, each once
(`mem_discover`, `discover_nodup`). It finds nothing else, since whatever is found
is a successor of something found before. And it misses nothing, since what is found
is closed under successors as soon as nothing is pending any more.

This holds of both orders in which values can be taken up, and of any kind of value:
states, pairs of states, and sets of states that a word may have led to. The order
shows only where results are listed.
-/

namespace OmegaControl.Traversal

variable {α : Type} [Ord α] [Std.TransOrd α] [Std.LawfulEqOrd α] [Bounded α]
  {order : Order} {next : α → List α} {seen : Std.ExtTreeSet α} {pending starts : List α} {x y : α}

/-- There is a way from `x` to `y`. -/
abbrev Leads (next : α → List α) (x y : α) : Prop := Relation.ReflTransGen (fun a b => b ∈ next a) x y

/-- What is found can be reached from what was pending. -/
theorem leads_of_mem_explore (hy : y ∈ explore order next seen pending) :
    ∃ x ∈ pending, Leads next x y := by
  fun_induction explore order next seen pending with
  | case1 => exact absurd hy List.not_mem_nil
  | case2 seen x pending found ih =>
    rcases List.mem_append.mp hy with hy | hy
    · exact ⟨x, List.mem_cons_self, .single (mem_novel.mp hy).1⟩
    · obtain ⟨z, hz, hzy⟩ := ih hy
      rcases Order.mem_push.mp hz with hz | hz
      · exact ⟨x, List.mem_cons_self, .head (mem_novel.mp hz).1 hzy⟩
      · exact ⟨z, List.mem_cons_of_mem x hz, hzy⟩

/-- When nothing is pending any more, all successors of what was seen or found have
been seen or found, if at the start this holds of what was seen and is not pending.
This is the invariant of the walk: only the successors of what is pending may be
missing. -/
theorem mem_of_mem_next (hpending : ∀ x ∈ seen, x ∉ pending → ∀ y ∈ next x, y ∈ seen)
    (hx : x ∈ seen ∨ x ∈ explore order next seen pending) (hy : y ∈ next x) :
    y ∈ seen ∨ y ∈ explore order next seen pending := by
  fun_induction explore order next seen pending with
  | case1 seen =>
    obtain hx := hx.resolve_right List.not_mem_nil
    exact .inl (hpending x hx List.not_mem_nil y hy)
  | case2 seen z pending found ih =>
    have hmem : ∀ {a}, (a ∈ insertAll seen found ∨
        a ∈ explore order next (insertAll seen found) (order.push found pending)) ↔
        (a ∈ seen ∨
          a ∈ found ++ explore order next (insertAll seen found) (order.push found pending)) := by
      intro a
      rw [mem_insertAll, List.mem_append, or_assoc, or_left_comm]
    refine hmem.mp (ih ?_ (hmem.mpr hx))
    intro a ha hnot b hb
    rw [mem_insertAll] at ha ⊢
    rw [Order.mem_push, not_or] at hnot
    have ha := ha.resolve_left hnot.1
    by_cases haz : a = z
    · -- the value that was taken up: its successors are found now, if they were not seen
      rw [haz] at hb
      by_cases hbs : b ∈ seen
      · exact .inr hbs
      · exact .inl (mem_novel.mpr ⟨hb, hbs⟩)
    · refine .inr (hpending a ha (fun h => ?_) b hb)
      exact (List.mem_cons.mp h).elim haz hnot.2

/-- What is found is found once, and was not seen before. -/
theorem explore_nodup : (explore order next seen pending).Nodup ∧
    ∀ y ∈ explore order next seen pending, y ∉ seen := by
  fun_induction explore order next seen pending with
  | case1 => exact ⟨List.nodup_nil, fun _ hy => absurd hy List.not_mem_nil⟩
  | case2 seen x pending found ih =>
    obtain ⟨hnodup, hnew⟩ := ih
    refine ⟨List.nodup_append.mpr ⟨novel_nodup seen (next x), hnodup, ?_⟩, fun y hy => ?_⟩
    · rintro y hy z hz rfl
      exact hnew y hz (mem_insertAll.mpr (.inl hy))
    · rcases List.mem_append.mp hy with hy | hy
      · exact (mem_novel.mp hy).2
      · exact fun hseen => hnew y hy (mem_insertAll.mpr (.inr hseen))

/-- **A walk finds what can be reached** from one of its starts. What is pending or
found leads back to a start, and at the end everything found has had its successors
looked at. -/
theorem mem_discover : y ∈ discover order next starts ↔ ∃ x ∈ starts, Leads next x y := by
  have hfound : ∀ {z}, z ∈ novel ∅ starts ↔ z ∈ starts := by
    intro z
    rw [mem_novel, and_iff_left Std.ExtTreeSet.not_mem_empty]
  have hseen : ∀ {z}, z ∈ insertAll (∅ : Std.ExtTreeSet α) (novel ∅ starts) ↔ z ∈ starts := by
    intro z
    rw [mem_insertAll, hfound, or_iff_left Std.ExtTreeSet.not_mem_empty]
  rw [discover, List.mem_append]
  constructor
  · -- a start, or something that is found on the way
    intro hy
    rcases hy with hy | hy
    · exact ⟨y, hfound.mp hy, .refl⟩
    · obtain ⟨x, hx, hxy⟩ := leads_of_mem_explore hy
      rw [Order.mem_push, or_iff_left List.not_mem_nil] at hx
      exact ⟨x, hfound.mp hx, hxy⟩
  · -- along the way from the start, as what is found is closed under successors
    rintro ⟨x, hx, hxy⟩
    have hclosed : y ∈ insertAll (∅ : Std.ExtTreeSet α) (novel ∅ starts) ∨
        y ∈ explore order next (insertAll ∅ (novel ∅ starts)) (order.push (novel ∅ starts) []) := by
      induction hxy with
      | refl => exact .inl (hseen.mpr hx)
      | tail _ hstep ih =>
        refine mem_of_mem_next (fun z hz hnot => absurd ?_ hnot) ih hstep
        exact Order.mem_push.mpr (.inl (hfound.mpr (hseen.mp hz)))
    exact hclosed.imp_left fun hy => hfound.mpr (hseen.mp hy)

/-- The same, if the order does not matter. -/
theorem mem_reachable : y ∈ reachable next starts ↔ ∃ x ∈ starts, Leads next x y := mem_discover

/-- A walk finds each value once. -/
theorem discover_nodup : (discover order next starts).Nodup := by
  refine List.nodup_append.mpr ⟨novel_nodup ∅ starts, explore_nodup.1, ?_⟩
  rintro y hy z hz rfl
  exact explore_nodup.2 y hz (mem_insertAll.mpr (.inl hy))

end OmegaControl.Traversal
