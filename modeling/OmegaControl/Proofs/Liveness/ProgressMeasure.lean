import Mathlib.Data.Prod.Lex
import Mathlib.Tactic.Push
import OmegaControl.Proofs.Path

/-!
# Progress measures

How one sees that a closed loop does what it should. Two numbers are attached to
each state. Unless a step visits a marked state, the outer number does not rise, and
it falls if the step visits the plant marking. And from each state some step visits
a marked state or makes the pair of numbers smaller, in lexicographic order.

It follows that a marked state can be reached from everywhere
(`ProgressMeasure.marked_ahead`), and that a path which visits the plant marking
infinitely often visits marked states infinitely often
(`ProgressMeasure.marked_again`), since the outer number cannot fall forever.

The first is a promise about some steps and the second one about all of them, so the
numbers have to serve both: what a step must not do is said by the outer number
alone, while the inner one tells which step to take among those that leave it as it
is.
-/

namespace OmegaControl.Automaton

/-- Along a path whose steps do not raise a rank, and lower it where they visit the
plant marking, the rank does not rise, and it falls if the plant marking is visited.
Around a cycle this is impossible. -/
theorem rank_endOf_le {g : Automaton} {plantMarking : StateSet} {rank : StateId → ℕ} {x : StateId}
    {ts : List Transition} (hts : g.IsPath x ts) (hle : ∀ t ∈ ts, rank t.target ≤ rank t.source)
    (hlt : ∀ t ∈ ts, t.target ∈ plantMarking → rank t.target < rank t.source) :
    rank (endOf x ts) ≤ rank x ∧
      ((∃ t ∈ ts, t.target ∈ plantMarking) → rank (endOf x ts) < rank x) := by
  induction ts generalizing x with
  | nil => simp
  | cons t ts ih =>
    obtain ⟨-, rfl, hts⟩ := hts
    rw [List.forall_mem_cons] at hle hlt
    obtain ⟨hstep, hle⟩ := hle
    obtain ⟨hfall, hlt⟩ := hlt
    obtain ⟨hle, hlt⟩ := ih hts hle hlt
    refine ⟨hle.trans hstep, ?_⟩
    rintro ⟨u, hu, hplant⟩
    rcases List.mem_cons.mp hu with rfl | hu
    · exact hle.trans_lt (hfall hplant)
    · exact (hlt ⟨u, hu, hplant⟩).trans_le hstep

/-- The two numbers `outer` and `inner` measure, for the states of `kept`, how far
away the next visit to a marked state is. -/
structure ProgressMeasure (g : Automaton) (plantMarking : StateSet) (kept : Set StateId)
    (outer inner : StateId → ℕ) : Prop where
  /-- from each state some step leads on -/
  advances : ∀ x ∈ kept, ∃ t ∈ g.transitions, t.source = x ∧ t.target ∈ kept ∧
    (t.target ∈ g.marked ∨ outer t.target < outer x ∨
      outer t.target = outer x ∧ inner t.target < inner x)
  /-- no step leads out -/
  kept_target : ∀ t ∈ g.transitions, t.source ∈ kept → t.target ∈ kept
  /-- without a marked state the outer number does not rise -/
  outer_le : ∀ t ∈ g.transitions, t.source ∈ kept → t.target ∉ g.marked →
    outer t.target ≤ outer t.source
  /-- without a marked state it falls when the plant marking is visited -/
  outer_lt : ∀ t ∈ g.transitions, t.source ∈ kept → t.target ∉ g.marked →
    t.target ∈ plantMarking → outer t.target < outer t.source

namespace ProgressMeasure

variable {g : Automaton} {plantMarking : StateSet} {kept : Set StateId} {outer inner : StateId → ℕ}
  (h : ProgressMeasure g plantMarking kept outer inner) {x : StateId} {ts : List Transition}
include h

/-- No path leads out. -/
theorem endOf_mem (hx : x ∈ kept) (hts : g.IsPath x ts) : endOf x ts ∈ kept := by
  induction ts generalizing x with
  | nil => exact hx
  | cons t ts ih => exact ih (h.kept_target t hts.1 (hts.2.1 ▸ hx)) hts.2.2

/-- **Marked states stay in reach**: from each state a path of at least one step
ends in a marked state. Some step leads to one, or to a pair of numbers that is
smaller, and pairs of numbers are well-founded. -/
theorem marked_ahead (hx : x ∈ kept) : ∃ ts, ts ≠ [] ∧ g.IsPath x ts ∧ endOf x ts ∈ g.marked := by
  generalize hk : toLex (outer x, inner x) = k
  -- on the pair of numbers, in lexicographic order
  induction k using WellFoundedLT.induction generalizing x with
  | _ k ih =>
    obtain ⟨t, ht, rfl, hkept, hmarked | hnear⟩ := h.advances x hx
    · exact ⟨[t], by simp, by simpa using ht, hmarked⟩
    · have hlt : toLex (outer t.target, inner t.target) < k := by
        rw [← hk, Prod.Lex.toLex_lt_toLex]
        exact hnear
      obtain ⟨ts, -, hts, hmarked⟩ := ih _ hlt hkept rfl
      exact ⟨t :: ts, by simp, ⟨ht, rfl, hts⟩, hmarked⟩

/-- No step of a path starts outside. -/
theorem source_mem (hx : x ∈ kept) (hts : g.IsPath x ts) : ∀ t ∈ ts, t.source ∈ kept := by
  induction ts generalizing x with
  | nil => simp
  | cons t ts ih =>
    obtain ⟨ht, rfl, hts⟩ := hts
    exact List.forall_mem_cons.mpr ⟨hx, ih (h.kept_target t ht hx) hts⟩

/-- Along a path without marked states the outer number does not rise, and it falls if
the plant marking is visited. -/
theorem outer_endOf_le (hx : x ∈ kept) (hts : g.IsPath x ts)
    (hunmarked : ∀ t ∈ ts, t.target ∉ g.marked) :
    outer (endOf x ts) ≤ outer x ∧
      ((∃ t ∈ ts, t.target ∈ plantMarking) → outer (endOf x ts) < outer x) :=
  rank_endOf_le hts
    (fun t ht => h.outer_le t (hts.mem_transitions ht) (h.source_mem hx hts t ht) (hunmarked t ht))
    fun t ht => h.outer_lt t (hts.mem_transitions ht) (h.source_mem hx hts t ht) (hunmarked t ht)

/-- **No bad cycle**: a cycle that visits the plant marking visits a marked state,
since otherwise its outer number would be smaller than itself. -/
theorem marked_of_cycle (hx : x ∈ kept) (hts : g.IsPath x ts) (hcycle : endOf x ts = x)
    (hplant : ∃ t ∈ ts, t.target ∈ plantMarking) : ∃ t ∈ ts, t.target ∈ g.marked := by
  by_contra hnone
  push Not at hnone
  have hlt := (h.outer_endOf_le hx hts hnone).2 hplant
  rw [hcycle] at hlt
  exact Nat.lt_irrefl _ hlt

/-- **Marked states are visited again**: a path that visits the plant marking
infinitely often visits marked states infinitely often. If it did not, it would do
without them from some point on, and each visit to the plant marking would lower the
outer number. -/
theorem marked_again (hx : x ∈ kept) {r : ℕ → Transition} (hr : g.IsInfinitePath x r)
    (hplant : InfinitelyOften fun n => endOf x (upTo r n) ∈ plantMarking) :
    InfinitelyOften fun n => endOf x (upTo r n) ∈ g.marked := by
  intro n₀
  by_contra hnone
  push Not at hnone
  -- from `n₀` on each visit to the plant marking makes the outer number smaller
  have hdescent : ∀ k n, n₀ ≤ n → outer (endOf x (upTo r n)) = k → False := by
    intro k
    induction k using Nat.strong_induction_on with
    | _ k ih =>
      intro n hn hk
      obtain ⟨m, hnm, hm⟩ := hplant (n + 1)
      obtain ⟨d, rfl⟩ := Nat.exists_eq_add_of_le hnm
      have hpath := hr (n + (d + 1))
      rw [upTo_add, isPath_append] at hpath
      have hunmarked : ∀ t ∈ upTo (fun i => r (n + i)) (d + 1), t.target ∉ g.marked := by
        rintro t ht hmarked
        obtain ⟨i, -, rfl⟩ := mem_upTo.mp ht
        exact hnone (n + i + 1) (by omega) (by rwa [endOf_upTo_succ])
      have hend : endOf (endOf x (upTo r n)) (upTo (fun i => r (n + i)) (d + 1)) =
          endOf x (upTo r (n + 1 + d)) := by
        rw [← endOf_append, ← upTo_add, Nat.add_right_comm, Nat.add_assoc]
      have hlt := (h.outer_endOf_le (h.endOf_mem hx (hr n)) hpath.2 hunmarked).2
        ⟨_, mem_upTo.mpr ⟨d, d.lt_succ_self, rfl⟩, by rwa [← endOf_upTo_succ x, Nat.add_right_comm]⟩
      rw [hend, hk] at hlt
      exact ih _ hlt (n + 1 + d) (by omega) rfl
  exact hdescent _ n₀ le_rfl rfl

end ProgressMeasure

end OmegaControl.Automaton
