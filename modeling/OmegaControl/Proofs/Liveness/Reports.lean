import Mathlib.Algebra.Group.Nat.Defs
import OmegaControl.Liveness.Rule
import OmegaControl.Proofs.Iteration

/-!
# Reports of the nested fixpoint

One report is made in each iteration of the fourth loop, of how many states are
resolved. Reports add up along a computation, so what holds of them is proved loop
by loop, as a postcondition on the value and the reports together
(`Recorded.Always`).

Whatever a rule answers, the sets of the four outer loops stay among the states, and
each iteration but the last makes a set larger or smaller. So each of these loops
takes as many iterations as there are states at most, and one if there are none
(`ascend_repeats`, `descend_repeats`). This bounds the number of reports by the
fourth power of the number of states.

The resolved states only change in the outermost loop, where they only become more
(`Rule.reports_enforceable`). The rule need not even be monotone for that.
-/

namespace OmegaControl

namespace Recorded

variable {σ α β : Type}

/-- The reports of a computation that starts with the records `s` and that nobody cancels. -/
def reports (m : Recorded σ α) (s : σ) : List Checkpoint := (m.run s).checkpoints

/-- Whatever the records are at the start, `Q` holds of the value together with the reports. -/
def Always (m : Recorded σ α) (Q : α → List Checkpoint → Prop) : Prop :=
  ∀ s, Q (m.outcome s).1 (m.reports s)

namespace Always

variable {m : Recorded σ α} {P Q : α → List Checkpoint → Prop} {R : β → List Checkpoint → Prop}

/-- What follows from a postcondition holds as well. -/
theorem mono (hm : Always m P) (h : ∀ a cs, P a cs → Q a cs) : Always m Q := fun s => h _ _ (hm s)

/-- Nothing is reported when a value is returned. -/
theorem pure {a : α} (h : Q a []) : Always (Pure.pure a : Recorded σ α) Q := fun _ => h

/-- Nor when records are changed. -/
theorem modify {f : σ → σ} {Q : Unit → List Checkpoint → Prop} (h : Q () []) :
    Always (modify f : Recorded σ Unit) Q := fun _ => h

/-- A checkpoint is one report. -/
theorem checkpoint {stage : Stage} {current total : ℕ} {Q : Unit → List Checkpoint → Prop}
    (h : Q () [⟨stage, current, total⟩]) :
    Always (liftM (Watched.checkpoint stage current total) : Recorded σ Unit) Q := fun _ => h

/-- Reports add up. -/
theorem bind {f : α → Recorded σ β}
    (hm : Always m fun a cs => Always (f a) fun b ds => R b (cs ++ ds)) : Always (m >>= f) R := by
  intro s
  have hreports : reports (m >>= f) s = reports m s ++ reports (f (m.outcome s).1) (m.outcome s).2 :=
    Watched.checkpoints_bind ..
  rw [outcome_bind, hreports]
  exact hm s _

/-! ## Loops

The invariant of a loop is about its set and the reports so far. It has to be kept
by an iteration that is followed by another one, and to lead to the postcondition
otherwise. -/

variable {step : StateSet → Recorded σ StateSet} {I Q : StateSet → List Checkpoint → Prop}

/-- A loop in which a set grows. -/
theorem ascend {full : ℕ} (hstep : ∀ s cs, I s cs → Always (step s) fun t ds =>
      if s.size < (s ∪ t).size ∧ (s ∪ t).size ≠ full then I (s ∪ t) (cs ++ ds)
      else Q (s ∪ t) (cs ++ ds))
    {s : StateSet} {l : List Checkpoint} (h : I s l) :
    Always (ascend full step s) fun t ds => Q t (l ++ ds) := by
  fun_induction OmegaControl.ascend full step s generalizing l with
  | case1 s ih =>
    refine bind ((hstep s l h).mono fun t ds ht => ?_)
    split at ht
    next hgrow =>
      rw [if_pos hgrow]
      exact (ih t hgrow ht).mono fun _ _ h => List.append_assoc .. ▸ h
    next hstop =>
      rw [if_neg hstop]
      refine pure ?_
      rwa [List.append_nil]

/-- A loop in which a set shrinks. -/
theorem descend (hstep : ∀ s cs, I s cs → Always (step s) fun t ds =>
      if (s ∩ t).size < s.size ∧ (s ∩ t).isEmpty = false then I (s ∩ t) (cs ++ ds)
      else Q (s ∩ t) (cs ++ ds))
    {s : StateSet} {l : List Checkpoint} (h : I s l) :
    Always (descend step s) fun t ds => Q t (l ++ ds) := by
  fun_induction OmegaControl.descend step s generalizing l with
  | case1 s ih =>
    refine bind ((hstep s l h).mono fun t ds ht => ?_)
    split at ht
    next hshrink =>
      rw [if_pos hshrink]
      exact (ih t hshrink ht).mono fun _ _ h => List.append_assoc .. ▸ h
    next hstop =>
      rw [if_neg hstop]
      refine pure ?_
      rwa [List.append_nil]

end Always

end Recorded

/-! ## Loops that report the same all the time
 -/

/-- Nothing but `c` is reported, and not more than `b` times. -/
def Repeats (c : Checkpoint) (b : ℕ) (cs : List Checkpoint) : Prop := cs.length ≤ b ∧ ∀ d ∈ cs, d = c

/-- Of two runs of reports, the numbers are added. -/
theorem Repeats.append {c : Checkpoint} {b b' : ℕ} {cs ds : List Checkpoint} (hcs : Repeats c b cs)
    (hds : Repeats c b' ds) : Repeats c (b + b') (cs ++ ds) := by
  refine ⟨?_, List.forall_mem_append.mpr ⟨hcs.2, hds.2⟩⟩
  rw [List.length_append]
  exact Nat.add_le_add hcs.1 hds.1

theorem Repeats.mono {c : Checkpoint} {b b' : ℕ} {cs : List Checkpoint} (hcs : Repeats c b cs)
    (h : b ≤ b') : Repeats c b' cs := ⟨hcs.1.trans h, hcs.2⟩

namespace Recorded

variable {σ : Type} {step : StateSet → Recorded σ StateSet} {full : StateSet} {c : Checkpoint} {b : ℕ}

/-- A set that grows takes as many iterations as there are states, if it stays among
them: each time but the last it gets a new one. -/
theorem ascend_repeats
    (hstep : ∀ s, Always (step s) fun t cs => t ⊆ full ∧ Repeats c b cs) :
    Always (ascend full.size step ∅) fun t cs => t ⊆ full ∧ Repeats c (max 1 full.size * b) cs := by
  refine Always.ascend (I := fun s cs => s ⊆ full ∧ s.size < max 1 full.size ∧ Repeats c (s.size * b) cs)
    (Q := fun s cs => s ⊆ full ∧ Repeats c (max 1 full.size * b) cs) (l := []) ?_ ?_
  · rintro s cs ⟨hs, hlt, hcs⟩
    refine (hstep s).mono fun t ds ⟨ht, hds⟩ => ?_
    have hst : s ∪ t ⊆ full := fun x hx => (IdentSet.mem_union.mp hx).elim (hs x) (ht x)
    have hle : (s ∪ t).size ≤ full.size := IdentSet.size_le_of_subset hst
    have hreports := hcs.append hds
    rw [← Nat.succ_mul] at hreports
    split
    next hgrow => exact ⟨hst, by omega, hreports.mono (Nat.mul_le_mul_right b hgrow.1)⟩
    next => exact ⟨hst, hreports.mono (Nat.mul_le_mul_right b hlt)⟩
  · refine ⟨fun _ hx => absurd hx IdentSet.not_mem_empty, ?_, Nat.zero_le _, ?_⟩
    · exact Nat.lt_of_lt_of_le Nat.zero_lt_one (Nat.le_max_left ..)
    · exact fun _ hd => absurd hd List.not_mem_nil

/-- So does a set that shrinks, as it loses one each time. -/
theorem descend_repeats (hstep : ∀ s, Always (step s) fun _ cs => Repeats c b cs) :
    Always (descend step full) fun t cs => t ⊆ full ∧ Repeats c (max 1 full.size * b) cs := by
  refine Always.descend (I := fun s cs => s ⊆ full ∧ ∃ n, n + max 1 s.size ≤ max 1 full.size ∧
      Repeats c (n * b) cs)
    (Q := fun s cs => s ⊆ full ∧ Repeats c (max 1 full.size * b) cs) (l := []) ?_ ?_
  · rintro s cs ⟨hs, n, hn, hcs⟩
    refine (hstep s).mono fun t ds hds => ?_
    have hst : s ∩ t ⊆ full := fun x hx => hs x (IdentSet.mem_inter.mp hx).1
    have hreports := hcs.append hds
    rw [← Nat.succ_mul] at hreports
    split
    next hshrink =>
      have hpos : (s ∩ t).size ≠ 0 := fun hzero => by simp [IdentSet.isEmpty, hzero] at hshrink
      exact ⟨hst, n + 1, by omega, hreports⟩
    next => exact ⟨hst, hreports.mono (Nat.mul_le_mul_right b (by omega))⟩
  · refine ⟨fun _ hx => hx, 0, by omega, Nat.zero_le _, fun _ hd => absurd hd List.not_mem_nil⟩

end Recorded

/-! ## Reports of a run
 -/

/-- The reports of a run of the nested fixpoint on `n` states, when `k` of them are
resolved. What is resolved only grows, so no report is above `k`. -/
structure FixpointReports (n k : ℕ) (cs : List Checkpoint) : Prop where
  stage_eq : ∀ c ∈ cs, c.stage = .fixpoint
  total_eq : ∀ c ∈ cs, c.total = n
  current_le : ∀ c ∈ cs, c.current ≤ k
  /-- what is reported never becomes less -/
  sorted : cs.Pairwise fun c d => c.current ≤ d.current

/-- The resolved states become more. -/
theorem FixpointReports.append {n k k' b : ℕ} {cs ds : List Checkpoint} (hcs : FixpointReports n k cs)
    (hle : k ≤ k') (hds : Repeats ⟨.fixpoint, k, n⟩ b ds) : FixpointReports n k' (cs ++ ds) := by
  refine ⟨List.forall_mem_append.mpr ⟨hcs.stage_eq, fun d hd => ?_⟩,
    List.forall_mem_append.mpr ⟨hcs.total_eq, fun d hd => ?_⟩,
    List.forall_mem_append.mpr ⟨fun c hc => (hcs.current_le c hc).trans hle, fun d hd => ?_⟩,
    List.pairwise_append.mpr ⟨hcs.sorted, ?_, fun c hc d hd => ?_⟩⟩
  · rw [hds.2 d hd]
  · rw [hds.2 d hd]
  · rwa [hds.2 d hd]
  · refine List.pairwise_of_forall_mem_list fun c hc d hd => ?_
    rw [hds.2 c hc, hds.2 d hd]
  · rw [hds.2 d hd]
    exact hcs.current_le c hc

/-! ## The loops of a rule
 -/

namespace Rule

variable {τ : Type} (rule : Rule τ) (g : Automaton) (plantMarking : StateSet)

open Recorded

/-- The innermost loop reports nothing. -/
theorem reports_attract (target domain : StateSet) :
    Always (rule.attract g plantMarking target domain) fun _ cs => cs = [] := by
  refine Always.ascend (I := fun _ cs => cs = []) (Q := fun _ cs => cs = []) (l := []) ?_ rfl
  rintro s cs rfl
  intro r
  split <;> rfl

/-- The fourth loop reports the same in each of its iterations, of which there are
as many as states. -/
theorem reports_stay (resolved target : StateSet) :
    Always (rule.stay g plantMarking resolved target) fun t cs =>
      t ⊆ g.states ∧ Repeats ⟨.fixpoint, resolved.size, g.size⟩ (max 1 g.size) cs := by
  let c : Checkpoint := ⟨.fixpoint, resolved.size, g.size⟩
  refine Always.bind (Always.mono (P := fun t cs => t ⊆ g.states ∧ Repeats c (max 1 g.size * 1) cs)
    (descend_repeats fun domain => ?_) fun t cs ht => ?_)
  · refine Always.bind (Always.checkpoint (Always.bind (Always.modify ?_)))
    refine (rule.reports_attract g plantMarking target domain).mono ?_
    rintro t cs rfl
    exact ⟨Nat.le_refl 1, fun d hd => List.mem_singleton.mp hd⟩
  · refine Always.bind (Always.modify (Always.pure ?_))
    rwa [List.append_nil, List.append_nil, ← Nat.mul_one (max 1 g.size)]

/-- The third loop, in which no state is resolved either. -/
theorem reports_approach (resolved target : StateSet) :
    Always (rule.approach g plantMarking resolved target) fun t cs =>
      t ⊆ g.states ∧ Repeats ⟨.fixpoint, resolved.size, g.size⟩ (max 1 g.size ^ 2) cs := by
  rw [Nat.pow_two]
  exact ascend_repeats fun near => rule.reports_stay g plantMarking resolved (target ∪ near)

/-- The second loop. -/
theorem reports_recur (resolved : StateSet) :
    Always (rule.recur g plantMarking resolved) fun t cs =>
      t ⊆ g.states ∧ Repeats ⟨.fixpoint, resolved.size, g.size⟩ (max 1 g.size ^ 3) cs := by
  let c : Checkpoint := ⟨.fixpoint, resolved.size, g.size⟩
  refine Always.bind (Always.mono
    (P := fun t cs => t ⊆ g.states ∧ Repeats c (max 1 g.size * max 1 g.size ^ 2) cs)
    (descend_repeats fun states => ?_) fun t cs ht => ?_)
  · refine Always.bind (Always.modify ?_)
    exact (rule.reports_approach g plantMarking resolved _).mono fun _ _ h => h.2
  · refine Always.bind (Always.modify (Always.pure ?_))
    rwa [List.append_nil, List.append_nil, Nat.pow_succ']

/-- **A run of the nested fixpoint**, with any rule: what is reported to be resolved never becomes
fewer and is no more than there are states, and there are no more reports than one for each of four
nested loops through all states. -/
theorem reports_enforceable :
    FixpointReports g.size g.size (rule.enforceable g plantMarking).checkpoints ∧
      (rule.enforceable g plantMarking).checkpoints.length ≤ max 1 g.size ^ 4 := by
  have hall : Always (ascend g.size (rule.recur g plantMarking) ∅) fun _ cs =>
      FixpointReports g.size g.size cs ∧ cs.length ≤ max 1 g.size ^ 4 := by
    -- a round has at most `n^3` reports, and a round that does not end the run adds
    -- a state
    refine Always.ascend
      (I := fun s cs => s ⊆ g.states ∧ s.size < max 1 g.size ∧ FixpointReports g.size s.size cs ∧
        cs.length ≤ s.size * max 1 g.size ^ 3)
      (Q := fun s cs => FixpointReports g.size g.size cs ∧ cs.length ≤ max 1 g.size ^ 4) (l := []) ?_ ?_
    · rintro s cs ⟨hs, hlt, hcs, hlen⟩
      refine (rule.reports_recur g plantMarking s).mono fun t ds ⟨ht, hds⟩ => ?_
      have hst : s ∪ t ⊆ g.states := fun x hx => (IdentSet.mem_union.mp hx).elim (hs x) (ht x)
      have hle : (s ∪ t).size ≤ g.size := IdentSet.size_le_of_subset hst
      have hsize : (cs ++ ds).length ≤ (s.size + 1) * max 1 g.size ^ 3 := by
        rw [List.length_append, Nat.succ_mul]
        exact Nat.add_le_add hlen hds.1
      split
      next hgrow =>
        refine ⟨hst, by omega, hcs.append hgrow.1.le hds, hsize.trans ?_⟩
        exact Nat.mul_le_mul_right _ hgrow.1
      next =>
        refine ⟨hcs.append (IdentSet.size_le_of_subset hs) hds, hsize.trans ?_⟩
        rw [Nat.pow_succ' (n := 3)]
        exact Nat.mul_le_mul_right _ hlt
    · refine ⟨fun _ hx => absurd hx IdentSet.not_mem_empty, ?_, ⟨?_, ?_, ?_, .nil⟩, Nat.zero_le _⟩
      · exact Nat.lt_of_lt_of_le Nat.zero_lt_one (Nat.le_max_left ..)
      all_goals exact fun _ hd => absurd hd List.not_mem_nil
  exact hall rule.start

end Rule

end OmegaControl
