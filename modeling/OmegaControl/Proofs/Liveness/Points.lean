import OmegaControl.Liveness.Rule
import OmegaControl.Proofs.Observation

/-!
# The points of a run

The loops call a rule many times, and each call may change the records. To speak of
the records between any two calls, and not only of those in the end, a rule can list
them as it goes along (`Rule.logged`). That changes nothing else: without the list,
the run is the same, with the same reports (`Rule.logged_enforceable`). The records
listed are the points of the run (`Rule.points`).

What every call keeps holds at all points, whatever the order of the calls is
(`Rule.Keeps.forall_points`).

Two relations carry this through the loops: one says that a computation does what
another one does, but with more records (`Recorded.Projects`), the other one that
something is true of the records at the end if it was at the start
(`Recorded.Maintains`). Each has a lemma for each way in which the loops put
computations together.
-/

namespace OmegaControl

namespace Recorded

variable {σ τ α β : Type}

/-! ## Computations that keep more records
 -/

/-- `m` does what `n` does; `n` only knows `f` of the records. -/
def Projects (f : τ → σ) (m : Recorded τ α) (n : Recorded σ α) : Prop :=
  ∀ s, Prod.map id f <$> m.run s = n.run (f s)

namespace Projects

variable {f : τ → σ}

/-- What only returns a value does not look at records. -/
theorem pure (a : α) : Projects f (Pure.pure a) (Pure.pure a) := fun _ => rfl

/-- A change of the records, if `f` carries it over. -/
theorem modify {u : τ → τ} {v : σ → σ} (h : ∀ s, f (u s) = v (f s)) :
    Projects f (modify u : Recorded τ Unit) (modify v : Recorded σ Unit) := fun s =>
  congrArg (fun r => Watched.done ((), r)) (h s)

/-- One computation after another. -/
theorem bind {m : Recorded τ α} {n : Recorded σ α} {k : α → Recorded τ β} {l : α → Recorded σ β}
    (hm : Projects f m n) (hk : ∀ a, Projects f (k a) (l a)) : Projects f (m >>= k) (n >>= l) := by
  intro s
  rw [StateT.run_bind, StateT.run_bind, map_bind, ← hm s, bind_map_left]
  exact congrArg (m.run s >>= ·) (funext fun (a, s') => hk a s')

/-- What only reports does not look at records. -/
theorem lift (w : Watched α) : Projects f (liftM w : Recorded τ α) (liftM w : Recorded σ α) :=
  fun _ => map_bind ..

variable {step₁ : StateSet → Recorded τ StateSet} {step₂ : StateSet → Recorded σ StateSet}

/-- A loop in which a set grows. The sets are the same, so the loops stop together. -/
theorem ascend (hstep : ∀ s, Projects f (step₁ s) (step₂ s)) (full : Nat) (s : StateSet) :
    Projects f (ascend full step₁ s) (ascend full step₂ s) := by
  fun_induction OmegaControl.ascend full step₁ s with
  | case1 s ih =>
    rw [ascend.eq_1 full step₂]
    refine (hstep s).bind fun t => ?_
    split
    next hgrow => exact ih t hgrow
    next => exact pure _

/-- A loop in which a set shrinks. -/
theorem descend (hstep : ∀ s, Projects f (step₁ s) (step₂ s)) (s : StateSet) :
    Projects f (descend step₁ s) (descend step₂ s) := by
  fun_induction OmegaControl.descend step₁ s with
  | case1 s ih =>
    rw [descend.eq_1 step₂]
    refine (hstep s).bind fun t => ?_
    split
    next hshrink => exact ih t hshrink
    next => exact pure _

end Projects

/-! ## Computations that keep their records in order
 -/

/-- What holds of the records at the start holds of them in the end. -/
def Maintains (R : σ → Prop) (m : Recorded σ α) : Prop := ∀ s, R s → R (m.outcome s).2

namespace Maintains

variable {R : σ → Prop}

theorem pure (a : α) : Maintains R (Pure.pure a) := fun _ hs => hs

theorem modify {f : σ → σ} (h : ∀ s, R s → R (f s)) :
    Maintains R (modify f : Recorded σ Unit) := h

theorem lift (w : Watched α) : Maintains R (liftM w : Recorded σ α) := fun s hs => by
  rwa [outcome_lift]

/-- One computation after another. -/
theorem bind {m : Recorded σ α} {k : α → Recorded σ β} (hm : Maintains R m)
    (hk : ∀ a, Maintains R (k a)) : Maintains R (m >>= k) := fun s hs => by
  rw [outcome_bind]
  exact hk _ _ (hm s hs)

variable {step : StateSet → Recorded σ StateSet}

/-- A loop in which a set grows, if each iteration keeps the records in order. -/
theorem ascend (hstep : ∀ s, Maintains R (step s)) (full : Nat) (s : StateSet) :
    Maintains R (ascend full step s) := by
  fun_induction OmegaControl.ascend full step s with
  | case1 s ih =>
    refine (hstep s).bind fun t => ?_
    split
    next hgrow => exact ih t hgrow
    next => exact pure _

/-- A loop in which a set shrinks. -/
theorem descend (hstep : ∀ s, Maintains R (step s)) (s : StateSet) :
    Maintains R (descend step s) := by
  fun_induction OmegaControl.descend step s with
  | case1 s ih =>
    refine (hstep s).bind fun t => ?_
    split
    next hshrink => exact ih t hshrink
    next => exact pure _

end Maintains

end Recorded

namespace Rule

open Recorded

variable {σ τ : Type} {rule : Rule σ} {g : Automaton} {plantMarking : StateSet}

/-! ## Rules that list their records
 -/

/-- Lists records, the latest first. -/
def note (r : σ) (s : σ × List σ) : σ × List σ := (r, r :: s.2)

/-- The rule that lists its records, those at the start and those after each call.
It finds the same states as the rule itself, so its list tells which records a run
of the rule comes by. -/
def logged (rule : Rule σ) : Rule (σ × List σ) where
  start := (rule.start, [rule.start])
  resolve target domain s :=
    let (states, r) := rule.resolve target domain s.1
    (states, note r s)
  beginRound s := note (rule.beginRound s.1) s
  endRound s := note (rule.endRound s.1) s
  beginLevel s := note (rule.beginLevel s.1) s
  endLevel s := note (rule.endLevel s.1) s

/-- The records at all points of a run, the latest first. -/
def points (rule : Rule σ) (g : Automaton) (plantMarking : StateSet) : List σ :=
  (rule.logged.enforceable g plantMarking).value.2.2

/-- The innermost loop, with and without the list. -/
theorem projects_attract (target domain : StateSet) :
    Projects Prod.fst (rule.logged.attract g plantMarking target domain)
      (rule.attract g plantMarking target domain) := by
  refine Projects.ascend (fun near s => ?_) _ _
  rfl

/-- The fourth loop, with and without the list. -/
theorem projects_stay (resolved target : StateSet) :
    Projects Prod.fst (rule.logged.stay g plantMarking resolved target)
      (rule.stay g plantMarking resolved target) := by
  refine .bind (.descend (fun domain => ?_) _) fun domain =>
    .bind (.modify fun _ => rfl) fun _ => .pure domain
  exact .bind (.lift _) fun _ => .bind (.modify fun _ => rfl) fun _ =>
    projects_attract target domain

/-- The third loop, with and without the list. -/
theorem projects_approach (resolved target : StateSet) :
    Projects Prod.fst (rule.logged.approach g plantMarking resolved target)
      (rule.approach g plantMarking resolved target) :=
  Projects.ascend (fun _ => projects_stay resolved _) _ _

/-- The second loop, with and without the list. -/
theorem projects_recur (resolved : StateSet) :
    Projects Prod.fst (rule.logged.recur g plantMarking resolved)
      (rule.recur g plantMarking resolved) := by
  refine .bind (.descend (fun states => ?_) _) fun states =>
    .bind (.modify fun _ => rfl) fun _ => .pure states
  exact .bind (.modify fun _ => rfl) fun _ => projects_approach resolved _

/-- **Without the list**, the run is the same. -/
theorem logged_enforceable (rule : Rule σ) (g : Automaton) (plantMarking : StateSet) :
    Prod.map id Prod.fst <$> rule.logged.enforceable g plantMarking =
      rule.enforceable g plantMarking :=
  Projects.ascend projects_recur _ _ rule.logged.start

/-! ## What every call keeps
 -/

/-- Every call of the rule keeps its records as they should be. Then all the points
of a run are as they should be, whatever order the loops call the rule in. -/
structure Keeps (rule : Rule σ) (R : σ → Prop) : Prop where
  start : R rule.start
  resolve : ∀ target domain s, R s → R (rule.resolve target domain s).2
  beginRound : ∀ s, R s → R (rule.beginRound s)
  endRound : ∀ s, R s → R (rule.endRound s)
  beginLevel : ∀ s, R s → R (rule.beginLevel s)
  endLevel : ∀ s, R s → R (rule.endLevel s)

namespace Keeps

variable {R : σ → Prop} (h : rule.Keeps R)
include h

/-- The innermost loop keeps it. -/
theorem attract (target domain : StateSet) :
    Maintains R (rule.attract g plantMarking target domain) := by
  refine Maintains.ascend (fun near s hs => ?_) _ _
  exact h.resolve _ _ s hs

/-- The fourth loop keeps it, from the beginning of a round to the end of the last
one. -/
theorem stay (resolved target : StateSet) :
    Maintains R (rule.stay g plantMarking resolved target) := by
  refine (Maintains.descend (fun domain => ?_) _).bind fun domain =>
    (Maintains.modify h.endRound).bind fun _ => .pure domain
  exact (Maintains.lift _).bind fun _ => (Maintains.modify h.beginRound).bind fun _ =>
    h.attract target domain

/-- The third loop keeps it. -/
theorem approach (resolved target : StateSet) :
    Maintains R (rule.approach g plantMarking resolved target) :=
  Maintains.ascend (fun _ => h.stay resolved _) _ _

/-- The second loop keeps it, from the beginning of a level to the end of the last
one. -/
theorem recur (resolved : StateSet) : Maintains R (rule.recur g plantMarking resolved) := by
  refine (Maintains.descend (fun states => ?_) _).bind fun states =>
    (Maintains.modify h.endLevel).bind fun _ => .pure states
  exact (Maintains.modify h.beginLevel).bind fun _ => h.approach resolved _

/-- **What every call keeps** holds in the end. -/
theorem enforceable (g : Automaton) (plantMarking : StateSet) :
    R (rule.enforceable g plantMarking).value.2 :=
  Maintains.ascend h.recur _ _ rule.start h.start

/-- It is kept of all records that are listed, as each of them was made by a call. -/
theorem logged : rule.logged.Keeps fun s => R s.1 ∧ ∀ r ∈ s.2, R r := by
  have hnote : ∀ {r : σ} {s : σ × List σ}, R r → (R s.1 ∧ ∀ u ∈ s.2, R u) →
      R (note r s).1 ∧ ∀ u ∈ (note r s).2, R u := fun hr hs =>
    ⟨hr, List.forall_mem_cons.mpr ⟨hr, hs.2⟩⟩
  exact {
    start := ⟨h.start, List.forall_mem_singleton.mpr h.start⟩
    resolve := fun target domain s hs => hnote (h.resolve target domain s.1 hs.1) hs
    beginRound := fun s hs => hnote (h.beginRound s.1 hs.1) hs
    endRound := fun s hs => hnote (h.endRound s.1 hs.1) hs
    beginLevel := fun s hs => hnote (h.beginLevel s.1 hs.1) hs
    endLevel := fun s hs => hnote (h.endLevel s.1 hs.1) hs }

/-- **What every call keeps** holds at all points. -/
theorem forall_points (g : Automaton) (plantMarking : StateSet) :
    ∀ r ∈ rule.points g plantMarking, R r :=
  (h.logged.enforceable g plantMarking).2

end Keeps

/-- The latest point is the end of the run. -/
theorem head?_points (rule : Rule σ) (g : Automaton) (plantMarking : StateSet) :
    (rule.points g plantMarking).head? = some (rule.enforceable g plantMarking).value.2 := by
  have hlatest : rule.logged.Keeps fun s => s.2.head? = some s.1 :=
    ⟨rfl, fun _ _ _ _ => rfl, fun _ _ => rfl, fun _ _ => rfl, fun _ _ => rfl, fun _ _ => rfl⟩
  have hrun := congrArg (·.value.2) (logged_enforceable rule g plantMarking)
  rw [← bind_pure_comp, Watched.value_bind] at hrun
  rw [points, hlatest.enforceable]
  exact congrArg some hrun

end Rule

end OmegaControl
