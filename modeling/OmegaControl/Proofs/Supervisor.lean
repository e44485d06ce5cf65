import OmegaControl.Proofs.Path

/-!
# Supervisors

A supervisor watches a run and disables controllable events, depending on all that
has happened so far. The closed loop consists of the runs none of whose steps was
disabled when it was taken (`Supervisor.IsRun`, `Supervisor.IsInfiniteRun`).

What a supervisor is there for is `Supervisor.Enforces`: marked states stay in reach
whatever happens, and they are visited infinitely often on every run that visits the
states of the plant marking infinitely often. The supervisor may thus rely on the
plant to make progress, but must not keep it from doing so.

A supervisor is a function of the run, not of the state: nothing is assumed about
how it remembers. That a state can be controlled means that there is some
supervisor, and where one is constructed it only looks at the state that has been
reached.
-/

namespace OmegaControl

/-- Disables controllable events after each finite run. That nothing else is
disabled is part of the structure, so it need not be asked for again. -/
structure Supervisor (controllable : EventSet) where
  /-- the events that are disabled after a run -/
  disabled : List Transition → Set EventId
  /-- only controllable events are disabled -/
  controllable_of_mem : ∀ ts, ∀ ev ∈ disabled ts, ev ∈ controllable

namespace Supervisor

variable {controllable : EventSet} (S : Supervisor controllable)

/-- After the run `ts`, none of the further steps is disabled when it is taken. What
has happened before is passed along, since the supervisor may look at all of it. -/
def Admits : List Transition → List Transition → Prop
  | _, [] => True
  | ts, u :: us => u.event ∉ S.disabled ts ∧ Admits (ts ++ [u]) us

/-- A finite run of the closed loop: a path none of whose steps was disabled. -/
def IsRun (g : Automaton) (x : StateId) (ts : List Transition) : Prop :=
  g.IsPath x ts ∧ S.Admits [] ts

/-- An infinite run of the closed loop. -/
def IsInfiniteRun (g : Automaton) (x : StateId) (r : ℕ → Transition) : Prop :=
  ∀ n, S.IsRun g x (upTo r n)

/-- In the closed loop that starts in `x`, every finite run can be prolonged so that it
ends in a marked state, and every infinite run that visits the plant marking infinitely
often visits marked states infinitely often. -/
structure Enforces (g : Automaton) (plantMarking : StateSet) (x : StateId) : Prop where
  /-- whatever has happened, a marked state can still be reached -/
  marked_ahead : ∀ ts, S.IsRun g x ts →
    ∃ us, us ≠ [] ∧ S.IsRun g x (ts ++ us) ∧ endOf x (ts ++ us) ∈ g.marked
  /-- marked states are visited infinitely often if the plant marking is -/
  marked_again : ∀ r, S.IsInfiniteRun g x r →
    InfinitelyOften (fun n => endOf x (upTo r n) ∈ plantMarking) →
    InfinitelyOften (fun n => endOf x (upTo r n) ∈ g.marked)

/-! ## Runs step by step -/

variable {S} {g : Automaton} {x : StateId} {t : Transition} {ts us : List Transition}

/-- To take steps one after the other is to take the first ones, and the others
after these. -/
theorem admits_append {vs : List Transition} :
    S.Admits vs (ts ++ us) ↔ S.Admits vs ts ∧ S.Admits (vs ++ ts) us := by
  induction ts generalizing vs with
  | nil => simp [Admits]
  | cons t ts ih => simp [Admits, ih, and_assoc]

@[simp] theorem isRun_nil : S.IsRun g x [] := ⟨trivial, trivial⟩

/-- A run goes on with a transition that is not disabled. -/
theorem isRun_concat : S.IsRun g x (ts ++ [t]) ↔
    S.IsRun g x ts ∧ t ∈ g.transitions ∧ t.source = endOf x ts ∧ t.event ∉ S.disabled ts := by
  simp only [IsRun, admits_append, Automaton.isPath_concat, Admits, List.nil_append]
  tauto

/-- What a run starts with is a run. -/
theorem IsRun.of_append (h : S.IsRun g x (ts ++ us)) : S.IsRun g x ts :=
  ⟨(Automaton.isPath_append.mp h.1).1, (admits_append.mp h.2).1⟩

/-- Beginnings of runs are runs: a supervisor cannot object afterwards. -/
theorem IsRun.of_isPrefix (h : S.IsRun g x us) (hts : ts <+: us) : S.IsRun g x ts := by
  obtain ⟨vs, rfl⟩ := hts
  exact h.of_append

/-- An uncontrollable transition can always be taken. -/
theorem IsRun.concat_of_not_mem (h : S.IsRun g x ts) (ht : t ∈ g.transitions)
    (hsource : t.source = endOf x ts) (hev : t.event ∉ controllable) :
    S.IsRun g x (ts ++ [t]) :=
  isRun_concat.mpr ⟨h, ht, hsource, fun hd => hev (S.controllable_of_mem ts _ hd)⟩

/-- A sequence is an infinite run if beginnings as long as one likes are runs. -/
theorem isInfiniteRun_of_infinitelyOften {r : ℕ → Transition}
    (h : InfinitelyOften fun n => S.IsRun g x (upTo r n)) : S.IsInfiniteRun g x r := by
  intro n
  obtain ⟨m, hnm, hm⟩ := h n
  exact hm.of_isPrefix (upTo_isPrefix hnm)

/-- Under a supervisor that enforces the marking, every finite run is the beginning
of an infinite one that visits marked states infinitely often. For a marked state is
ahead after the run, and after every run that ends in a marked state there is one
more ahead; the limit of these visits them all. -/
theorem Enforces.exists_infiniteRun {plantMarking : StateSet} (h : S.Enforces g plantMarking x)
    (hts : S.IsRun g x ts) :
    ∃ r, upTo r ts.length = ts ∧ S.IsInfiniteRun g x r ∧
      InfinitelyOften fun n => endOf x (upTo r n) ∈ g.marked := by
  obtain ⟨us, -, hus, hmarked⟩ := h.marked_ahead ts hts
  obtain ⟨r, hr, hoften⟩ := exists_sequence
    (P := fun vs => S.IsRun g x vs ∧ endOf x vs ∈ g.marked)
    (fun vs hvs => h.marked_ahead vs hvs.1) ⟨hus, hmarked⟩
  refine ⟨r, ?_, ?_, hoften.mono fun _ hm => hm.2⟩
  · exact (eq_upTo_of_isPrefix (hr ▸ List.prefix_append ts us)).symm
  · exact isInfiniteRun_of_infinitelyOften (hoften.mono fun _ hm => hm.1)

end Supervisor

end OmegaControl
