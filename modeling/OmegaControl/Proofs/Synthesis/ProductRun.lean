import OmegaControl.ControlledProduct
import OmegaControl.Proofs.Iteration
import OmegaControl.Proofs.JoinByEvent
import OmegaControl.Proofs.Language
import OmegaControl.Proofs.WellFormed

/-!
# Runs of the product

What the product of plant and specification does, before any state of it gets a
number. A step of the product is a step of both components, and says which marking
is owed next (`ControlProblem.Step`). A finite run is given by its word, since steps
are determined by their events (`ControlProblem.Leads`).

The debt that changes sides turns two conditions into one: along an infinite run of
the product, marked states are visited infinitely often if and only if the markings
of both components are (`ControlProblem.infinitelyOften_isMarked_iff`).

All that is shown of candidates later on is shown of runs of the product first. A
candidate only numbers some of its states.
-/

namespace OmegaControl.ControlProblem

open ControlledProduct

/-! ## What is checked

The functions check their arguments before they begin. What is not checked, and need
not be, is that the automata are well-formed: the store keeps them so. -/

/-- What the checks of a control problem and the store of its automata ensure. Every
result about a call that is not refused starts from here. -/
structure WellPosed (c : ControlProblem) : Prop where
  plant_wellFormed : c.plant.WellFormed
  spec_wellFormed : c.spec.WellFormed
  plant_isDeterministic : c.plant.IsDeterministic
  spec_isDeterministic : c.spec.IsDeterministic
  /-- both have the same events -/
  alphabet_eq : c.plant.alphabet = c.spec.alphabet
  /-- and these include the controllable ones -/
  controllable_subset : c.controllable ⊆ c.plant.alphabet

/-- In both components a word leads to one state at most. Most of what is said about the product
needs no more than this. -/
structure Deterministic (c : ControlProblem) : Prop where
  plant_isDeterministic : c.plant.IsDeterministic
  spec_isDeterministic : c.spec.IsDeterministic

theorem WellPosed.deterministic {c : ControlProblem} (hc : c.WellPosed) : c.Deterministic :=
  ⟨hc.plant_isDeterministic, hc.spec_isDeterministic⟩

/-- Two checks pass if each of them does. So a chain of checks can be read off as a
conjunction. -/
theorem bind_eq_ok_iff {a b : Check} : (a >>= fun _ => b) = .ok () ↔ a = .ok () ∧ b = .ok () := by
  cases a with
  | error e => simp [bind, Except.bind]
  | ok u => simp [bind, Except.bind]

/-- What is checked: common events, controllable events among them, and that both
components are deterministic. -/
theorem check_eq_ok_iff {c : ControlProblem} : c.check = .ok () ↔
    c.plant.alphabet = c.spec.alphabet ∧ c.controllable ⊆ c.plant.alphabet ∧
      c.plant.IsDeterministic ∧ c.spec.IsDeterministic := by
  have halphabets : checkAlphabets c.plant c.spec = .ok () ↔
      c.plant.alphabet = c.spec.alphabet := by
    rw [checkAlphabets]
    split <;> simp_all
  have hevents : checkEvents "controllable" c.plant c.controllable = .ok () ↔
      c.controllable ⊆ c.plant.alphabet := by
    rw [checkEvents]
    split <;> simp_all
  have hdeterministic : checkDeterministic c.plant c.spec = .ok () ↔
      c.plant.IsDeterministic ∧ c.spec.IsDeterministic := by
    rw [checkDeterministic]
    split
    next hp => split <;> simp_all
    next hp => simp [hp]
  rw [check, bind_eq_ok_iff, bind_eq_ok_iff, halphabets, hevents, hdeterministic]

/-- A control problem that passes its checks is well-posed. -/
theorem WellPosed.of_check {c : ControlProblem} (hplant : c.plant.WellFormed)
    (hspec : c.spec.WellFormed) (hcheck : c.check = .ok ()) : c.WellPosed := by
  obtain ⟨halphabet, hsubset, hp, hs⟩ := check_eq_ok_iff.mp hcheck
  exact ⟨hplant, hspec, hp, hs, halphabet, hsubset⟩

/-- The machine may be kept from being started, and must be repaired after a
failure. As starts can be prevented, a machine that has failed is simply not started
again before that. -/
def machineProblem : ControlProblem := ⟨.machine, .ofList [⟨1⟩, ⟨4⟩], .repairedMachine⟩

theorem machineProblem_check : machineProblem.check = .ok () :=
  check_eq_ok_iff.mpr ⟨by decide +kernel, by decide +kernel, Automaton.machine_isDeterministic,
    Automaton.repairedMachine_isDeterministic⟩

/-! ## Steps

The two components go along with each other, event by event. The debt is only a
record of what has been visited, and keeps nothing from happening. -/

/-- Plant and specification take a step together. Whose marked state is owed after
it is decided by the state they leave. -/
structure Step (c : ControlProblem) (p : ProductState) (ev : EventId) (q : ProductState) :
    Prop where
  /-- the plant takes the step -/
  plant_mem : ⟨p.plant, ev, q.plant⟩ ∈ c.plant.transitions
  /-- so does the specification -/
  spec_mem : ⟨p.spec, ev, q.spec⟩ ∈ c.spec.transitions
  /-- the debt after it depends on the state before it -/
  owed_eq : q.plantOwed = owedNext c p

/-- The product starts in the initial states of both components, and owes the marking of
the plant first. -/
structure IsStart (c : ControlProblem) (p : ProductState) : Prop where
  plant_mem : p.plant ∈ c.plant.initial
  spec_mem : p.spec ∈ c.spec.initial
  /-- the marking of the plant is owed first -/
  owed : p.plantOwed = true

variable {c : ControlProblem} {p q q' : ProductState} {ev : EventId} {s u : List EventId}

section

variable (hc : c.Deterministic)
include hc

/-- A step is determined by its event. -/
theorem Step.unique (h : c.Step p ev q) (h' : c.Step p ev q') : q = q' := by
  have hplant := hc.plant_isDeterministic.hasUniqueSuccessors _ h.plant_mem _ h'.plant_mem rfl rfl
  have hspec := hc.spec_isDeterministic.hasUniqueSuccessors _ h.spec_mem _ h'.spec_mem rfl rfl
  have howed := h.owed_eq.trans h'.owed_eq.symm
  cases q
  cases q'
  simp_all

/-- The steps that the walk follows are those of the product: the join of the
transitions pairs off those that share an event. -/
theorem mem_sharedSteps : (ev, q) ∈ sharedSteps c p ↔ c.Step p ev q := by
  have hplant := hc.plant_isDeterministic.hasUniqueSuccessors
  have hspec := hc.spec_isDeterministic.hasUniqueSuccessors
  rw [sharedSteps, List.mem_filterMap]
  constructor
  · rintro ⟨j, hj, heq⟩
    cases j with
    | both l r =>
      obtain ⟨⟨hl, hlp⟩, ⟨hr, hrp⟩, hevent⟩ := (Automaton.both_mem_joinAt_iff hplant hspec).mp hj
      obtain ⟨rfl, rfl⟩ := Prod.mk.inj (Option.some.inj heq)
      refine ⟨Automaton.mk_mem_transitions hl hlp, ?_, rfl⟩
      rw [hevent]
      exact Automaton.mk_mem_transitions hr hrp
    | left l => cases heq
    | right r => cases heq
  · rintro ⟨hl, hr, howed⟩
    refine ⟨.both ⟨p.plant, ev, q.plant⟩ ⟨p.spec, ev, q.spec⟩, ?_, ?_⟩
    · exact (Automaton.both_mem_joinAt_iff hplant hspec).mpr ⟨⟨hl, rfl⟩, ⟨hr, rfl⟩, rfl⟩
    · rw [← howed]

/-- The events that are refused are those that the plant can do and the
specification cannot. -/
theorem mem_refusedEvents : ev ∈ refusedEvents c p ↔
    (∃ x, ⟨p.plant, ev, x⟩ ∈ c.plant.transitions) ∧ ∀ y, ⟨p.spec, ev, y⟩ ∉ c.spec.transitions := by
  have hplant := hc.plant_isDeterministic.hasUniqueSuccessors
  have hspec := hc.spec_isDeterministic.hasUniqueSuccessors
  rw [refusedEvents, List.mem_filterMap]
  constructor
  · rintro ⟨j, hj, heq⟩
    cases j with
    | both l r => cases heq
    | left l =>
      obtain ⟨⟨hl, hlp⟩, hnone⟩ := (Automaton.left_mem_joinAt_iff hplant hspec).mp hj
      obtain rfl := Option.some.inj heq
      exact ⟨⟨l.target, Automaton.mk_mem_transitions hl hlp⟩, fun y hy => hnone _ hy rfl rfl⟩
    | right r => cases heq
  · rintro ⟨⟨x, hx⟩, hnone⟩
    refine ⟨.left ⟨p.plant, ev, x⟩, ?_, rfl⟩
    refine (Automaton.left_mem_joinAt_iff hplant hspec).mpr ⟨⟨hx, rfl⟩, fun r hr hrp he => ?_⟩
    obtain rfl : r.event = ev := he
    exact hnone r.target (Automaton.mk_mem_transitions hr hrp)

/-- The product has one start at most. -/
theorem IsStart.unique (hp : c.IsStart p) (hq : c.IsStart q) : p = q := by
  have hplant := IdentSet.eq_of_size_le_one hc.plant_isDeterministic.1 hp.plant_mem hq.plant_mem
  have hspec := IdentSet.eq_of_size_le_one hc.spec_isDeterministic.1 hp.spec_mem hq.spec_mem
  have howed := hp.owed.trans hq.owed.symm
  cases p
  cases q
  simp_all

end

/-! ## Finite runs

A run is a word, as the states it passes are determined by it. -/

/-- The word leads from one state of the product to another, step by step. -/
def Leads (c : ControlProblem) : ProductState → List EventId → ProductState → Prop
  | p, [], q => p = q
  | p, ev :: s, q => ∃ p', c.Step p ev p' ∧ c.Leads p' s q

@[simp] theorem leads_nil : c.Leads p [] q ↔ p = q := Iff.rfl

/-- Runs are cut and joined where the first one ends. -/
theorem leads_append : c.Leads p (s ++ u) q ↔ ∃ p', c.Leads p s p' ∧ c.Leads p' u q := by
  induction s generalizing p with
  | nil => simp
  | cons ev s ih =>
    simp only [List.cons_append, Leads, ih]
    constructor
    · rintro ⟨p₁, hstep, p₂, hs, hu⟩
      exact ⟨p₂, ⟨p₁, hstep, hs⟩, hu⟩
    · rintro ⟨p₂, ⟨p₁, hstep, hs⟩, hu⟩
      exact ⟨p₁, hstep, p₂, hs, hu⟩

theorem leads_concat : c.Leads p (s ++ [ev]) q ↔ ∃ p', c.Leads p s p' ∧ c.Step p' ev q := by
  rw [leads_append]
  refine exists_congr fun p' => and_congr_right fun _ => ?_
  exact ⟨fun ⟨_, hstep, heq⟩ => heq ▸ hstep, fun hstep => ⟨q, hstep, rfl⟩⟩

/-- A word leads to one state at most. -/
theorem Leads.unique (hc : c.Deterministic) (h : c.Leads p s q) (h' : c.Leads p s q') : q = q' := by
  induction s generalizing p with
  | nil => exact h.symm.trans h'
  | cons ev s ih =>
    obtain ⟨p₁, hstep, hs⟩ := h
    obtain ⟨p₂, hstep', hs'⟩ := h'
    obtain rfl := hstep.unique hc hstep'
    exact ih hs hs'

/-- The state can be reached from the start of the product. -/
def Reachable (c : ControlProblem) (q : ProductState) : Prop := ∃ p s, c.IsStart p ∧ c.Leads p s q

theorem Reachable.step (h : c.Reachable p) (hstep : c.Step p ev q) : c.Reachable q := by
  obtain ⟨p₀, s, hstart, hs⟩ := h
  exact ⟨p₀, s ++ [ev], hstart, leads_concat.mpr ⟨p, hs, hstep⟩⟩

/-- The plant goes along with a run of the product, on the same events. -/
theorem Leads.plant_isPath (h : c.Leads p s q) :
    ∃ ts, c.plant.IsPath p.plant ts ∧ endOf p.plant ts = q.plant ∧ ts.map (·.event) = s := by
  induction s generalizing p with
  | nil => exact ⟨[], trivial, congrArg _ h, rfl⟩
  | cons ev s ih =>
    obtain ⟨p', hstep, hs⟩ := h
    obtain ⟨ts, hpath, hend, hevents⟩ := ih hs
    exact ⟨⟨p.plant, ev, p'.plant⟩ :: ts, ⟨hstep.plant_mem, rfl, hpath⟩, hend, by simp [hevents]⟩

/-! ## Infinite runs

The states of an infinite run are the states that both components visit, together
with the debt. Which debt this is follows from the states (`owedAt`), so any two
components that read a word give a run. -/

/-- Reading the infinite word `w`, the states `ps` of the product can be visited in turn. -/
def Reads (c : ControlProblem) (w : ℕ → EventId) (ps : ℕ → ProductState) : Prop :=
  ∀ n, c.Step (ps n) (w n) (ps (n + 1))

variable {w : ℕ → EventId} {ps : ℕ → ProductState}

theorem Reads.plant_reads (h : c.Reads w ps) : c.plant.Reads w fun n => (ps n).plant :=
  fun n => (h n).plant_mem

theorem Reads.spec_reads (h : c.Reads w ps) : c.spec.Reads w fun n => (ps n).spec :=
  fun n => (h n).spec_mem

/-- Beginnings of infinite runs are finite ones. -/
theorem Reads.leads (h : c.Reads w ps) (n : ℕ) : c.Leads (ps 0) (upTo w n) (ps n) := by
  induction n with
  | zero => rfl
  | succ n ih => exact upTo_succ n ▸ leads_concat.mpr ⟨ps n, ih, h n⟩

/-- Which marking is owed while plant and specification visit the given states. At
the start it is that of the plant. -/
def owedAt (c : ControlProblem) (xs ys : ℕ → StateId) : ℕ → Bool
  | 0 => true
  | n + 1 => owedNext c ⟨xs n, ys n, c.owedAt xs ys n⟩

/-- What both components can read, the product can read. -/
theorem reads_owedAt {xs ys : ℕ → StateId} (hxs : c.plant.Reads w xs) (hys : c.spec.Reads w ys) :
    c.Reads w fun n => ⟨xs n, ys n, c.owedAt xs ys n⟩ :=
  fun n => ⟨hxs n, hys n, rfl⟩

/-- If the debt has changed sides, it did so in one of the steps. -/
theorem exists_owed_ne {b : Bool} {n m : ℕ} (hnm : n ≤ m)
    (hn : (ps n).plantOwed = b) (hm : (ps m).plantOwed ≠ b) :
    ∃ k, n ≤ k ∧ k < m ∧ (ps k).plantOwed = b ∧ (ps (k + 1)).plantOwed ≠ b := by
  induction m, hnm using Nat.le_induction with
  | base => exact absurd hn hm
  | succ m hnm ih =>
    by_cases howed : (ps m).plantOwed = b
    · exact ⟨m, hnm, m.lt_succ_self, howed, hm⟩
    · obtain ⟨k, hnk, hkm, hk⟩ := ih howed
      exact ⟨k, hnk, hkm.trans m.lt_succ_self, hk⟩

/-- The debt changes sides when the marking of the plant is owed and visited, and
only then. -/
theorem Reads.plant_marked (h : c.Reads w ps) {n : ℕ} (hn : (ps n).plantOwed = true)
    (hn' : (ps (n + 1)).plantOwed ≠ true) : (ps n).plant ∈ c.plant.marked := by
  rw [(h n).owed_eq, owedNext, if_pos hn] at hn'
  simpa using hn'

/-- The debt changes sides when the marking of the specification is owed and visited. -/
theorem Reads.isMarked (h : c.Reads w ps) {n : ℕ} (hn : (ps n).plantOwed = false)
    (hn' : (ps (n + 1)).plantOwed ≠ false) : isMarked c.spec (ps n) = true := by
  rw [(h n).owed_eq, owedNext, hn] at hn'
  simpa [ControlledProduct.isMarked, hn] using hn'

/-- **One marking for two**: along a run of the product, marked states are visited
infinitely often if and only if the markings of both components are. A state is
marked when the debt of the specification is paid; after that the plant has to pay
before the next one. -/
theorem infinitelyOften_isMarked_iff (h : c.Reads w ps) :
    (InfinitelyOften fun n => ControlledProduct.isMarked c.spec (ps n) = true) ↔
      (InfinitelyOften fun n => (ps n).plant ∈ c.plant.marked) ∧
        InfinitelyOften fun n => (ps n).spec ∈ c.spec.marked := by
  have howed : ∀ {n}, ControlledProduct.isMarked c.spec (ps n) = true →
      (ps n).plantOwed = false ∧ (ps n).spec ∈ c.spec.marked := by
    intro n hn
    simpa [ControlledProduct.isMarked] using hn
  constructor
  · intro hmarked
    refine ⟨fun n => ?_, hmarked.mono fun n hn => (howed hn).2⟩
    -- between two marked states the marking of the plant is visited
    obtain ⟨m, hnm, hm⟩ := hmarked n
    obtain ⟨k, hmk, hk⟩ := hmarked (m + 1)
    have hnext : (ps (m + 1)).plantOwed = true := by
      rw [(h m).owed_eq, owedNext, (howed hm).1]
      simpa using (howed hm).2
    obtain ⟨i, hmi, -, hi, hi'⟩ := exists_owed_ne hmk hnext (by simp [(howed hk).1])
    exact ⟨i, by omega, h.plant_marked hi hi'⟩
  · rintro ⟨hplant, hspec⟩ n
    -- first the marking of the plant is paid, if it is owed, then that of the specification
    have hpaid : ∃ m, n ≤ m ∧ (ps m).plantOwed = false := by
      by_cases hn : (ps n).plantOwed = false
      · exact ⟨n, le_rfl, hn⟩
      · obtain ⟨m, hnm, hm⟩ := hplant n
        by_cases hm' : (ps m).plantOwed = false
        · exact ⟨m, hnm, hm'⟩
        · refine ⟨m + 1, by omega, ?_⟩
          rw [(h m).owed_eq, owedNext, if_pos (by simpa using hm')]
          simpa using hm
    obtain ⟨m, hnm, hm⟩ := hpaid
    obtain ⟨k, hmk, hk⟩ := hspec m
    by_cases hk' : (ps k).plantOwed = false
    · exact ⟨k, by omega, by simp [ControlledProduct.isMarked, hk', hk]⟩
    · obtain ⟨i, hmi, -, hi, hi'⟩ := exists_owed_ne hmk hm hk'
      exact ⟨i, by omega, h.isMarked hi hi'⟩

/-- What plant and specification both accept is what the product accepts. From left
to right the run is made up from the states that both visit; from right to left it
is taken apart. -/
theorem mem_acceptedWords_iff : (w ∈ c.plant.acceptedWords ∧ w ∈ c.spec.acceptedWords) ↔
    ∃ ps, c.IsStart (ps 0) ∧ c.Reads w ps ∧
      InfinitelyOften fun n => ControlledProduct.isMarked c.spec (ps n) = true := by
  constructor
  · rintro ⟨⟨xs, hxs, hreads, hplant⟩, ys, hys, hreads', hspec⟩
    have hr := reads_owedAt hreads hreads'
    refine ⟨fun n => ⟨xs n, ys n, c.owedAt xs ys n⟩, ⟨hxs, hys, rfl⟩, hr, ?_⟩
    exact (infinitelyOften_isMarked_iff hr).mpr ⟨hplant, hspec⟩
  · rintro ⟨ps, hstart, hr, hmarked⟩
    obtain ⟨hplant, hspec⟩ := (infinitelyOften_isMarked_iff hr).mp hmarked
    exact ⟨⟨fun n => (ps n).plant, hstart.plant_mem, hr.plant_reads, hplant⟩,
      ⟨fun n => (ps n).spec, hstart.spec_mem, hr.spec_reads, hspec⟩⟩

end OmegaControl.ControlProblem
