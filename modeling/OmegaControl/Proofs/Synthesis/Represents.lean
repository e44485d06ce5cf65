import OmegaControl.Proofs.Reaching
import OmegaControl.Proofs.Synthesis.ProductRun

/-!
# Automata that represent a part of the product

All candidates of a synthesis are of one kind: their states stand for states of the
product, and they have all steps of the product between these (`Represents`). Taking
states away leaves an automaton of that kind (`Represents.of_isPart`), so a
candidate is described by the states of the product that it still has, and a run of
the product is a run of the candidate if it visits only those
(`Represents.exists_isPath`).

A candidate for a supervisor that does not see everything may have several states
for one of the product, and lack steps. Its runs are runs of the product all the
same (`Tracks`), which is enough to tell from them what is accepted
(`Tracks.infinitelyOften_marked_iff`).
-/

namespace OmegaControl.ControlProblem

/-- The states of `g` stand for states of the product, as told by `label`, and `g` has all
steps of the product between them. -/
structure Represents (c : ControlProblem) (g : Automaton) (label : StateId → ProductState) :
    Prop where
  wellFormed : g.WellFormed
  /-- different states stand for different ones -/
  label_injective : ∀ x ∈ g.states, ∀ y ∈ g.states, label x = label y → x = y
  /-- the start of the product is initial if it is still there -/
  mem_initial : ∀ x, x ∈ g.initial ↔ x ∈ g.states ∧ c.IsStart (label x)
  /-- marked are the states that are marked in the product -/
  mem_marked : ∀ x, x ∈ g.marked ↔
    x ∈ g.states ∧ ControlledProduct.isMarked c.spec (label x) = true
  /-- all steps between states that are there -/
  mem_transitions : ∀ t, t ∈ g.transitions ↔
    t.source ∈ g.states ∧ t.target ∈ g.states ∧ c.Step (label t.source) t.event (label t.target)

/-- The runs of `g` are runs of the product, and its marked states those that are
marked there. Whether `g` has all steps is left open, and so is whether different
states stand for different ones. -/
structure Tracks (c : ControlProblem) (g : Automaton) (label : StateId → ProductState) : Prop where
  wellFormed : g.WellFormed
  /-- it starts where the product starts -/
  start : ∀ x ∈ g.initial, c.IsStart (label x)
  /-- it is marked where the product is -/
  mem_marked : ∀ x, x ∈ g.marked ↔
    x ∈ g.states ∧ ControlledProduct.isMarked c.spec (label x) = true
  /-- it does what the product does -/
  step : ∀ t ∈ g.transitions, c.Step (label t.source) t.event (label t.target)

/-- The states of the product that the automaton still has. -/
def shown (g : Automaton) (label : StateId → ProductState) : Set ProductState :=
  {p | ∃ x ∈ g.states, label x = p}

/-! ## Runs

What holds of runs of the product is now said of paths. -/

namespace Tracks

variable {c : ControlProblem} {g : Automaton} {label : StateId → ProductState}
  {x : StateId} {ts : List Transition} {w : ℕ → EventId} {xs : ℕ → StateId}
  (hg : c.Tracks g label)
include hg

/-- A path is a run of the product. -/
theorem leads (hts : g.IsPath x ts) :
    c.Leads (label x) (ts.map (·.event)) (label (endOf x ts)) := by
  induction ts generalizing x with
  | nil => rfl
  | cons t ts ih =>
    obtain ⟨ht, rfl, hts⟩ := hts
    exact ⟨label t.target, hg.step t ht, ih hts⟩

/-- Words that lead to a state lead to the state of the product that it stands for. -/
theorem exists_leads {s : List EventId} (hs : g.Reaches s x) :
    ∃ p, c.IsStart p ∧ c.Leads p s (label x) := by
  obtain ⟨x₀, hx₀, ts, hts, rfl, rfl⟩ := hs
  exact ⟨label x₀, hg.start x₀ hx₀, hg.leads hts⟩

/-- A word leads to states that stand for the same state of the product, also if
they are states of two automata. -/
theorem label_eq (hc : c.WellPosed) {h : Automaton} {label' : StateId → ProductState} {y : StateId}
    {s : List EventId} (hh : c.Tracks h label') (hx : g.Reaches s x) (hy : h.Reaches s y) :
    label x = label' y := by
  obtain ⟨p, hp, hs⟩ := hg.exists_leads hx
  obtain ⟨p', hp', hs'⟩ := hh.exists_leads hy
  obtain rfl := hp.unique hc.deterministic hp'
  exact hs.unique hc.deterministic hs'

/-! ## Debts along a cycle

On a cycle all debts are paid again and again, if a marked state is visited. This is
what the test for relative closedness comes down to. -/

/-- If the marking of the plant is owed at first and not in the end, it has been visited. -/
theorem exists_plant_marked (hts : g.IsPath x ts)
    (howed : (label x).plantOwed = true) (hend : (label (endOf x ts)).plantOwed = false) :
    (label x).plant ∈ c.plant.marked ∨ ∃ t ∈ ts, (label t.target).plant ∈ c.plant.marked := by
  induction ts generalizing x with
  | nil =>
    rw [endOf_nil, howed] at hend
    cases hend
  | cons t ts ih =>
    obtain ⟨ht, rfl, hts⟩ := hts
    by_cases hmarked : (label t.source).plant ∈ c.plant.marked
    · exact .inl hmarked
    · have hnext : (label t.target).plantOwed = true := by
        rw [(hg.step t ht).owed_eq, ControlledProduct.owedNext, if_pos howed]
        exact decide_eq_true hmarked
      rcases ih hts hnext hend with htarget | ⟨u, hu, htarget⟩
      · exact .inr ⟨t, List.mem_cons_self, htarget⟩
      · exact .inr ⟨u, List.mem_cons_of_mem t hu, htarget⟩

/-- A cycle that visits marked states visits the marking of the plant: after a marked state
it is owed, and in a marked state it is not. -/
theorem exists_plant_marked_of_cycle (hx : x ∈ g.marked)
    (hne : ts ≠ []) (hts : g.IsPath x ts) (hcycle : endOf x ts = x) :
    ∃ t ∈ ts, (label t.target).plant ∈ c.plant.marked := by
  obtain ⟨t, ts, rfl⟩ := List.exists_cons_of_ne_nil hne
  obtain ⟨ht, rfl, hts⟩ := hts
  have hmarked : (label t.source).plantOwed = false ∧ (label t.source).spec ∈ c.spec.marked := by
    simpa [ControlledProduct.isMarked] using ((hg.mem_marked _).mp hx).2
  have hnext : (label t.target).plantOwed = true := by
    rw [(hg.step t ht).owed_eq, ControlledProduct.owedNext, hmarked.1]
    exact decide_eq_true hmarked.2
  rw [endOf_cons] at hcycle
  rcases hg.exists_plant_marked hts hnext (hcycle ▸ hmarked.1) with htarget | ⟨u, hu, htarget⟩
  · exact ⟨t, List.mem_cons_self, htarget⟩
  · exact ⟨u, List.mem_cons_of_mem t hu, htarget⟩

/-! ## Infinite runs

Acceptance is a matter of both components once more. -/

/-- Reading an infinite word is an infinite run of the product. -/
theorem reads (hr : g.Reads w xs) : c.Reads w fun n => label (xs n) :=
  fun n => hg.step ⟨xs n, w n, xs (n + 1)⟩ (hr n)

/-- **Acceptance**: an infinite word that is read is accepted if and only if the markings
of both components are visited infinitely often. -/
theorem infinitelyOften_marked_iff (hr : g.Reads w xs) :
    (InfinitelyOften fun n => xs n ∈ g.marked) ↔
      (InfinitelyOften fun n => (label (xs n)).plant ∈ c.plant.marked) ∧
        InfinitelyOften fun n => (label (xs n)).spec ∈ c.spec.marked := by
  rw [← infinitelyOften_isMarked_iff (hg.reads hr)]
  have hstates : ∀ n, xs n ∈ g.states := fun n =>
    hg.wellFormed.source_mem ⟨xs n, w n, xs (n + 1)⟩ (hr n)
  simp only [hg.mem_marked, hstates, true_and]

end Tracks

/-! ## Parts of the product

If all steps between the states that are left are there, nothing but the states has
to be told. -/

namespace Represents

variable {c : ControlProblem} {g h : Automaton} {label : StateId → ProductState}
  {x y : StateId} {ts : List Transition}

/-- Taking states away leaves an automaton of the same kind. -/
theorem of_isPart (hg : c.Represents g label) (hpart : h.IsPart g) (hwf : h.WellFormed) :
    c.Represents h label where
  wellFormed := hwf
  label_injective x hx y hy :=
    hg.label_injective x (hpart.states_subset x hx) y (hpart.states_subset y hy)
  mem_initial x := by
    rw [hpart.mem_initial, hg.mem_initial]
    exact ⟨fun ⟨⟨_, hstart⟩, hx⟩ => ⟨hx, hstart⟩,
      fun ⟨hx, hstart⟩ => ⟨⟨hpart.states_subset x hx, hstart⟩, hx⟩⟩
  mem_marked x := by
    rw [hpart.mem_marked, hg.mem_marked]
    exact ⟨fun ⟨⟨_, hmarked⟩, hx⟩ => ⟨hx, hmarked⟩,
      fun ⟨hx, hmarked⟩ => ⟨⟨hpart.states_subset x hx, hmarked⟩, hx⟩⟩
  mem_transitions t := by
    rw [hpart.mem_transitions, hg.mem_transitions]
    exact ⟨fun ⟨⟨_, _, hstep⟩, hs, ht⟩ => ⟨hs, ht, hstep⟩, fun ⟨hs, ht, hstep⟩ =>
      ⟨⟨hpart.states_subset _ hs, hpart.states_subset _ ht, hstep⟩, hs, ht⟩⟩

variable (hg : c.Represents g label)
include hg

/-- In particular its runs are runs of the product. -/
theorem tracks : c.Tracks g label where
  wellFormed := hg.wellFormed
  start x hx := ((hg.mem_initial x).mp hx).2
  mem_marked := hg.mem_marked
  step t ht := ((hg.mem_transitions t).mp ht).2.2

/-- Two transitions from one state on one event lead to states that stand for the
same one. -/
theorem hasUniqueSuccessors (hc : c.WellPosed) : g.HasUniqueSuccessors := by
  intro s hs t ht hsource hevent
  obtain ⟨-, hst, hstep⟩ := (hg.mem_transitions s).mp hs
  obtain ⟨-, htt, hstep'⟩ := (hg.mem_transitions t).mp ht
  rw [hsource, hevent] at hstep
  have htarget := hg.label_injective _ hst _ htt (hstep.unique hc.deterministic hstep')
  cases s
  cases t
  simp_all

/-- There is one initial state at most. -/
theorem initial_unique (hc : c.WellPosed) (hx : x ∈ g.initial) (hy : y ∈ g.initial) : x = y := by
  obtain ⟨hx, hstartx⟩ := (hg.mem_initial x).mp hx
  obtain ⟨hy, hstarty⟩ := (hg.mem_initial y).mp hy
  exact hg.label_injective x hx y hy (hstartx.unique hc.deterministic hstarty)

/-- So it is deterministic, like the components. -/
theorem isDeterministic (hc : c.WellPosed) : g.IsDeterministic :=
  (hg.hasUniqueSuccessors hc).isDeterministic
    (IdentSet.size_le_one_of_forall_eq fun _ hx _ hy => hg.initial_unique hc hx hy)

/-- Plant and `g` start together, so a walk through both starts there. -/
theorem initialPair?_eq (hc : c.WellPosed) (hx : x ∈ g.initial) :
    initialPair? c.plant g = some ⟨(label x).plant, x⟩ :=
  (initialPair?_eq_some_iff hc.plant_isDeterministic (hg.isDeterministic hc)).mpr
    ⟨((hg.mem_initial x).mp hx).2.plant_mem, hx⟩

/-- A run of the product that visits only states that `g` still has is a path. -/
theorem exists_isPath {s : List EventId} {q : ProductState} (hx : x ∈ g.states)
    (hshown : ∀ u q', u <+: s → c.Leads (label x) u q' → q' ∈ shown g label)
    (hs : c.Leads (label x) s q) :
    ∃ ts, g.IsPath x ts ∧ ts.map (·.event) = s ∧ label (endOf x ts) = q := by
  induction s generalizing x with
  | nil => exact ⟨[], trivial, rfl, hs⟩
  | cons ev s ih =>
    obtain ⟨p', hstep, hs⟩ := hs
    obtain ⟨y, hy, rfl⟩ := hshown [ev] p' (List.prefix_append [ev] s) ⟨p', hstep, rfl⟩
    have ht : ⟨x, ev, y⟩ ∈ g.transitions := (hg.mem_transitions _).mpr ⟨hx, hy, hstep⟩
    obtain ⟨ts, hts, hevents, hend⟩ := ih hy (fun u q' hu hq' =>
      hshown (ev :: u) q' (List.prefix_cons_inj ev |>.mpr hu) ⟨label y, hstep, hq'⟩) hs
    exact ⟨⟨x, ev, y⟩ :: ts, ⟨ht, rfl, hts⟩, by simp [hevents], hend⟩

end Represents

end OmegaControl.ControlProblem
