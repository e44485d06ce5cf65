import Mathlib.Tactic.Choose
import OmegaControl.Proofs.Numbering
import OmegaControl.Proofs.Traversal

/-!
# Automata of transition systems

Product and projection are built in the same way: values are collected by a walk,
each of them gets a state, and the steps between them become transitions. As long as
numbers do not run out, the result is the transition system, as an automaton
(`Unfolds`).

The construction goes in four steps, and each has a lemma that says what it adds and
what it leaves as it was: states for values (`insertStatesFor_spec`), initial states
(`setInitialFor_spec`), transitions (`insertSteps_spec`), and marked states, which
may get names along with their marks (`Marks.foldl`). `unfolds_of_blank` puts them
together.

Whatever is proved of products and projections later on is proved from `Unfolds`.
Which number a value has got is of no interest there, and neither is the order in
which the values were met.
-/

namespace OmegaControl

variable {α : Type} [Ord α] [Std.TransOrd α] [Std.LawfulEqOrd α]

namespace Automaton

/-- The states of `g` stand for the values that a walk from `starts` meets, each for one, and
its transitions for the steps between them. -/
structure Unfolds (g : Automaton) (numbers : Std.ExtTreeMap α StateId) (events : EventSet)
    (starts : List α) (steps : α → List (EventId × α)) (marks : α → Prop) : Prop where
  wellFormed : g.WellFormed
  alphabet_eq : g.alphabet = events
  /-- a state stands for one value only -/
  injective : ∀ {v w : α} {x : StateId}, numbers[v]? = some x → numbers[w]? = some x → v = w
  /-- the values with a number are those that can be met from the starts -/
  exists_number_iff : ∀ v, (∃ x, numbers[v]? = some x) ↔
    ∃ s ∈ starts, Traversal.Leads (fun v => (steps v).map (·.2)) s v
  mem_states : ∀ x, x ∈ g.states ↔ ∃ v : α, numbers[v]? = some x
  /-- initial are the states of the values that the walk starts from -/
  mem_initial : ∀ x, x ∈ g.initial ↔ ∃ v ∈ starts, numbers[v]? = some x
  /-- marked are the states of values that pass the test -/
  mem_marked : ∀ x, x ∈ g.marked ↔ ∃ v : α, numbers[v]? = some x ∧ marks v
  /-- each transition is a step between values with numbers -/
  mem_transitions : ∀ t, t ∈ g.transitions ↔ ∃ v w : α, numbers[v]? = some t.source ∧
    numbers[w]? = some t.target ∧ (t.event, w) ∈ steps v

omit [Std.LawfulEqOrd α] in
/-- The values that the states stand for. -/
theorem Unfolds.exists_value [Nonempty α] {g : Automaton} {numbers : Std.ExtTreeMap α StateId}
    {events : EventSet} {starts : List α} {steps : α → List (EventId × α)} {marks : α → Prop}
    (h : Unfolds g numbers events starts steps marks) :
    ∃ value : StateId → α, ∀ x ∈ g.states, numbers[value x]? = some x := by
  have hvalue : ∀ x ∈ g.states, ∃ v : α, numbers[v]? = some x := fun x hx => (h.mem_states x).mp hx
  choose! value hvalue using hvalue
  exact ⟨value, hvalue⟩

/-! ## Its parts, one after another
 -/

variable {g : Automaton} {numbers : Std.ExtTreeMap α StateId} {x y : StateId}

/-- Nothing is there yet. The alphabet and the names of events may have been copied
already. -/
structure IsBlank (g : Automaton) : Prop where
  wellFormed : g.WellFormed
  nextState_eq : g.nextState = 1
  not_mem_states : ∀ x, x ∉ g.states
  not_mem_initial : ∀ x, x ∉ g.initial
  not_mem_marked : ∀ x, x ∉ g.marked
  not_mem_transitions : ∀ t, t ∉ g.transitions

omit [Std.LawfulEqOrd α] in
/-- No number has been given yet. -/
theorem IsBlank.isNumbering (hg : g.IsBlank) : g.IsNumbering (∅ : Std.ExtTreeMap α StateId) := by
  refine ⟨hg.wellFormed, hg.nextState_eq, fun hv => ?_, fun hv => ?_⟩
  · rw [Std.ExtTreeMap.getElem?_empty] at hv
    cases hv
  · rw [Std.ExtTreeMap.getElem?_empty] at hv
    cases hv

/-- An automaton with events only, however they are named. -/
theorem isBlank_new (name : String) (events : EventSet) (other : Automaton) (enabled : Bool) :
    ((((new name).insertEvents events).copyEventNames other).setStateNamesEnabled
      enabled).IsBlank ∧
    ((((new name).insertEvents events).copyEventNames other).setStateNamesEnabled
      enabled).alphabet = events := by
  obtain ⟨names, hnames⟩ := copyEventNames_eq ((new name).insertEvents events) other
  have hwf := ((WellFormed.new name).insertEvents events).copyEventNames other
  rw [hnames] at hwf ⊢
  refine ⟨⟨hwf.setStateNamesEnabled _, rfl, fun _ => IdentSet.not_mem_empty,
    fun _ => IdentSet.not_mem_empty, fun _ => IdentSet.not_mem_empty,
    fun _ => Std.ExtTreeSet.not_mem_empty⟩, ?_⟩
  exact IdentSet.ext fun ev => IdentSet.mem_union.trans (or_iff_right IdentSet.not_mem_empty)

/-- The states that are added are those with a number. No value of the list has a
number already, so none gets two. -/
theorem states_foldl_insertState {values : List α} (hnodup : values.Nodup)
    (hnew : ∀ v ∈ values, v ∉ numbers)
    (hstates : ∀ x, x ∈ g.states ↔ ∃ v : α, numbers[v]? = some x) :
    let out := values.foldl (fun (g, numbers) v =>
      let (x, g) := g.insertState
      (g, numbers.insert v x)) (g, numbers)
    (∀ x, x ∈ out.1.states ↔ ∃ v : α, out.2[v]? = some x) ∧ out.1.initial = g.initial ∧
      out.1.marked = g.marked ∧ out.1.alphabet = g.alphabet := by
  induction values generalizing g numbers with
  | nil => exact ⟨hstates, rfl, rfl, rfl⟩
  | cons v values ih =>
    obtain ⟨hv, hnodup⟩ := List.nodup_cons.mp hnodup
    refine ih hnodup (fun w hw hmem => ?_) fun x => ?_
    · rw [Std.ExtTreeMap.mem_insert, Std.compare_eq_iff_eq] at hmem
      exact hmem.elim (fun heq => hv (heq ▸ hw)) (hnew w (List.mem_cons_of_mem v hw))
    · change x ∈ g.states.insert g.freshState ↔ _
      simp only [IdentSet.mem_insert, hstates, getElem?_insert_iff]
      constructor
      · rintro (rfl | ⟨w, hw⟩)
        · exact ⟨v, .inl ⟨rfl, rfl⟩⟩
        · refine ⟨w, .inr ⟨?_, hw⟩⟩
          rintro rfl
          refine hnew w List.mem_cons_self (Std.ExtTreeMap.mem_iff_isSome_getElem?.mpr ?_)
          rw [hw]
          rfl
      · rintro ⟨w, ⟨-, rfl⟩ | ⟨-, hw⟩⟩
        · exact .inl rfl
        · exact .inr ⟨w, hw⟩

/-- Making states initial changes nothing else. They have to be there already, since
otherwise they would be inserted. -/
theorem foldl_setInitialState {xs : List StateId} (hxs : ∀ x ∈ xs, x ∈ g.states) :
    (∀ x, x ∈ (xs.foldl setInitialState g).states ↔ x ∈ g.states) ∧
      (∀ x, x ∈ (xs.foldl setInitialState g).initial ↔ x ∈ xs ∨ x ∈ g.initial) ∧
      (xs.foldl setInitialState g).marked = g.marked ∧
      (xs.foldl setInitialState g).transitions = g.transitions ∧
      (xs.foldl setInitialState g).alphabet = g.alphabet := by
  induction xs generalizing g with
  | nil => simp
  | cons x xs ih =>
    obtain ⟨hx, hxs⟩ := List.forall_mem_cons.mp hxs
    have hstates : ∀ y, y ∈ (g.setInitialState x).states ↔ y ∈ g.states := fun y => by
      change y ∈ g.states.insert x ↔ _
      rw [IdentSet.mem_insert]
      exact or_iff_right_of_imp fun h => h ▸ hx
    obtain ⟨hs, hi, hm, ht, ha⟩ := ih fun y hy => (hstates y).mpr (hxs y hy)
    refine ⟨fun y => (hs y).trans (hstates y), fun y => (hi y).trans ?_, hm, ht, ha⟩
    change _ ∨ y ∈ g.initial.insert x ↔ _
    rw [IdentSet.mem_insert, List.mem_cons]
    tauto

/-- Transitions between states, on events of the alphabet, add neither states nor
events. -/
theorem foldl_insertTransition {ts : List Transition}
    (hts : ∀ t ∈ ts, t.source ∈ g.states ∧ t.target ∈ g.states ∧ t.event ∈ g.alphabet) :
    (∀ x, x ∈ (ts.foldl insertTransition g).states ↔ x ∈ g.states) ∧
      (ts.foldl insertTransition g).initial = g.initial ∧
      (ts.foldl insertTransition g).marked = g.marked ∧
      (ts.foldl insertTransition g).alphabet = g.alphabet := by
  induction ts generalizing g with
  | nil => simp
  | cons t ts ih =>
    obtain ⟨⟨hsource, htarget, hev⟩, hts⟩ := List.forall_mem_cons.mp hts
    have hstates : ∀ y, y ∈ (g.insertTransition t).states ↔ y ∈ g.states := fun y => by
      change y ∈ (g.states.insert t.source).insert t.target ↔ _
      rw [IdentSet.mem_insert, IdentSet.mem_insert]
      refine ⟨?_, fun hy => .inr (.inr hy)⟩
      rintro (rfl | rfl | hy)
      · exact htarget
      · exact hsource
      · exact hy
    have halphabet : (g.insertTransition t).alphabet = g.alphabet := by
      change g.alphabet.insert t.event = _
      refine IdentSet.ext fun ev => ?_
      rw [IdentSet.mem_insert]
      exact or_iff_right_of_imp fun h => h ▸ hev
    obtain ⟨hs, hi, hm, ha⟩ := ih fun u hu => by
      rw [hstates, hstates, halphabet]
      exact hts u hu
    exact ⟨fun y => (hs y).trans (hstates y), hi, hm, ha.trans halphabet⟩

/-- The edit marks the state of a value if the value passes a test, and does no more than
that, but for names. -/
structure Marks {β : Type} (f : Automaton → β → Automaton) (number : β → StateId)
    (test : β → Prop) : Prop where
  wellFormed : ∀ {g b}, g.WellFormed → (f g b).WellFormed
  mem_states : ∀ {g b}, number b ∈ g.states → ∀ x, x ∈ (f g b).states ↔ x ∈ g.states
  initial : ∀ {g b}, (f g b).initial = g.initial
  transitions : ∀ {g b}, (f g b).transitions = g.transitions
  alphabet : ∀ {g b}, (f g b).alphabet = g.alphabet
  /-- the states that were marked stay so -/
  mem_marked : ∀ {g b} x, x ∈ (f g b).marked ↔ x ∈ g.marked ∨ (x = number b ∧ test b)

/-- Going through a list of values with such an edit. Each value says for itself
whether its number passes, so a state is marked if some value with its number does. -/
theorem Marks.foldl {β : Type} {f : Automaton → β → Automaton} {number : β → StateId}
    {test : β → Prop} (hf : Marks f number test) {bs : List β} (hg : g.WellFormed)
    (hbs : ∀ b ∈ bs, number b ∈ g.states) :
    (bs.foldl f g).WellFormed ∧ (∀ x, x ∈ (bs.foldl f g).states ↔ x ∈ g.states) ∧
      (bs.foldl f g).initial = g.initial ∧ (bs.foldl f g).transitions = g.transitions ∧
      (bs.foldl f g).alphabet = g.alphabet ∧
      ∀ x, x ∈ (bs.foldl f g).marked ↔ x ∈ g.marked ∨ ∃ b ∈ bs, x = number b ∧ test b := by
  induction bs generalizing g with
  | nil => simp [hg]
  | cons b bs ih =>
    obtain ⟨hb, hbs⟩ := List.forall_mem_cons.mp hbs
    have hstates := hf.mem_states hb
    obtain ⟨hwf, hs, hi, ht, ha, hm⟩ :=
      ih (hf.wellFormed hg) fun b' hb' => (hstates _).mpr (hbs b' hb')
    refine ⟨hwf, fun x => (hs x).trans (hstates x), hi.trans hf.initial, ht.trans hf.transitions,
      ha.trans hf.alphabet, fun x => (hm x).trans ?_⟩
    rw [hf.mem_marked]
    simp only [List.mem_cons, exists_eq_or_imp, or_assoc]

/-- Marking the states that pass a test. The state is there already, so nothing is
inserted and only the marks change. -/
theorem marks_setMarkedState {β : Type} (number : β → StateId) (test : β → Prop)
    [DecidablePred test] :
    Marks (fun g b => if test b then g.setMarkedState (number b) else g) number test where
  wellFormed hg := by
    split
    · exact hg.setMarkedState _
    · exact hg
  mem_states hb x := by
    split
    · exact IdentSet.mem_insert.trans (or_iff_right_of_imp fun h => h ▸ hb)
    · exact Iff.rfl
  initial {g b} := by split <;> rfl
  transitions {g b} := by split <;> rfl
  alphabet {g b} := by split <;> rfl
  mem_marked x := by
    split
    next hmarks => exact IdentSet.mem_insert.trans (by tauto)
    next hmarks => tauto

/-- States may be named on the way. Names are the only thing that the two edits
differ in. -/
theorem Marks.of_names {β : Type} {f f' : Automaton → β → Automaton} {number : β → StateId}
    {test : β → Prop} (hf : Marks f number test)
    (hwf : ∀ {g b}, (f g b).WellFormed → (f' g b).WellFormed)
    (hnames : ∀ g b, ∃ names, f' g b = { f g b with stateNames := names }) :
    Marks f' number test where
  wellFormed hg := hwf (hf.wellFormed hg)
  mem_states {g b} hb x := by
    obtain ⟨names, heq⟩ := hnames g b
    rw [heq]
    exact hf.mem_states hb x
  initial {g b} := by
    obtain ⟨names, heq⟩ := hnames g b
    exact (congrArg Automaton.initial heq).trans hf.initial
  transitions {g b} := by
    obtain ⟨names, heq⟩ := hnames g b
    exact (congrArg Automaton.transitions heq).trans hf.transitions
  alphabet {g b} := by
    obtain ⟨names, heq⟩ := hnames g b
    exact (congrArg Automaton.alphabet heq).trans hf.alphabet
  mem_marked {g b} x := by
    obtain ⟨names, heq⟩ := hnames g b
    rw [heq]
    exact hf.mem_marked x

/-! ## Putting them together
 -/

/-- The values of a list get states, one each, and there are no others. -/
theorem insertStatesFor_spec {values : List α} (hg : g.IsBlank) (hnodup : values.Nodup)
    (hsize : values.length < UInt32.size) :
    (g.insertStatesFor values).1.IsNumbering (g.insertStatesFor values).2 ∧
      (∀ v, (∃ x, (g.insertStatesFor values).2[v]? = some x) ↔ v ∈ values) ∧
      (∀ x, x ∈ (g.insertStatesFor values).1.states ↔
        ∃ v : α, (g.insertStatesFor values).2[v]? = some x) ∧
      (g.insertStatesFor values).1.initial = g.initial ∧
      (g.insertStatesFor values).1.marked = g.marked ∧
      (g.insertStatesFor values).1.transitions = g.transitions ∧
      (g.insertStatesFor values).1.alphabet = g.alphabet := by
  obtain ⟨hnumbers, htransitions, hmem⟩ := isNumbering_insertStatesFor hnodup hsize hg.isNumbering
  obtain ⟨hstates, hinitial, hmarked, halphabet⟩ :=
    states_foldl_insertState hnodup (fun _ _ => Std.ExtTreeMap.not_mem_empty) (g := g) (fun x => by
      simpa using hg.not_mem_states x)
  refine ⟨hnumbers, fun v => ?_, hstates, hinitial, hmarked, htransitions, halphabet⟩
  rw [← hmem v, Std.ExtTreeMap.mem_iff_isSome_getElem?, Option.isSome_iff_exists]

omit [Std.LawfulEqOrd α] in
/-- Values without a number are passed over. -/
theorem setInitialFor_spec (hg : g.WellFormed)
    (hstates : ∀ {v : α} {x : StateId}, numbers[v]? = some x → x ∈ g.states) (starts : List α) :
    (g.setInitialFor numbers starts).WellFormed ∧
      (∀ x, x ∈ (g.setInitialFor numbers starts).states ↔ x ∈ g.states) ∧
      (∀ x, x ∈ (g.setInitialFor numbers starts).initial ↔
        (∃ v ∈ starts, numbers[v]? = some x) ∨ x ∈ g.initial) ∧
      (g.setInitialFor numbers starts).marked = g.marked ∧
      (g.setInitialFor numbers starts).transitions = g.transitions ∧
      (g.setInitialFor numbers starts).alphabet = g.alphabet := by
  have hnumbered : ∀ x ∈ starts.filterMap (numbers[·]?), x ∈ g.states := by
    intro x hx
    obtain ⟨v, -, hv⟩ := List.mem_filterMap.mp hx
    exact hstates hv
  obtain ⟨hs, hi, hm, ht, ha⟩ := foldl_setInitialState hnumbered
  refine ⟨?_, hs, fun x => ?_, hm, ht, ha⟩
  · exact List.foldlRecOn (motive := WellFormed) _ _ hg fun _ hg x _ => hg.setInitialState x
  · exact (hi x).trans (or_congr_left List.mem_filterMap)

/-- Steps to values without a number are left out; of a walk there are none. -/
theorem insertSteps_spec (steps : α → List (EventId × α))
    (hstates : ∀ {v : α} {x : StateId}, numbers[v]? = some x → x ∈ g.states)
    (hevents : ∀ v, ∀ step ∈ steps v, step.1 ∈ g.alphabet) :
    (∀ x, x ∈ (g.insertSteps numbers steps).states ↔ x ∈ g.states) ∧
      (g.insertSteps numbers steps).initial = g.initial ∧
      (g.insertSteps numbers steps).marked = g.marked ∧
      (g.insertSteps numbers steps).alphabet = g.alphabet := by
  rw [insertSteps]
  refine foldl_insertTransition fun t ht => ?_
  simp only [List.mem_flatMap, List.mem_filterMap, Prod.exists, Option.map_eq_some_iff,
    Std.ExtTreeMap.mem_toList_iff_getElem?_eq_some] at ht
  obtain ⟨v, x, hv, ev, w, hstep, y, hw, rfl⟩ := ht
  exact ⟨hstates hv, hstates hw, hevents v (ev, w) hstep⟩

/-- **The automaton of a transition system**, built from its values in the order of
a walk. The order has no influence on what is built, except for the numbers. -/
theorem unfolds_of_blank [Bounded α] {order : Traversal.Order} {starts : List α}
    {steps : α → List (EventId × α)} {f : Automaton → α × StateId → Automaton} (marks : α → Prop)
    (hg : g.IsBlank) (hevents : ∀ v, ∀ step ∈ steps v, step.1 ∈ g.alphabet)
    (hsize : (Traversal.discover order (fun v => (steps v).map (·.2)) starts).length < UInt32.size)
    (hf : Marks f (·.2) fun b => marks b.1) {out : Automaton × Std.ExtTreeMap α StateId}
    (hout : g.insertStatesFor
      (Traversal.discover order (fun v => (steps v).map (·.2)) starts) = out) :
    Unfolds (out.2.toList.foldl f ((out.1.setInitialFor out.2 starts).insertSteps out.2 steps))
      out.2 g.alphabet starts steps marks := by
  -- four phases change one store each: states, initial states, transitions, marks
  obtain ⟨hnumbers, hmem, hstates, hinitial, hmarked, htransitions, halphabet⟩ :=
    insertStatesFor_spec hg Traversal.discover_nodup hsize
  rw [hout] at hnumbers hmem hstates hinitial hmarked htransitions halphabet
  obtain ⟨h, numbers⟩ := out
  dsimp only at hnumbers hmem hstates hinitial hmarked htransitions halphabet ⊢
  obtain ⟨hwf₁, hstates₁, hinitial₁, hmarked₁, htransitions₁, halphabet₁⟩ :=
    setInitialFor_spec hnumbers.wellFormed hnumbers.mem_states starts
  generalize h.setInitialFor numbers starts = h₁
    at hwf₁ hstates₁ hinitial₁ hmarked₁ htransitions₁ halphabet₁ ⊢
  obtain ⟨hstates₂, hinitial₂, hmarked₂, halphabet₂⟩ :=
    insertSteps_spec steps (fun hv => (hstates₁ _).mpr (hnumbers.mem_states hv))
      fun v step hstep => by
        rw [halphabet₁, halphabet]
        exact hevents v step hstep
  have hwf₂ := hwf₁.insertSteps numbers steps
  have htransitions₂ : ∀ t, t ∈ (h₁.insertSteps numbers steps).transitions ↔ _ := fun _ =>
    mem_transitions_insertSteps
  generalize h₁.insertSteps numbers steps = h₂
    at hwf₂ hstates₂ hinitial₂ hmarked₂ halphabet₂ htransitions₂ ⊢
  have hnumbered : ∀ b ∈ numbers.toList, b.2 ∈ h₂.states := fun b hb =>
    (hstates₂ _).mpr ((hstates₁ _).mpr
      (hnumbers.mem_states (Std.ExtTreeMap.mem_toList_iff_getElem?_eq_some.mp hb)))
  obtain ⟨hwf₃, hstates₃, hinitial₃, htransitions₃, halphabet₃, hmarked₃⟩ :=
    hf.foldl hwf₂ hnumbered
  refine ⟨hwf₃, ?_, hnumbers.injective, fun v => (hmem v).trans Traversal.mem_discover,
    fun x => ?_, fun x => ?_, fun x => ?_, fun t => ?_⟩
  · -- every part is carried back through the phases that do not touch it
    rw [halphabet₃, halphabet₂, halphabet₁, halphabet]
  · rw [hstates₃, hstates₂, hstates₁, hstates]
  · rw [hinitial₃, hinitial₂, hinitial₁, hinitial, or_iff_left (hg.not_mem_initial x)]
  · rw [hmarked₃, hmarked₂, hmarked₁, hmarked, or_iff_right (hg.not_mem_marked x)]
    constructor
    · rintro ⟨⟨v, x⟩, hv, rfl, hmark⟩
      exact ⟨v, Std.ExtTreeMap.mem_toList_iff_getElem?_eq_some.mp hv, hmark⟩
    · rintro ⟨v, hv, hmark⟩
      exact ⟨(v, x), Std.ExtTreeMap.mem_toList_iff_getElem?_eq_some.mpr hv, rfl, hmark⟩
  · rw [htransitions₃, htransitions₂, htransitions₁, htransitions,
      or_iff_left (hg.not_mem_transitions t)]

end Automaton

end OmegaControl
