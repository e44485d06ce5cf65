import OmegaControl.Controllability
import OmegaControl.Proofs.JoinByEvent
import OmegaControl.Proofs.Reaching

/-!
# What the test for controllability finds

The test goes along with plant and candidate and reports the states of the candidate
that disable an uncontrollable event of the plant (`Disables`). In a pair of states
it takes the events in ascending order and is done with the first one that is
disabled, so it goes on only with the events before that. The words that it follows
are those that come before all disabled events on their way (`Unhindered`), and what
it reports is what disables an event after such a word (`mem_violatingStates_iff`).
Hence not every state that disables an event is reported
(`not_mem_violatingStates_failingMachine`).

Whether something is reported does not depend on that: along any common word, the
first pair in which an event is disabled is found, since up to there nothing hinders
the word. So the test succeeds if and only if the candidate disables nothing after
any common word, that is, if its words are controllable (`isControllable_iff`).

Both automata should be deterministic. Then a common word leads to one pair of
states, and what is disabled in a pair can be said of words (`disables_iff`).
-/

namespace OmegaControl

open Automaton

variable {plant cand : Automaton} {controllable : EventSet} {p q start : StatePair}
  {s : List EventId} {x y : StateId} {ev : EventId}

/-- In this pair of states, the candidate disables the uncontrollable event `ev`
that the plant enables. This is what should not happen in any pair that a common
word leads to. -/
def Disables (plant : Automaton) (controllable : EventSet) (cand : Automaton) (p : StatePair)
    (ev : EventId) : Prop :=
  ev ∉ controllable ∧ (∃ y, ⟨p.left, ev, y⟩ ∈ plant.transitions) ∧
    ∀ x, ⟨p.right, ev, x⟩ ∉ cand.transitions

/-- Wherever the word comes by on its way, it goes on with an event before all those
that the candidate disables there. Events are ordered by their numbers, so this is
about how events happen to be numbered, and not only about what they mean. -/
def Unhindered (plant : Automaton) (controllable : EventSet) (cand : Automaton)
    (s : List EventId) : Prop :=
  ∀ u ev, u ++ [ev] <+: s → ∀ p : StatePair, plant.Reaches u p.left → cand.Reaches u p.right →
    ∀ ev', Disables plant controllable cand p ev' → ev.index < ev'.index

/-- There is no way to come by anything yet. -/
theorem unhindered_nil : Unhindered plant controllable cand [] := fun _ _ h => by
  simp at h

/-- A word is followed to its end if it is followed up to the last event, and that
event comes first. -/
theorem unhindered_concat : Unhindered plant controllable cand (s ++ [ev]) ↔
    Unhindered plant controllable cand s ∧
      ∀ p : StatePair, plant.Reaches s p.left → cand.Reaches s p.right →
        ∀ ev', Disables plant controllable cand p ev' → ev.index < ev'.index := by
  constructor
  · exact fun h => ⟨fun u ev' hu => h u ev' (hu.trans (List.prefix_append s [ev])),
      h s ev List.prefix_rfl⟩
  · rintro ⟨hs, hlast⟩ u ev' hu
    rcases List.prefix_concat_iff.mp hu with heq | hu
    · obtain ⟨rfl, hev⟩ := List.append_inj' heq rfl
      obtain rfl := List.singleton_inj.mp hev
      exact hlast
    · exact hs u ev' hu

/-- What comes before everything in an ordered list that fails a test. The first one
that fails is what the list is cut off at, and in an ordered list this is the least. -/
theorem mem_takeWhile_iff {α : Type} {r : α → α → Prop} {xs : List α} {pass : α → Bool} {x : α}
    (hasymm : ∀ x y, r x y → ¬r y x) (h : xs.Pairwise r) :
    x ∈ xs.takeWhile pass ↔ x ∈ xs ∧ ∀ y ∈ xs, pass y = false → r x y := by
  induction xs with
  | nil => simp
  | cons z xs ih =>
    obtain ⟨hz, hxs⟩ := List.pairwise_cons.mp h
    rw [List.forall_mem_cons]
    by_cases hpass : pass z = true
    · rw [List.takeWhile_cons_of_pos hpass, List.mem_cons, List.mem_cons, ih hxs]
      constructor
      · rintro (rfl | ⟨hx, hbefore⟩)
        · exact ⟨.inl rfl, fun hfail => absurd hpass (Bool.eq_false_iff.mp hfail),
            fun y hy _ => hz y hy⟩
        · exact ⟨.inr hx, fun hfail => absurd hpass (Bool.eq_false_iff.mp hfail), hbefore⟩
      · rintro ⟨rfl | hx, -, hbefore⟩
        · exact .inl rfl
        · exact .inr ⟨hx, hbefore⟩
    · rw [List.takeWhile_cons_of_neg hpass]
      refine ⟨fun hx => absurd hx List.not_mem_nil, fun ⟨hx, hbefore, _⟩ => ?_⟩
      have hxz := hbefore (Bool.eq_false_iff.mpr hpass)
      rcases List.mem_cons.mp hx with rfl | hx
      · exact absurd hxz (hasymm x x hxz)
      · exact absurd hxz (hasymm z x (hz x hx))

section

variable (hplant : plant.IsDeterministic) (hcand : cand.IsDeterministic)
include hplant hcand

/-! ## In one pair

The two lists of transitions are joined by event, and what is read is the beginning
of the join, up to the first event that only the plant has and that is not
controllable. -/

/-- After a common word, the candidate disables an event if only the plant goes on with it. -/
theorem disables_iff (hleft : plant.Reaches s p.left) (hright : cand.Reaches s p.right) :
    Disables plant controllable cand p ev ↔
      ev ∉ controllable ∧ s ++ [ev] ∈ plant.words ∧ s ++ [ev] ∉ cand.words := by
  rw [Disables, hplant.concat_mem_words hleft, hcand.concat_mem_words hright, not_exists]

/-- The join has an entry that breaks off the reading if and only if some event is
disabled. -/
theorem exists_violates_iff : (∃ j ∈ plant.joinAt cand p, j.violates controllable = true ∧
    j.event = ev) ↔ Disables plant controllable cand p ev := by
  constructor
  · rintro ⟨j, hj, hviolates, rfl⟩
    cases j with
    | both l r => cases hviolates
    | left l =>
      obtain ⟨⟨hl, hsource⟩, hnone⟩ :=
        (left_mem_joinAt_iff hplant.hasUniqueSuccessors hcand.hasUniqueSuccessors).mp hj
      exact ⟨of_decide_eq_true hviolates, ⟨l.target, mk_mem_transitions hl hsource⟩,
        fun x hr => hnone _ hr rfl rfl⟩
    | right r => cases hviolates
  · rintro ⟨hev, ⟨y, hl⟩, hnone⟩
    refine ⟨.left ⟨p.left, ev, y⟩, ?_, decide_eq_true hev, rfl⟩
    refine (left_mem_joinAt_iff hplant.hasUniqueSuccessors hcand.hasUniqueSuccessors).mpr
      ⟨⟨hl, rfl⟩, ?_⟩
    rintro ⟨x, _, z⟩ hr rfl rfl
    exact hnone z hr

/-- Where the test goes on to: by the events before those that are disabled. A
common event after them is not read any more. -/
theorem mem_compliantTargets : q ∈ compliantTargets plant controllable cand p ↔
    ∃ ev, ⟨p.left, ev, q.left⟩ ∈ plant.transitions ∧ ⟨p.right, ev, q.right⟩ ∈ cand.transitions ∧
      ∀ ev', Disables plant controllable cand p ev' → ev.index < ev'.index := by
  -- the loop breaks off at the first violation, so only events before it are looked
  -- at
  have hbefore : ∀ {j}, j ∈ (plant.joinAt cand p).takeWhile (!·.violates controllable) ↔
      j ∈ plant.joinAt cand p ∧
        ∀ ev', Disables plant controllable cand p ev' → j.event.index < ev'.index := by
    intro j
    rw [mem_takeWhile_iff (fun _ _ => Nat.lt_asymm)
      (joinAt_ascends hplant.hasUniqueSuccessors hcand.hasUniqueSuccessors p)]
    simp only [← exists_violates_iff hplant hcand, Bool.not_eq_false', forall_exists_index, and_imp]
    exact and_congr_right fun _ =>
      ⟨fun h ev' i hi hviolates heq => heq ▸ h i hi hviolates, fun h i hi hviolates =>
        h i.event i hi hviolates rfl⟩
  rw [compliantTargets, List.mem_filterMap]
  simp only [hbefore]
  constructor
  · rintro ⟨j, ⟨hj, hfirst⟩, htarget⟩
    cases j with
    | both l r =>
      obtain ⟨⟨hl, hlsource⟩, ⟨hr, hrsource⟩, hevent⟩ :=
        (both_mem_joinAt_iff hplant.hasUniqueSuccessors hcand.hasUniqueSuccessors).mp hj
      obtain rfl := Option.some.inj htarget
      exact ⟨l.event, mk_mem_transitions hl hlsource, hevent ▸ mk_mem_transitions hr hrsource, hfirst⟩
    | left l => cases htarget
    | right r => cases htarget
  · rintro ⟨ev, hl, hr, hfirst⟩
    refine ⟨.both ⟨p.left, ev, q.left⟩ ⟨p.right, ev, q.right⟩, ⟨?_, hfirst⟩, rfl⟩
    exact (both_mem_joinAt_iff hplant.hasUniqueSuccessors hcand.hasUniqueSuccessors).mpr
      ⟨⟨hl, rfl⟩, ⟨hr, rfl⟩, rfl⟩

/-! ## Along words
 -/

/-- The pairs that the test finds are those that unhindered words lead to. One way,
the induction is on how the pair was found; the other way, on the word. -/
theorem leads_iff_exists_unhindered (hstart : initialPair? plant cand = some start) :
    Traversal.Leads (compliantTargets plant controllable cand) start p ↔
      ∃ s, plant.Reaches s p.left ∧ cand.Reaches s p.right ∧
        Unhindered plant controllable cand s := by
  obtain ⟨hleft₀, hright₀⟩ := (initialPair?_eq_some_iff hplant hcand).mp hstart
  constructor
  · -- a chain of steps spells out a word
    intro hleads
    induction hleads with
    | refl => exact ⟨[], reaches_nil.mpr hleft₀, reaches_nil.mpr hright₀, unhindered_nil⟩
    | tail _ hstep ih =>
      obtain ⟨s, hleft, hright, hs⟩ := ih
      obtain ⟨ev, hl, hr, hfirst⟩ := (mem_compliantTargets hplant hcand).mp hstep
      refine ⟨s ++ [ev], hleft.concat hl, hright.concat hr, unhindered_concat.mpr ⟨hs, ?_⟩⟩
      rintro ⟨y, x⟩ hy hx
      obtain rfl := hplant.reaches_unique hleft hy
      obtain rfl := hcand.reaches_unique hright hx
      exact hfirst
  · rintro ⟨s, hleft, hright, hs⟩
    -- conversely each prefix of a word leads to one pair only, the one the chain
    -- has reached
    induction s using List.reverseRecOn generalizing p with
    | nil =>
      obtain ⟨y, x⟩ := p
      obtain rfl := hplant.initial_unique (reaches_nil.mp hleft) hleft₀
      obtain rfl := hcand.initial_unique (reaches_nil.mp hright) hright₀
      exact .refl
    | append_singleton s ev ih =>
      obtain ⟨y, hy, hl⟩ := reaches_concat.mp hleft
      obtain ⟨x, hx, hr⟩ := reaches_concat.mp hright
      obtain ⟨hs, hfirst⟩ := unhindered_concat.mp hs
      refine (ih (p := ⟨y, x⟩) hy hx hs).tail ?_
      exact (mem_compliantTargets hplant hcand).mpr ⟨ev, hl, hr, hfirst ⟨y, x⟩ hy hx⟩

/-- A common word starts in a pair of initial states, and for deterministic automata
that is the pair the test starts with. -/
theorem exists_initialPair (hleft : plant.Reaches s y) (hright : cand.Reaches s x) :
    ∃ start, initialPair? plant cand = some start := by
  obtain ⟨y₀, hy₀, -⟩ := hleft
  obtain ⟨x₀, hx₀, -⟩ := hright
  exact ⟨⟨y₀, x₀⟩, (initialPair?_eq_some_iff hplant hcand).mpr ⟨hy₀, hx₀⟩⟩

/-- What is reported, in terms of pairs that are found: the states of pairs that
disable an event. No pair is looked at that is reached only past the first violation
of another one. -/
theorem mem_violatingStates : x ∈ violatingStates plant controllable cand ↔
    ∃ start, initialPair? plant cand = some start ∧
      ∃ y, Traversal.Leads (compliantTargets plant controllable cand) start ⟨y, x⟩ ∧
        ∃ ev, Disables plant controllable cand ⟨y, x⟩ ev := by
  have hany : ∀ p, (plant.joinAt cand p).any (·.violates controllable) = true ↔
      ∃ ev, Disables plant controllable cand p ev := by
    intro p
    simp only [← exists_violates_iff hplant hcand, List.any_eq_true]
    exact ⟨fun ⟨j, hj, hviolates⟩ => ⟨_, j, hj, hviolates, rfl⟩,
      fun ⟨_, j, hj, hviolates, _⟩ => ⟨j, hj, hviolates⟩⟩
  rw [violatingStates]
  split
  next hnone => simp [hnone, IdentSet.not_mem_empty]
  next start hstart =>
    simp only [hstart, Option.some.injEq, exists_eq_left', IdentSet.mem_ofList, List.mem_map,
      List.mem_filter, hany, Traversal.mem_reachable, List.mem_singleton, exists_eq_left]
    constructor
    · rintro ⟨⟨y, x⟩, hp, rfl⟩
      exact ⟨y, hp⟩
    · rintro ⟨y, hp⟩
      exact ⟨⟨y, x⟩, hp, rfl⟩

/-- **What is reported**: the states that disable an uncontrollable event after a common word that
comes, on its way, before all events that are disabled. -/
theorem mem_violatingStates_iff : x ∈ violatingStates plant controllable cand ↔
    ∃ s y, plant.Reaches s y ∧ cand.Reaches s x ∧ Unhindered plant controllable cand s ∧
      ∃ ev, Disables plant controllable cand ⟨y, x⟩ ev := by
  rw [mem_violatingStates hplant hcand]
  constructor
  · rintro ⟨start, hstart, y, hleads, hdisables⟩
    obtain ⟨s, hleft, hright, hs⟩ := (leads_iff_exists_unhindered hplant hcand hstart).mp hleads
    exact ⟨s, y, hleft, hright, hs, hdisables⟩
  · rintro ⟨s, y, hleft, hright, hs, hdisables⟩
    obtain ⟨start, hstart⟩ := exists_initialPair hplant hcand hleft hright
    exact ⟨start, hstart, y, (leads_iff_exists_unhindered hplant hcand hstart).mpr
      ⟨s, hleft, hright, hs⟩, hdisables⟩

end

/-! ## A state that is not reported
 -/

/-- A machine that fails whenever it has been started, and then is started again as
it is. In both of its last states it disables something that the plant does. -/
def Automaton.failingMachine : Automaton :=
  (((Automaton.new "failing").insertTransition ⟨⟨1⟩, ⟨1⟩, ⟨2⟩⟩).insertTransition
    ⟨⟨2⟩, ⟨3⟩, ⟨3⟩⟩).insertTransition ⟨⟨3⟩, ⟨1⟩, ⟨2⟩⟩ |>.setInitialState ⟨1⟩

theorem Automaton.failingMachine_isDeterministic : failingMachine.IsDeterministic := by decide

/-- Its second state is reported: an unhindered word leads there, the start of the
machine. -/
theorem mem_violatingStates_failingMachine :
    machine.IsDeterministic ∧ failingMachine.IsDeterministic ∧
    ∃ s y, machine.Reaches s y ∧ failingMachine.Reaches s ⟨2⟩ ∧
      Unhindered machine (.ofList [⟨1⟩]) failingMachine s ∧
      ∃ ev, Disables machine (.ofList [⟨1⟩]) failingMachine ⟨y, ⟨2⟩⟩ ev :=
  ⟨machine_isDeterministic, failingMachine_isDeterministic,
    (mem_violatingStates_iff machine_isDeterministic failingMachine_isDeterministic).mp
      (by decide +kernel)⟩

/-- **Not all states are reported** that disable an uncontrollable event. After a start this machine
cannot finish, which is noticed, so the test does not go on to the failure, after which it cannot be
repaired. -/
theorem not_mem_violatingStates_failingMachine :
    machine.IsDeterministic ∧ failingMachine.IsDeterministic ∧
    (∃ s y, machine.Reaches s y ∧ failingMachine.Reaches s ⟨3⟩ ∧
      ∃ ev, Disables machine (.ofList [⟨1⟩]) failingMachine ⟨y, ⟨3⟩⟩ ev) ∧
    ⟨3⟩ ∉ violatingStates machine (.ofList [⟨1⟩]) failingMachine := by
  refine ⟨machine_isDeterministic, failingMachine_isDeterministic, ?_, by decide +kernel⟩
  have hstart : machine.Reaches [] ⟨1⟩ := reaches_nil.mpr (by decide +kernel)
  have hstart' : failingMachine.Reaches [] ⟨1⟩ := reaches_nil.mpr (by decide +kernel)
  have hleft : machine.Reaches ([] ++ [⟨1⟩] ++ [⟨3⟩]) ⟨3⟩ :=
    (hstart.concat (y := ⟨2⟩) (by decide +kernel)).concat (by decide +kernel)
  have hright : failingMachine.Reaches ([] ++ [⟨1⟩] ++ [⟨3⟩]) ⟨3⟩ :=
    (hstart'.concat (y := ⟨2⟩) (by decide +kernel)).concat (by decide +kernel)
  have hnone : ∀ t ∈ failingMachine.transitions.toList, t.event ≠ ⟨4⟩ := by decide +kernel
  exact ⟨_, ⟨3⟩, hleft, hright, ⟨4⟩, by decide +kernel, ⟨⟨1⟩, by decide +kernel⟩,
    fun x hx => hnone _ (Std.ExtTreeSet.mem_toList.mpr hx) rfl⟩

/-! ## The test
 -/

section

variable (hplant : plant.IsDeterministic) (hcand : cand.IsDeterministic)
include hplant hcand

/-- If nothing is reported, all common words are unhindered: nothing is disabled on
their way. For the last event this follows since the word without it is unhindered,
so the pair there was found. -/
theorem unhindered_of_isControllable (htest : isControllable plant controllable cand = true)
    (hleft : plant.Reaches s y) (hright : cand.Reaches s x) :
    Unhindered plant controllable cand s := by
  induction s using List.reverseRecOn generalizing x y with
  | nil => exact unhindered_nil
  | append_singleton s ev ih =>
    obtain ⟨y', hy, -⟩ := reaches_concat.mp hleft
    obtain ⟨x', hx, -⟩ := reaches_concat.mp hright
    refine unhindered_concat.mpr ⟨ih hy hx, fun p hleft hright ev' hdisables => ?_⟩
    obtain ⟨start, hstart⟩ := exists_initialPair hplant hcand hleft hright
    have hleads : Traversal.Leads (compliantTargets plant controllable cand) start p :=
      (leads_iff_exists_unhindered hplant hcand hstart).mpr ⟨s, hleft, hright, ih hleft hright⟩
    exact absurd ((mem_violatingStates hplant hcand).mpr ⟨start, hstart, p.left, hleads, ev', hdisables⟩)
      (IdentSet.isEmpty_iff.mp htest p.right)

/-- The test succeeds if and only if nothing is disabled in any pair that a common
word leads to, be it found or not. -/
theorem isControllable_iff_not_disables : isControllable plant controllable cand = true ↔
    ∀ s y x, plant.Reaches s y → cand.Reaches s x →
      ∀ ev, ¬Disables plant controllable cand ⟨y, x⟩ ev := by
  constructor
  · intro htest s y x hleft hright ev hdisables
    obtain ⟨start, hstart⟩ := exists_initialPair hplant hcand hleft hright
    have hs := unhindered_of_isControllable hplant hcand htest hleft hright
    refine IdentSet.isEmpty_iff.mp htest x ((mem_violatingStates hplant hcand).mpr
      ⟨start, hstart, y, ?_, ev, hdisables⟩)
    exact (leads_iff_exists_unhindered hplant hcand hstart).mpr ⟨s, hleft, hright, hs⟩
  · intro hnone
    refine IdentSet.isEmpty_iff.mpr fun x hx => ?_
    obtain ⟨start, hstart, y, hleads, ev, hdisables⟩ := (mem_violatingStates hplant hcand).mp hx
    obtain ⟨s, hleft, hright, -⟩ := (leads_iff_exists_unhindered hplant hcand hstart).mp hleads
    exact hnone s y x hleft hright ev hdisables

/-- **Controllability**: the test succeeds if and only if the candidate goes on with every
uncontrollable event that the plant goes on with, after any common word. -/
theorem isControllable_iff : isControllable plant controllable cand = true ↔
    ∀ s ∈ plant.words, s ∈ cand.words → ∀ ev ∉ controllable, s ++ [ev] ∈ plant.words →
      s ++ [ev] ∈ cand.words := by
  rw [isControllable_iff_not_disables hplant hcand]
  constructor
  · intro hnone s hs hs' ev hev hword
    obtain ⟨y, hleft⟩ := mem_words_iff.mp hs
    obtain ⟨x, hright⟩ := mem_words_iff.mp hs'
    by_contra hout
    exact hnone s y x hleft hright ev ((disables_iff hplant hcand hleft hright).mpr ⟨hev, hword, hout⟩)
  · intro hcontrollable s y x hleft hright ev hdisables
    obtain ⟨hev, hword, hout⟩ := (disables_iff hplant hcand hleft hright).mp hdisables
    exact hout (hcontrollable s hleft.mem_words hright.mem_words ev hev hword)

end

/-- A machine that is always repaired goes along with the plant if starts can be prevented, and does
not if they cannot. -/
theorem repairedMachine_isControllable :
    (∀ s ∈ machine.words, s ∈ repairedMachine.words → ∀ ev ∉ (.ofList [⟨1⟩] : EventSet),
      s ++ [ev] ∈ machine.words → s ++ [ev] ∈ repairedMachine.words) ∧
    ¬∀ s ∈ machine.words, s ∈ repairedMachine.words → ∀ ev ∉ (.ofList [⟨4⟩] : EventSet),
      s ++ [ev] ∈ machine.words → s ++ [ev] ∈ repairedMachine.words :=
  ⟨(isControllable_iff machine_isDeterministic repairedMachine_isDeterministic).mp (by decide +kernel),
    (isControllable_iff machine_isDeterministic repairedMachine_isDeterministic).not.mp
      (by decide +kernel)⟩

end OmegaControl
