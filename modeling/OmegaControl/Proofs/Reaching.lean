import Mathlib.Data.List.Induction
import OmegaControl.Proofs.Language
import OmegaControl.Proofs.Trimming
import OmegaControl.Proofs.Unfolding

/-!
# Where words lead

A state is reached by the words that lead to it from an initial state (`Reaches`).
In a deterministic automaton a word leads to one state at most, so words can stand
for the states they lead to; this is how the states of two automata are compared
that have nothing but their events in common.

An automaton stays within another one if its words are words of the other and its
states tell where these lead there (`StaysWithin`). A candidate for the behaviour
under supervision is within the plant in this sense: it may tell apart what is one
state in the plant, but not the other way round.

Taking states away keeps a word if it keeps all states that the beginnings of the
word lead to (`IsPart.reaches_of_forall`), so it keeps a set of words if it keeps
all states that these lead to (`IsPart.subset_words`). This is how a loop that
deletes states is shown not to delete too much.

At the end of the module these facts are put to use for trimmed automata. What is
omega-trim is left as it is, and each state of it is on the way to a marked one
(`WellFormed.of_isOmegaTrim`).
-/

namespace OmegaControl.Automaton

variable {g h : Automaton} {K : Set (List EventId)} {s u : List EventId} {ev : EventId}
  {x y : StateId}

/-- The word leads from an initial state to `x`. -/
def Reaches (g : Automaton) (s : List EventId) (x : StateId) : Prop :=
  ∃ x₀ ∈ g.initial, ∃ ts, g.IsPath x₀ ts ∧ ts.map (·.event) = s ∧ endOf x₀ ts = x

/-- Every state is reached. -/
def AllReached (g : Automaton) : Prop := ∀ x ∈ g.states, ∃ s, g.Reaches s x

@[simp] theorem reaches_nil : g.Reaches [] x ↔ x ∈ g.initial := by
  constructor
  · rintro ⟨x₀, hx₀, ts, -, hevents, rfl⟩
    obtain rfl := List.map_eq_nil_iff.mp hevents
    exact hx₀
  · exact fun hx => ⟨x, hx, [], trivial, rfl, rfl⟩

/-- A word of one event more leads one transition further. -/
theorem reaches_concat :
    g.Reaches (s ++ [ev]) y ↔ ∃ x, g.Reaches s x ∧ ⟨x, ev, y⟩ ∈ g.transitions := by
  constructor
  · rintro ⟨x₀, hx₀, us, hus, hevents, rfl⟩
    obtain ⟨ts, us', rfl, hts, hus'⟩ := List.map_eq_append_iff.mp hevents
    obtain ⟨t, rfl, rfl⟩ := List.map_eq_singleton_iff.mp hus'
    obtain ⟨hpath, ht, hsource⟩ := isPath_concat.mp hus
    rw [endOf_concat]
    exact ⟨_, ⟨x₀, hx₀, ts, hpath, hts, rfl⟩, mk_mem_transitions ht hsource⟩
  · rintro ⟨x, ⟨x₀, hx₀, ts, hts, rfl, rfl⟩, ht⟩
    exact ⟨x₀, hx₀, ts ++ [⟨_, ev, y⟩], isPath_concat.mpr ⟨hts, ht, rfl⟩, by simp, endOf_concat ..⟩

theorem Reaches.concat (hs : g.Reaches s x) (ht : ⟨x, ev, y⟩ ∈ g.transitions) :
    g.Reaches (s ++ [ev]) y := reaches_concat.mpr ⟨x, hs, ht⟩

/-- A word is generated if it leads somewhere. -/
theorem mem_words_iff : s ∈ g.words ↔ ∃ x, g.Reaches s x := by
  constructor
  · rintro ⟨x₀, hx₀, ts, hts, hevents⟩
    exact ⟨_, x₀, hx₀, ts, hts, hevents, rfl⟩
  · rintro ⟨x, x₀, hx₀, ts, hts, hevents, -⟩
    exact ⟨x₀, hx₀, ts, hts, hevents⟩

theorem Reaches.mem_words (hs : g.Reaches s x) : s ∈ g.words := mem_words_iff.mpr ⟨x, hs⟩

/-- Words lead to states. -/
theorem Reaches.mem_states (hg : g.WellFormed) (hs : g.Reaches s x) : x ∈ g.states := by
  obtain ⟨x₀, hx₀, ts, hts, -, rfl⟩ := hs
  exact hts.endOf_mem hg (hg.initial_subset x₀ hx₀)

/-- In a deterministic automaton a word leads to one state at most. -/
theorem IsDeterministic.reaches_unique (hg : g.IsDeterministic) (hx : g.Reaches s x)
    (hy : g.Reaches s y) : x = y := by
  obtain ⟨x₀, hx₀, ts, hts, hevents, rfl⟩ := hx
  obtain ⟨y₀, hy₀, us, hus, hevents', rfl⟩ := hy
  obtain rfl := hg.initial_unique hx₀ hy₀
  rw [hg.hasUniqueSuccessors.path_unique hts hus (hevents.trans hevents'.symm)]

/-- After a word, a deterministic automaton can go on as its state says. -/
theorem IsDeterministic.concat_mem_words (hg : g.IsDeterministic) (hs : g.Reaches s x) :
    s ++ [ev] ∈ g.words ↔ ∃ y, ⟨x, ev, y⟩ ∈ g.transitions := by
  simp only [mem_words_iff, reaches_concat]
  constructor
  · rintro ⟨y, x', hs', ht⟩
    obtain rfl := hg.reaches_unique hs hs'
    exact ⟨y, ht⟩
  · rintro ⟨y, ht⟩
    exact ⟨y, x, hs, ht⟩

/-- Without states there are no words. -/
theorem not_mem_words_of_isEmpty (hg : g.WellFormed) (hempty : g.isEmpty = true) : s ∉ g.words := by
  rintro ⟨x, hx, -⟩
  exact IdentSet.isEmpty_iff.mp hempty x (hg.initial_subset x hx)

/-- What a generated word starts with is generated. -/
theorem words_of_append (h : s ++ u ∈ g.words) : s ∈ g.words := by
  obtain ⟨x₀, hx₀, us, hus, hevents⟩ := h
  obtain ⟨ts, us', rfl, hts, -⟩ := List.map_eq_append_iff.mp hevents
  exact ⟨x₀, hx₀, ts, (isPath_append.mp hus).1, hts⟩

/-- A word goes on along a path. -/
theorem reaches_append : g.Reaches (s ++ u) y ↔
    ∃ x, g.Reaches s x ∧ ∃ ts, g.IsPath x ts ∧ ts.map (·.event) = u ∧ endOf x ts = y := by
  constructor
  · rintro ⟨x₀, hx₀, us, hus, hevents, rfl⟩
    obtain ⟨ts, us', rfl, hts, hus'⟩ := List.map_eq_append_iff.mp hevents
    obtain ⟨hpath, hrest⟩ := isPath_append.mp hus
    exact ⟨_, ⟨x₀, hx₀, ts, hpath, hts, rfl⟩, us', hrest, hus', (endOf_append ..).symm⟩
  · rintro ⟨x, ⟨x₀, hx₀, ts, hts, rfl, rfl⟩, us, hus, rfl, rfl⟩
    exact ⟨x₀, hx₀, ts ++ us, isPath_append.mpr ⟨hts, hus⟩, List.map_append, endOf_append ..⟩

/-- A state is reached by some word if a path leads to it. -/
theorem exists_reaches_iff :
    (∃ s, g.Reaches s x) ↔ ∃ x₀ ∈ g.initial, ∃ ts, g.IsPath x₀ ts ∧ endOf x₀ ts = x := by
  constructor
  · rintro ⟨s, x₀, hx₀, ts, hts, -, hend⟩
    exact ⟨x₀, hx₀, ts, hts, hend⟩
  · rintro ⟨x₀, hx₀, ts, hts, hend⟩
    exact ⟨_, x₀, hx₀, ts, hts, rfl, hend⟩

/-- The accessible states are those that some word leads to. -/
theorem mem_accessibleSet_iff : x ∈ g.accessibleSet ↔ ∃ s, g.Reaches s x :=
  mem_accessibleSet.trans exists_reaches_iff.symm

/-- The beginnings of an infinite word lead to the states that are visited while it is read. -/
theorem Reads.reaches {w : ℕ → EventId} {xs : ℕ → StateId} (hr : g.Reads w xs)
    (hinitial : xs 0 ∈ g.initial) (n : ℕ) : g.Reaches (upTo w n) (xs n) :=
  ⟨xs 0, hinitial, _, hr.isInfinitePath n, events_stepAt n, endOf_stepAt n⟩

/-! ## Staying within another automaton
 -/

/-- The words of `g` are words of `h`, and a state of `g` is reached together with one state of `h`
only. -/
structure StaysWithin (g h : Automaton) : Prop where
  words_subset : g.words ⊆ h.words
  /-- two words that lead to one state of `g` lead to one state of `h` -/
  unique : ∀ {s u x y z}, g.Reaches s x → h.Reaches s y → g.Reaches u x → h.Reaches u z → y = z

/-- Then words that lead to a state of `g` lead to the state of `h` that goes with it. -/
theorem StaysWithin.exists_reaches (hgh : g.StaysWithin h) :
    ∃ f : StateId → StateId, ∀ {s x}, g.Reaches s x → h.Reaches s (f x) := by
  have hcompanion : ∀ x, ∃ y, ∀ s, g.Reaches s x → h.Reaches s y := by
    intro x
    by_cases hreached : ∃ u, g.Reaches u x
    · obtain ⟨u, hu⟩ := hreached
      obtain ⟨y, hy⟩ := mem_words_iff.mp (hgh.words_subset hu.mem_words)
      refine ⟨y, fun s hs => ?_⟩
      obtain ⟨z, hz⟩ := mem_words_iff.mp (hgh.words_subset hs.mem_words)
      exact hgh.unique hu hy hs hz ▸ hz
    · exact ⟨x, fun s hs => absurd ⟨s, hs⟩ hreached⟩
  choose f hf using hcompanion
  exact ⟨f, fun hs => hf _ _ hs⟩

/-! ## Fewer states
 -/

/-- With fewer initial states and transitions words lead to the same states, if they
lead anywhere. -/
theorem Reaches.mono (hinitial : ∀ x ∈ h.initial, x ∈ g.initial)
    (htransitions : ∀ t ∈ h.transitions, t ∈ g.transitions) (hs : h.Reaches s x) :
    g.Reaches s x := by
  obtain ⟨x₀, hx₀, ts, hts, hevents, hend⟩ := hs
  exact ⟨x₀, hinitial x₀ hx₀, ts, hts.mono htransitions, hevents, hend⟩

/-- What has fewer states and transitions stays within the whole. -/
theorem IsDeterministic.staysWithin (hg : g.IsDeterministic)
    (hinitial : ∀ x ∈ h.initial, x ∈ g.initial)
    (htransitions : ∀ t ∈ h.transitions, t ∈ g.transitions) : h.StaysWithin g where
  words_subset s hs := by
    obtain ⟨x, hx⟩ := mem_words_iff.mp hs
    exact (hx.mono hinitial htransitions).mem_words
  unique hx hy hx' hz := by
    obtain rfl := hg.reaches_unique (hx.mono hinitial htransitions) hy
    exact hg.reaches_unique (hx'.mono hinitial htransitions) hz

theorem mem_transitions_machine {t : Transition} (ht : t ∈ repairedMachine.transitions) :
    t ∈ machine.transitions := by
  have hall : ∀ t ∈ repairedMachine.transitions.toList, t ∈ machine.transitions := by decide +kernel
  exact hall t (Std.ExtTreeSet.mem_toList.mpr ht)

/-- A machine that is always repaired stays within the machine. -/
theorem repairedMachine_staysWithin : repairedMachine.StaysWithin machine := by
  refine machine_isDeterministic.staysWithin (fun x hx => ?_) fun _ ht => mem_transitions_machine ht
  exact (by decide +kernel : repairedMachine.initial ⊆ machine.initial) x hx

/-- Only initial states and transitions matter. -/
theorem reaches_congr (hinitial : h.initial = g.initial) (htransitions : h.transitions = g.transitions) :
    h.Reaches s x ↔ g.Reaches s x :=
  ⟨fun hs => hs.mono (fun _ hx => hinitial ▸ hx) fun _ ht => htransitions ▸ ht,
    fun hs => hs.mono (fun _ hx => hinitial.symm ▸ hx) fun _ ht => htransitions.symm ▸ ht⟩

/-- Names do not matter. -/
theorem reaches_rename (name : String) (enabled : Bool) :
    ((g.setName name).setStateNamesEnabled enabled).Reaches s x ↔ g.Reaches s x :=
  reaches_congr rfl rfl

theorem reaches_markAllStates : g.markAllStates.Reaches s x ↔ g.Reaches s x := reaches_congr rfl rfl

/-- The marking has no part in which finite words are generated. -/
theorem words_markAllStates : g.markAllStates.words = g.words :=
  Set.ext fun _ => by simp only [mem_words_iff, reaches_markAllStates]

/-- A word that leads through states of a part only leads through the part, since a
part has all transitions between its states. -/
theorem IsPart.reaches_of_forall (hpart : h.IsPart g) (hs : g.Reaches s x)
    (hkept : ∀ u y, u <+: s → g.Reaches u y → y ∈ h.states) : h.Reaches s x := by
  induction s using List.reverseRecOn generalizing x with
  | nil =>
    rw [reaches_nil] at hs ⊢
    exact hpart.mem_initial.mpr ⟨hs, hkept [] x List.nil_prefix (reaches_nil.mpr hs)⟩
  | append_singleton s ev ih =>
    obtain ⟨y, hy, ht⟩ := reaches_concat.mp hs
    have hprefix : s <+: s ++ [ev] := List.prefix_append s [ev]
    refine (ih hy fun u z hu => hkept u z (hu.trans hprefix)).concat (hpart.mem_transitions.mpr ?_)
    exact ⟨ht, hkept s y hprefix hy, hkept _ x List.prefix_rfl hs⟩

/-- A part that has all states that words lead to has these words. -/
theorem IsPart.subset_words (hpart : h.IsPart g) (hK : ∀ {s u}, s ++ u ∈ K → s ∈ K)
    (hsub : K ⊆ g.words) (hkept : ∀ s ∈ K, ∀ x, g.Reaches s x → x ∈ h.states) : K ⊆ h.words := by
  intro s hs
  obtain ⟨x, hx⟩ := mem_words_iff.mp (hsub hs)
  refine (hpart.reaches_of_forall hx ?_).mem_words
  rintro u y ⟨v, rfl⟩ hy
  exact hkept u (hK hs) y hy

/-- The accessible part leaves out no word. -/
theorem WellFormed.reaches_accessible (hg : g.WellFormed) (hs : g.Reaches s x) :
    g.accessible.Reaches s x := by
  refine (hg.isPart_restrictStates _).reaches_of_forall hs fun u y _ hu => ?_
  exact mem_states_restrictStates.mpr ⟨hu.mem_states hg, mem_accessibleSet_iff.mpr ⟨u, hu⟩⟩

/-- Nor does it leave out a word of some set. -/
theorem WellFormed.subset_words_accessible (hg : g.WellFormed) (hsub : K ⊆ g.words) :
    K ⊆ g.accessible.words := by
  intro s hs
  obtain ⟨x, hx⟩ := mem_words_iff.mp (hsub hs)
  exact (hg.reaches_accessible hx).mem_words

/-- What is left is reached by the words that have led there before. -/
theorem WellFormed.allReached_accessible (hg : g.WellFormed) : g.accessible.AllReached := by
  intro x hx
  obtain ⟨s, hs⟩ := mem_accessibleSet_iff.mp (mem_states_restrictStates.mp hx).2
  exact ⟨s, hg.reaches_accessible hs⟩

/-- Deleting states that lead only to each other leaves the others reached: a word
that leads to a state that is left has never come by one that is deleted. -/
theorem AllReached.deleteStates (h : g.AllReached) (hg : g.WellFormed) {dead : StateSet}
    (hdead : ∀ t ∈ g.transitions, t.target ∉ dead → t.source ∉ dead) :
    (g.deleteStates dead).AllReached := by
  have hkept : ∀ s x, g.Reaches s x → x ∉ dead → (g.deleteStates dead).Reaches s x := by
    intro s
    induction s using List.reverseRecOn with
    | nil =>
      intro x hx hxd
      exact reaches_nil.mpr ((mem_initial_deleteStates hg).mpr ⟨reaches_nil.mp hx, hxd⟩)
    | append_singleton s ev ih =>
      intro x hx hxd
      obtain ⟨y, hy, ht⟩ := reaches_concat.mp hx
      have hyd : y ∉ dead := hdead ⟨y, ev, x⟩ ht hxd
      exact (ih y hy hyd).concat ((mem_transitions_deleteStates hg).mpr ⟨ht, hyd, hxd⟩)
  intro x hx
  obtain ⟨hx, hxd⟩ := mem_states_deleteStates.mp hx
  obtain ⟨s, hs⟩ := h x hx
  exact ⟨s, hkept s x hs hxd⟩

/-- What leads to a coaccessible state is coaccessible. -/
theorem AllReached.coaccessible (h : g.AllReached) (hg : g.WellFormed) :
    g.coaccessible.AllReached := by
  refine h.deleteStates hg fun t ht htarget hsource => ?_
  obtain ⟨-, hnot⟩ := IdentSet.mem_sdiff.mp hsource
  refine htarget (IdentSet.mem_sdiff.mpr ⟨hg.target_mem t ht, fun hmem => hnot ?_⟩)
  obtain ⟨ts, hts, hmarked⟩ := mem_coaccessibleSet.mp hmem
  exact mem_coaccessibleSet.mpr ⟨t :: ts, ⟨ht, rfl, hts⟩, hmarked⟩

/-- What leads to a state that is not blocking is not blocking. -/
theorem AllReached.complete (h : g.AllReached) (hg : g.WellFormed) : g.complete.AllReached :=
  h.deleteStates hg fun _ ht htarget hsource => htarget (target_mem_blockingSet ht hsource)

/-! ## Fewer states and transitions
 -/

/-- States and transitions of `g` are left out in `h`, and nothing else. Unlike a
part, `h` need not have all transitions between its states. -/
structure IsSubautomaton (h g : Automaton) : Prop where
  alphabet_eq : h.alphabet = g.alphabet
  states_subset : h.states ⊆ g.states
  mem_initial : ∀ {x}, x ∈ h.initial ↔ x ∈ g.initial ∧ x ∈ h.states
  mem_marked : ∀ {x}, x ∈ h.marked ↔ x ∈ g.marked ∧ x ∈ h.states
  transitions_subset : ∀ t ∈ h.transitions, t ∈ g.transitions

variable {k : Automaton}

theorem IsPart.isSubautomaton (hpart : h.IsPart g) : h.IsSubautomaton g :=
  { hpart with transitions_subset := fun _ ht => (hpart.mem_transitions.mp ht).1 }

theorem IsSubautomaton.trans (hkh : k.IsSubautomaton h) (hhg : h.IsSubautomaton g) :
    k.IsSubautomaton g where
  alphabet_eq := hkh.alphabet_eq.trans hhg.alphabet_eq
  states_subset x hx := hhg.states_subset x (hkh.states_subset x hx)
  mem_initial {x} := by
    rw [hkh.mem_initial, hhg.mem_initial]
    exact ⟨fun ⟨⟨hx, _⟩, hk⟩ => ⟨hx, hk⟩, fun ⟨hx, hk⟩ => ⟨⟨hx, hkh.states_subset x hk⟩, hk⟩⟩
  mem_marked {x} := by
    rw [hkh.mem_marked, hhg.mem_marked]
    exact ⟨fun ⟨⟨hx, _⟩, hk⟩ => ⟨hx, hk⟩, fun ⟨hx, hk⟩ => ⟨⟨hx, hkh.states_subset x hk⟩, hk⟩⟩
  transitions_subset t ht := hhg.transitions_subset t (hkh.transitions_subset t ht)

/-- With fewer transitions there are no more choices. -/
theorem IsSubautomaton.isDeterministic (hsub : h.IsSubautomaton g) (hg : g.IsDeterministic) :
    h.IsDeterministic := by
  refine HasUniqueSuccessors.isDeterministic (fun s hs t ht => ?_) ?_
  · exact hg.hasUniqueSuccessors s (hsub.transitions_subset s hs) t (hsub.transitions_subset t ht)
  · exact Nat.le_trans (IdentSet.size_le_of_subset fun _ hx => (hsub.mem_initial.mp hx).1) hg.1

theorem IsSubautomaton.reaches (hsub : h.IsSubautomaton g) (hs : h.Reaches s x) : g.Reaches s x :=
  hs.mono (fun _ hx => (hsub.mem_initial.mp hx).1) hsub.transitions_subset

theorem IsSubautomaton.words_subset (hsub : h.IsSubautomaton g) : h.words ⊆ g.words := by
  intro s hs
  obtain ⟨x, hx⟩ := mem_words_iff.mp hs
  exact (hsub.reaches hx).mem_words

/-! ## Omega-trim automata
 -/

/-- Accessible states are states, as paths stay among them. -/
theorem WellFormed.accessibleSet_subset (hg : g.WellFormed) : ∀ x ∈ g.accessibleSet, x ∈ g.states := by
  intro x hx
  obtain ⟨s, hs⟩ := mem_accessibleSet_iff.mp hx
  exact hs.mem_states hg

/-- If all states are reached, there are no others that are accessible. -/
theorem WellFormed.accessibleSet_eq (hg : g.WellFormed) (hreached : g.AllReached) :
    g.accessibleSet = g.states := IdentSet.ext fun x =>
  ⟨hg.accessibleSet_subset x, fun hx => mem_accessibleSet_iff.mpr (hreached x hx)⟩

/-- So are coaccessible ones, a marked state being one. -/
theorem WellFormed.coaccessibleSet_subset (hg : g.WellFormed) :
    ∀ x ∈ g.coaccessibleSet, x ∈ g.states := by
  intro x hx
  obtain ⟨ts, hts, hmarked⟩ := mem_coaccessibleSet.mp hx
  cases ts with
  | nil => exact hg.marked_subset x hmarked
  | cons t ts => exact hts.2.1 ▸ hg.source_mem t hts.1

section

variable (hg : g.WellFormed)
  (hahead : ∀ x ∈ g.states, ∃ us, us ≠ [] ∧ g.IsPath x us ∧ endOf x us ∈ g.marked)
include hahead

/-- States with marked states ahead are coaccessible, so there are no others to take away. -/
theorem coaccessible_eq_of_ahead : g.coaccessible = g := by
  refine deleteStates_of_disjoint fun x hx hmem => (IdentSet.mem_sdiff.mp hmem).2 ?_
  obtain ⟨us, -, hus, hmarked⟩ := hahead x hx
  exact mem_coaccessibleSet.mpr ⟨us, hus, hmarked⟩

include hg

/-- There is a step to take from each state, and then another one. -/
theorem WellFormed.not_mem_blockingSet_of_ahead (hx : x ∈ g.states) : x ∉ g.blockingSet := by
  refine not_mem_blockingSet g.states.carrier (fun y hy => ?_) hx
  obtain ⟨us, hne, hus, -⟩ := hahead y hy
  obtain ⟨t, us, rfl⟩ := List.exists_cons_of_ne_nil hne
  exact ⟨t, hus.1, hus.2.1, hg.target_mem t hus.1⟩

/-- They are not blocking either. -/
theorem WellFormed.complete_eq_of_ahead : g.complete = g :=
  deleteStates_of_disjoint fun _ hx => hg.not_mem_blockingSet_of_ahead hahead hx

/-- An automaton is omega-trim if each state is reached and marked states are ahead of it. -/
theorem WellFormed.isOmegaTrim (hreached : g.AllReached) : g.isOmegaTrim = true := by
  have hcoaccessible : g.coaccessibleSet = g.states := IdentSet.ext fun x =>
    ⟨hg.coaccessibleSet_subset x, mem_of_restrictStates_eq (coaccessible_eq_of_ahead hahead)⟩
  have hblocking : g.blockingSet.isEmpty = true := IdentSet.isEmpty_iff.mpr fun x hx =>
    hg.not_mem_blockingSet_of_ahead hahead (mem_states_of_mem_blockingSet hx) hx
  rw [Automaton.isOmegaTrim, isAccessible, isCoaccessible, isComplete,
    hg.accessibleSet_eq hreached, hcoaccessible, hblocking, size]
  simp

end

/-- In an omega-trim automaton each state is reached, and marked states are ahead of it. -/
theorem WellFormed.of_isOmegaTrim (hg : g.WellFormed) (htrim : g.isOmegaTrim = true) :
    g.AllReached ∧ ∀ x ∈ g.states, ∃ us, us ≠ [] ∧ g.IsPath x us ∧ endOf x us ∈ g.marked := by
  rw [Automaton.isOmegaTrim, Bool.and_eq_true, Bool.and_eq_true, isAccessible, isCoaccessible,
    beq_iff_eq, beq_iff_eq] at htrim
  obtain ⟨⟨haccessible, hcoaccessible⟩, hcomplete⟩ := htrim
  refine ⟨fun x hx => mem_accessibleSet_iff.mp ?_, fun x hx => marked_ahead_of_eq hg ?_ ?_ hx⟩
  · exact IdentSet.subset_of_size_le hg.accessibleSet_subset haccessible.ge hx
  · refine deleteStates_of_disjoint fun y hy hmem => (IdentSet.mem_sdiff.mp hmem).2 ?_
    exact IdentSet.subset_of_size_le hg.coaccessibleSet_subset hcoaccessible.ge hy
  · exact deleteStates_of_disjoint fun y _ => IdentSet.isEmpty_iff.mp hcomplete y

/-- If marked states are ahead of every state that is coaccessible, no more than the
others have to be taken away. The loop ends after the first round then. -/
theorem WellFormed.settle_eq_of_ahead (hg : g.WellFormed)
    (hahead : ∀ x ∈ g.coaccessible.states, ∃ us, us ≠ [] ∧ g.coaccessible.IsPath x us ∧
      endOf x us ∈ g.coaccessible.marked) : g.settle = g.coaccessible := by
  have hcomplete : g.coaccessible.complete = g.coaccessible :=
    (hg.restrictStates _).complete_eq_of_ahead hahead
  rw [settle.eq_1, hcomplete]
  split
  · rw [settle.eq_1, coaccessible_eq_of_ahead hahead, hcomplete]
    exact if_neg (Nat.lt_irrefl _)
  · rfl

/-- If marked states are ahead of every state that is reached, there is nothing else
to take away: every state is coaccessible and has a successor, so trimming ends
after its first round. -/
theorem WellFormed.omegaTrim_eq_of_ahead (hg : g.WellFormed)
    (hahead : ∀ x ∈ g.accessible.states, ∃ us, us ≠ [] ∧ g.IsPath x us ∧ endOf x us ∈ g.marked) :
    g.omegaTrim = g.accessible := by
  have hpart := hg.isPart_restrictStates g.accessibleSet
  -- a path from an accessible state stays among accessible ones
  have hinside : ∀ {us x}, x ∈ g.accessible.states → g.IsPath x us →
      ∀ t ∈ us, t.target ∈ g.accessible.states := by
    intro us x hx hus
    induction us generalizing x with
    | nil => exact fun t ht => absurd ht List.not_mem_nil
    | cons t us ih =>
      obtain ⟨ht, rfl, hus⟩ := hus
      have htarget : t.target ∈ g.accessible.states := mem_states_restrictStates.mpr
        ⟨hg.target_mem t ht, target_mem_accessibleSet ht (mem_states_restrictStates.mp hx).2⟩
      exact List.forall_mem_cons.mpr ⟨htarget, ih htarget hus⟩
  have hahead' : ∀ x ∈ g.accessible.states, ∃ us, us ≠ [] ∧ g.accessible.IsPath x us ∧
      endOf x us ∈ g.accessible.marked := by
    intro x hx
    obtain ⟨us, hne, hus, hmarked⟩ := hahead x hx
    obtain ⟨t, ht, hend⟩ := exists_target_eq_endOf hne x
    have htargets := hinside hx hus
    exact ⟨us, hne, (hpart.isPath_iff hx).mpr ⟨hus, htargets⟩,
      hpart.mem_marked.mpr ⟨hmarked, hend ▸ htargets t ht⟩⟩
  have hcoaccessible := coaccessible_eq_of_ahead hahead'
  have hwf : g.accessible.WellFormed := hg.restrictStates g.accessibleSet
  rw [omegaTrim, hwf.settle_eq_of_ahead (hcoaccessible.symm ▸ hahead'), hcoaccessible]

/-- Trimming takes no state away that an accepted word needs. Its beginnings lead to
states that marked states are ahead of. -/
theorem IsDeterministic.beginnings_subset_words_trim (hdet : g.IsDeterministic) (hg : g.WellFormed) :
    beginnings g.acceptedWords ⊆ g.trim.words := by
  rintro _ ⟨w, ⟨xs, hxs, hreads, hoften⟩, n, rfl⟩
  have hreaches : ∀ n, g.accessible.Reaches (upTo w n) (xs n) := fun n =>
    hg.reaches_accessible (hreads.reaches hxs n)
  have hwf := hg.restrictStates g.accessibleSet
  have hpart := hg.isPart_restrictStates g.accessibleSet
  have hdet' : g.accessible.IsDeterministic := hpart.isSubautomaton.isDeterministic hdet
  refine ((hwf.isPart_restrictStates _).reaches_of_forall (hreaches n) fun u y hu hy => ?_).mem_words
  -- the state goes on to the next one on the way that is marked
  obtain ⟨v, hv⟩ := hu
  obtain ⟨m, hm, hmarked⟩ := hoften n
  obtain ⟨k, rfl⟩ := Nat.exists_eq_add_of_le hm
  have hxm := hreaches (n + k)
  have hmarked : xs (n + k) ∈ g.accessible.marked :=
    hpart.mem_marked.mpr ⟨hmarked, hxm.mem_states hwf⟩
  rw [upTo_add, ← hv, List.append_assoc] at hxm
  obtain ⟨y', hy', ts, hts, -, hend⟩ := reaches_append.mp hxm
  obtain rfl := hdet'.reaches_unique hy hy'
  exact mem_states_restrictStates.mpr
    ⟨hy.mem_states hwf, mem_coaccessibleSet.mpr ⟨ts, hts, hend ▸ hmarked⟩⟩

/-- The automaton of a transition system has only states that are reached, because
the walk that has met their values has gone along the steps. -/
theorem Unfolds.allReached {α : Type} [Ord α] [Std.TransOrd α] [Std.LawfulEqOrd α]
    {numbers : Std.ExtTreeMap α StateId} {events : EventSet} {starts : List α}
    {steps : α → List (EventId × α)} {marks : α → Prop}
    (h : Unfolds g numbers events starts steps marks) : g.AllReached := by
  intro x hx
  obtain ⟨v, hv⟩ := (h.mem_states x).mp hx
  obtain ⟨start, hstart, hleads⟩ := (h.exists_number_iff v).mp ⟨x, hv⟩
  induction hleads generalizing x with
  | refl => exact ⟨[], reaches_nil.mpr ((h.mem_initial x).mpr ⟨start, hstart, hv⟩)⟩
  | @tail u w hreach hstep ih =>
    obtain ⟨⟨ev, w⟩, hmem, rfl⟩ := List.mem_map.mp hstep
    obtain ⟨y, hy⟩ := (h.exists_number_iff u).mpr ⟨start, hstart, hreach⟩
    obtain ⟨s, hs⟩ := ih y ((h.mem_states y).mpr ⟨u, hy⟩) hy
    exact ⟨s ++ [ev], hs.concat ((h.mem_transitions ⟨y, ev, x⟩).mpr ⟨u, w, hy, hv, hmem⟩)⟩

end OmegaControl.Automaton
