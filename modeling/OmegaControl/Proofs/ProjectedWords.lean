import OmegaControl.Proofs.Projection

/-!
# Words of projections

Projecting an automaton leaves of each of its words what is seen of it, and a state
of the projection stands for the states that can be reached by words which look like
those that lead to it (`IsProjection`). Inverse projection adds words: those that
were words without the new events (`reaches_inverseProject`). Both together are
`projections_spec`.

The two belong together. A projection with the hidden events added again observes
the automaton it was built from, and on words of the events that are seen it does
the same as the projection (`reaches_iff_reaches_inverseProject`). So what is known
of observers carries over, and of the subset construction itself nothing more needs
to be known than the numbers it gives to beliefs.
-/

namespace OmegaControl.Automaton

variable {g h p : Automaton} {events alphabet : EventSet} {w : List EventId} {x z : StateId}

/-! ## Inverse projection
 -/

/-- With events added that change nothing, words lead where they would lead without
these events. An added event stays in its state, so it can be left out of a path,
and put in anywhere. -/
theorem reaches_inverseProject (hg : g.WellFormed) : (g.inverseProject alphabet).Reaches w z ↔
    (∀ ev ∈ w, ev ∈ g.alphabet ∪ alphabet) ∧ g.Reaches (seen g.alphabet w) z := by
  obtain ⟨-, -, hinitial, -, -, htransitions⟩ := inverseProject_spec hg alphabet
  have hstep : ∀ {y z ev}, ⟨y, ev, z⟩ ∈ (g.inverseProject alphabet).transitions ↔
      ⟨y, ev, z⟩ ∈ g.transitions ∨ (y ∈ g.states ∧ z = y ∧ ev ∈ alphabet ∧ ev ∉ g.alphabet) :=
    htransitions _
  -- along the word: an event of `g` is a step of `g`, and any other one is a loop
  induction w using List.reverseRecOn generalizing z with
  | nil => rw [seen_nil, reaches_nil, reaches_nil, hinitial, and_iff_right (by simp)]
  | append_singleton w ev ih =>
    rw [reaches_concat, List.forall_mem_append, List.forall_mem_singleton, IdentSet.mem_union]
    by_cases hev : ev ∈ g.alphabet
    · rw [seen_concat_of_mem hev, reaches_concat]
      constructor
      · rintro ⟨y, hy, ht⟩
        obtain ⟨hw, hy⟩ := ih.mp hy
        exact ⟨⟨hw, .inl hev⟩, y, hy, (hstep.mp ht).resolve_right fun hloop => hloop.2.2.2 hev⟩
      · rintro ⟨⟨hw, -⟩, y, hy, ht⟩
        exact ⟨y, ih.mpr ⟨hw, hy⟩, hstep.mpr (.inl ht)⟩
    · rw [seen_concat_of_not_mem hev]
      constructor
      · rintro ⟨y, hy, ht⟩
        obtain ⟨hw, hy⟩ := ih.mp hy
        obtain ⟨-, rfl, hnew, -⟩ :=
          (hstep.mp ht).resolve_left fun ht => hev (hg.event_mem ⟨y, ev, z⟩ ht)
        exact ⟨⟨hw, .inr hnew⟩, hy⟩
      · rintro ⟨⟨hw, hnew⟩, hz⟩
        exact ⟨z, ih.mpr ⟨hw, hz⟩,
          hstep.mpr (.inr ⟨hz.mem_states hg, rfl, hnew.resolve_left hev, hev⟩)⟩

/-- On words of its own events, an automaton does the same with events added that
change nothing. -/
theorem reaches_iff_reaches_inverseProject (hp : p.WellFormed) :
    p.Reaches w z ↔ (∀ ev ∈ w, ev ∈ p.alphabet) ∧ (p.inverseProject alphabet).Reaches w z := by
  rw [reaches_inverseProject hp]
  constructor
  · intro hz
    have hw : ∀ ev ∈ w, ev ∈ p.alphabet := fun _ => mem_alphabet_of_mem_words hp hz.mem_words
    rw [seen_eq_self hw]
    exact ⟨hw, fun ev hev => IdentSet.mem_union.mpr (.inl (hw ev hev)), hz⟩
  · rintro ⟨hw, -, hz⟩
    rwa [seen_eq_self hw] at hz

/-! ## Projection
 -/

section

variable {belief : StateId → Set StateId} (hg : g.WellFormed) (hp : p.WellFormed)
  (halphabet : p.alphabet = g.alphabet ∩ events)
  (ho : Observes g (g.alphabet ∩ events) (p.inverseProject g.alphabet) belief)
include hp ho

omit halphabet in
/-- A part of a deterministic automaton is deterministic. -/
theorem isDeterministic_of_observes : p.IsDeterministic := by
  obtain ⟨-, -, hinitial, -, -, htransitions⟩ := inverseProject_spec hp g.alphabet
  refine HasUniqueSuccessors.isDeterministic (fun t ht u hu => ?_) (hinitial ▸ ho.isDeterministic.1)
  exact ho.hasUniqueSuccessors t ((htransitions t).mpr (.inl ht)) u ((htransitions u).mpr (.inl hu))

include hg halphabet

/-- What is believed in a state are the states that are reached by words of the look
that leads there. -/
theorem mem_belief_of_reaches (hz : p.Reaches w z) :
    x ∈ belief z ↔ ∃ s, g.Reaches s x ∧ seen events s = w := by
  obtain ⟨hw, hz⟩ := (reaches_iff_reaches_inverseProject hp).mp hz
  rw [halphabet] at hw
  rw [ho.belief_eq hz, seen_eq_self hw, beliefAfter_inter hg, mem_beliefAfter_iff]

/-- What is generated is what words look like. A word that the projection generates
leads to a belief, which is not empty; so some word looks like it. -/
theorem words_eq_image_seen : p.words = seen events '' g.words := by
  obtain ⟨-, hstates, -, -, -, htransitions⟩ := inverseProject_spec hp g.alphabet
  have hloops : ∀ z ∈ (p.inverseProject g.alphabet).states, ∀ ev ∈ g.alphabet,
      ev ∉ g.alphabet ∩ events → ⟨z, ev, z⟩ ∈ (p.inverseProject g.alphabet).transitions :=
    fun z hz ev hev hhidden => (htransitions ⟨z, ev, z⟩).mpr
      (.inr ⟨(hstates z).mp hz, rfl, hev, halphabet ▸ hhidden⟩)
  ext w
  constructor
  · intro hw
    obtain ⟨z, hz⟩ := mem_words_iff.mp hw
    have hz' : (p.inverseProject g.alphabet).Reaches w z :=
      ((reaches_iff_reaches_inverseProject hp).mp hz).2
    -- some state is believed after `w`, and a word that looks like `w` leads there
    obtain ⟨x, hx⟩ := ho.belief_nonempty z (hz'.mem_states ho.wellFormed)
    obtain ⟨s, hs, hlook⟩ := (mem_belief_of_reaches hg hp halphabet ho hz).mp hx
    exact ⟨s, hs.mem_words, hlook⟩
  · rintro ⟨s, hs, rfl⟩
    have hseen : seen (g.alphabet ∩ events) s = seen events s :=
      seen_inter fun _ => mem_alphabet_of_mem_words hg hs
    -- all of what is seen of `s` is visible, so it is a word of the projection
    -- itself
    have hvisible : ∀ ev ∈ seen events s, ev ∈ g.alphabet ∩ events := by
      intro ev hev
      rw [← hseen] at hev
      exact of_decide_eq_true (List.mem_filter.mp hev).2
    have hword : seen events s ∈ (p.inverseProject g.alphabet).words := by
      refine (ho.mem_words_iff hloops fun ev hev => ?_).mpr ⟨s, hs, ?_⟩
      · exact (IdentSet.mem_inter.mp (hvisible ev hev)).1
      · rw [seen_eq_self hvisible, hseen]
    obtain ⟨z, hz⟩ := mem_words_iff.mp hword
    rw [← halphabet] at hvisible
    exact ((reaches_iff_reaches_inverseProject hp).mpr ⟨hvisible, hz⟩).mem_words

end

/-- What is left of `g` when only `events` are seen: `p` generates what words look like, and the
states that `sets` gives for a state of `p` are those that are reached by words of the look that leads
there. -/
structure IsProjection (g : Automaton) (events : EventSet) (p : Automaton)
    (sets : Std.ExtTreeMap StateId StateSet) : Prop where
  alphabet_eq : p.alphabet = g.alphabet ∩ events
  isDeterministic : p.IsDeterministic
  words_eq : p.words = seen events '' g.words
  allReached : p.AllReached
  /-- each state has a set -/
  mem_sets : ∀ z, z ∈ sets ↔ z ∈ p.states
  mem_set : ∀ {w : List EventId} {z : StateId} {S : StateSet}, p.Reaches w z → sets[z]? = some S →
    ∀ x, x ∈ S ↔ ∃ s, g.Reaches s x ∧ seen events s = w
  /-- no set has two states -/
  injective : ∀ {y z : StateId} {S : StateSet}, sets[y]? = some S → sets[z]? = some S → y = z
  /-- a state is marked if it may be that a marked state is reached -/
  mem_marked : ∀ {z : StateId} {S : StateSet}, sets[z]? = some S →
    (z ∈ p.marked ↔ ∃ x ∈ S, x ∈ g.marked)

/-- The subset construction yields the projection, as long as there are numbers for all that can be
believed. -/
theorem isProjection_projectWithMap (hg : g.WellFormed)
    (hsize : (g.beliefs (g.alphabet ∩ events)).length < UInt32.size) :
    IsProjection g events (g.projectWithMap events).1 (g.projectWithMap events).2 := by
  obtain ⟨numbers, hp, hsets⟩ := exists_unfolds_project hg hsize
  rw [project] at hp
  obtain ⟨belief, hbelief⟩ := exists_belief hp
  have ho := observes_of_unfolds hg (fun _ hev => hev) hp hbelief
  refine ⟨hp.alphabet_eq, isDeterministic_of_observes hp.wellFormed ho,
    words_eq_image_seen hg hp.wellFormed hp.alphabet_eq ho, hp.allReached, fun z => ?_,
    fun {w z S} hz hS x => ?_, fun {y z S} hy hz => ?_, fun {z S} hz => ?_⟩
  · rw [hp.mem_states, Std.ExtTreeMap.mem_iff_isSome_getElem?, Option.isSome_iff_exists]
    simp only [hsets]
    constructor
    · rintro ⟨S, B, hB, -⟩
      exact ⟨B, hB⟩
    · rintro ⟨B, hB⟩
      exact ⟨B.1, B, hB, rfl⟩
  · -- what is noted for a state is its belief, and beliefs are what words that look
    -- alike lead to
    obtain ⟨B, hB, rfl⟩ := (hsets z S).mp hS
    rw [← mem_belief_of_reaches hg hp.wellFormed hp.alphabet_eq ho hz, hbelief hB]
    exact Iff.rfl
  · obtain ⟨B, hB, rfl⟩ := (hsets y S).mp hy
    obtain ⟨C, hC, heq⟩ := (hsets z B.1).mp hz
    obtain rfl := Subtype.ext heq
    exact Option.some.inj (hB.symm.trans hC)
  · obtain ⟨B, hB, rfl⟩ := (hsets z S).mp hz
    rw [hp.mem_marked]
    constructor
    · rintro ⟨C, hC, hmarked⟩
      obtain rfl := hp.injective hB hC
      exact hmarked
    · exact fun hmarked => ⟨B, hB, hmarked⟩

/-- **Projection and inverse projection**: a projection is deterministic, generates what words look
like, and its states stand for the sets of states that words of one look lead to, each for one. An
inverse projection generates the words over the larger alphabet that were words without the new
events. -/
theorem projections_spec (hg : g.WellFormed)
    (hsize : (g.beliefs (g.alphabet ∩ events)).length < UInt32.size) (hh : h.WellFormed)
    (alphabet : EventSet) :
    IsProjection g events (g.projectWithMap events).1 (g.projectWithMap events).2 ∧
    (h.inverseProject alphabet).alphabet = h.alphabet ∪ alphabet ∧
    (h.inverseProject alphabet).words =
      {w | (∀ ev ∈ w, ev ∈ h.alphabet ∪ alphabet) ∧ seen h.alphabet w ∈ h.words} := by
  refine ⟨isProjection_projectWithMap hg hsize, ?_, ?_⟩
  · obtain ⟨-, -, -, -, halphabet, -⟩ := inverseProject_spec hh alphabet
    exact IdentSet.ext fun ev => (halphabet ev).trans IdentSet.mem_union.symm
  · ext w
    simp only [mem_words_iff, reaches_inverseProject hh, exists_and_left, Set.mem_ofPred_eq]

/-- Of the fragile machine nothing may be seen but starts and repairs, and it may be given an event that it
does not know. -/
theorem projections_fragileMachine :
    IsProjection fragileMachine (.ofList [⟨1⟩, ⟨4⟩])
      (fragileMachine.projectWithMap (.ofList [⟨1⟩, ⟨4⟩])).1
      (fragileMachine.projectWithMap (.ofList [⟨1⟩, ⟨4⟩])).2 ∧
    (fragileMachine.inverseProject (.singleton ⟨5⟩)).words =
      {w | (∀ ev ∈ w, ev ∈ fragileMachine.alphabet ∪ .singleton ⟨5⟩) ∧
        seen fragileMachine.alphabet w ∈ fragileMachine.words} := by
  have hsize := Nat.lt_of_le_of_lt (length_beliefs_le_two_pow fragileMachine
    (fragileMachine.alphabet ∩ .ofList [⟨1⟩, ⟨4⟩])) (by decide +kernel : _ < UInt32.size)
  obtain ⟨hprojection, -, hwords⟩ := projections_spec fragileMachine_wellFormed hsize
    fragileMachine_wellFormed (.singleton ⟨5⟩)
  exact ⟨hprojection, hwords⟩

end OmegaControl.Automaton
