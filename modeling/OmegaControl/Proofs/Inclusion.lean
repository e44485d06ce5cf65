import OmegaControl.Proofs.JoinByEvent
import OmegaControl.Proofs.Reaching

/-!
# When the test for inclusion succeeds

Two deterministic automata are in step in the pairs of states that common words lead
to (`exists_reaches_of_mem_pairsInStep`). If the left one never has an event there
that the right one lacks, each of its words keeps the two in step, so it is a word
of both (`words_subset_of_isClosedSubset`); and if all its words are words of the
right one, it never does (`isClosedSubset_of_subset`). So the test decides inclusion
(`isClosedSubset_iff`), be it that one side or both have no initial state, and hence
no words.

Unlike the test for controllability, this one only answers whether there is such an
event, so it is of no interest which pairs are looked at after the first one.
-/

namespace OmegaControl.Automaton

variable {g h : Automaton} {p : StatePair}

/-- A common word leads to each pair of states in which two automata are in step.
The word is the one along which the pair was found. -/
theorem exists_reaches_of_mem_pairsInStep (hg : g.IsDeterministic) (hh : h.IsDeterministic)
    {starts : List StatePair} (hstarts : ∀ p ∈ starts, p.left ∈ g.initial ∧ p.right ∈ h.initial)
    (hp : p ∈ g.pairsInStep h starts) : ∃ s, g.Reaches s p.left ∧ h.Reaches s p.right := by
  obtain ⟨start, hstart, hleads⟩ := Traversal.mem_reachable.mp hp
  clear hp
  induction hleads with
  | refl =>
    obtain ⟨hleft, hright⟩ := hstarts start hstart
    exact ⟨[], reaches_nil.mpr hleft, reaches_nil.mpr hright⟩
  | tail _ hstep ih =>
    obtain ⟨s, hleft, hright⟩ := ih
    obtain ⟨j, hj, htarget⟩ := List.mem_filterMap.mp hstep
    cases j with
    | both l r =>
      obtain ⟨⟨hl, hlsource⟩, ⟨hr, hrsource⟩, hevent⟩ :=
        (both_mem_joinAt_iff hg.hasUniqueSuccessors hh.hasUniqueSuccessors).mp hj
      obtain rfl := Option.some.inj htarget
      exact ⟨s ++ [l.event], hleft.concat (mk_mem_transitions hl hlsource),
        hright.concat (hevent ▸ mk_mem_transitions hr hrsource)⟩
    | left l => cases htarget
    | right r => cases htarget

/-- The test succeeds if all words of one side are words of the other. Were the left
side alone on an event in some pair, the word that leads there would go on by this
event on the left side only. -/
theorem isClosedSubset_of_subset (hg : g.IsDeterministic) (hh : h.IsDeterministic)
    (hsub : g.words ⊆ h.words) : g.isClosedSubset h = true := by
  rw [isClosedSubset]
  split
  next hnone =>
    refine IdentSet.isEmpty_iff.mpr fun x hx => ?_
    obtain ⟨y, hy⟩ := mem_words_iff.mp (hsub (reaches_nil.mpr hx).mem_words)
    have hsome := (initialState?_eq_some_iff hh).mpr (reaches_nil.mp hy)
    rw [hnone] at hsome
    cases hsome
  next y hy =>
    have hy := (initialState?_eq_some_iff hh).mp hy
    -- a pair is reached by one word on both sides, so an event enabled left is
    -- enabled right
    refine List.all_eq_true.mpr fun p hp => List.all_eq_true.mpr fun j hj => ?_
    obtain ⟨s, hleft, hright⟩ := exists_reaches_of_mem_pairsInStep hg hh (fun p hp => by
      obtain ⟨x, hx, rfl⟩ := List.mem_map.mp hp
      exact ⟨IdentSet.mem_toList.mp hx, hy⟩) hp
    cases j with
    | both l r => rfl
    | left l =>
      obtain ⟨⟨hl, hlsource⟩, hnone⟩ :=
        (left_mem_joinAt_iff hg.hasUniqueSuccessors hh.hasUniqueSuccessors).mp hj
      have hword := hsub (hleft.concat (mk_mem_transitions hl hlsource)).mem_words
      obtain ⟨z, ht⟩ := (hh.concat_mem_words hright).mp hword
      exact absurd rfl (hnone ⟨p.right, l.event, z⟩ ht rfl)
    | right r => rfl

/-- If the left side is never alone on an event, its words keep the two in step.
This is by induction on the word: the next event of the left side is one of the
right side, too. -/
theorem exists_mem_pairsInStep (hg : g.IsDeterministic) (hh : h.IsDeterministic)
    {starts : List StatePair} {y₀ : StateId} (hy₀ : y₀ ∈ h.initial)
    (hstarts : ∀ x ∈ g.initial, ⟨x, y₀⟩ ∈ starts)
    (hall : ∀ p ∈ g.pairsInStep h starts, ∀ l, Joined.left l ∉ g.joinAt h p)
    {s : List EventId} {x : StateId} (hx : g.Reaches s x) :
    ∃ y, h.Reaches s y ∧ ⟨x, y⟩ ∈ g.pairsInStep h starts := by
  induction s using List.reverseRecOn generalizing x with
  | nil =>
    have hx := reaches_nil.mp hx
    exact ⟨y₀, reaches_nil.mpr hy₀, Traversal.mem_reachable.mpr ⟨_, hstarts x hx, .refl⟩⟩
  | append_singleton s ev ih =>
    obtain ⟨x', hx', ht⟩ := reaches_concat.mp hx
    obtain ⟨y', hy', hstep⟩ := ih hx'
    have hright : ∃ r ∈ h.transitions, r.source = y' ∧ r.event = ev := by
      by_contra hnone
      push Not at hnone
      refine hall _ hstep ⟨x', ev, x⟩ ?_
      exact (left_mem_joinAt_iff hg.hasUniqueSuccessors hh.hasUniqueSuccessors).mpr
        ⟨⟨ht, rfl⟩, hnone⟩
    obtain ⟨r, hr, rfl, rfl⟩ := hright
    have hboth : Joined.both ⟨x', r.event, x⟩ r ∈ g.joinAt h ⟨x', r.source⟩ :=
      (both_mem_joinAt_iff hg.hasUniqueSuccessors hh.hasUniqueSuccessors).mpr
        ⟨⟨ht, rfl⟩, ⟨hr, rfl⟩, rfl⟩
    obtain ⟨start, hstart, hleads⟩ := Traversal.mem_reachable.mp hstep
    refine ⟨r.target, hy'.concat hr, Traversal.mem_reachable.mpr ⟨start, hstart, hleads.tail ?_⟩⟩
    exact List.mem_filterMap.mpr ⟨_, hboth, rfl⟩

/-- The test succeeds only if all words of one side are words of the other. Without
an initial state on the right, it succeeds only if there is none on the left. -/
theorem words_subset_of_isClosedSubset (hg : g.IsDeterministic) (hh : h.IsDeterministic)
    (hsub : g.isClosedSubset h = true) : g.words ⊆ h.words := by
  rw [isClosedSubset] at hsub
  split at hsub
  next =>
    rintro s ⟨x, hx, -⟩
    exact absurd hx (IdentSet.isEmpty_iff.mp hsub x)
  next y₀ hy₀ =>
    have hy₀ := (initialState?_eq_some_iff hh).mp hy₀
    intro s hs
    obtain ⟨x, hx⟩ := mem_words_iff.mp hs
    obtain ⟨y, hy, -⟩ := exists_mem_pairsInStep hg hh hy₀
      (fun x hx => List.mem_map.mpr ⟨x, IdentSet.mem_toList.mpr hx, rfl⟩) (fun p hp l hl => by
        cases List.all_eq_true.mp (List.all_eq_true.mp hsub p hp) _ hl) hx
    exact hy.mem_words

/-- **Inclusion**: the test succeeds if and only if every finite word that the one side generates is
generated by the other. -/
theorem isClosedSubset_iff (hg : g.IsDeterministic) (hh : h.IsDeterministic) :
    g.isClosedSubset h = true ↔ ∀ s ∈ g.words, s ∈ h.words :=
  ⟨words_subset_of_isClosedSubset hg hh, isClosedSubset_of_subset hg hh⟩

/-- A machine that is always repaired does nothing that the machine does not do, but the machine does
more. What has no initial state does nothing at all. -/
theorem repairedMachine_isClosedSubset :
    (∀ s ∈ repairedMachine.words, s ∈ machine.words) ∧
    (¬∀ s ∈ machine.words, s ∈ repairedMachine.words) ∧
    (∀ s ∈ (new "none").words, s ∈ machine.words) ∧
    (¬∀ s ∈ machine.words, s ∈ (new "none").words) ∧
    (∀ s ∈ (new "none").words, s ∈ (new "none").words) := by
  have hnone : (new "none").IsDeterministic := by decide
  exact ⟨(isClosedSubset_iff repairedMachine_isDeterministic machine_isDeterministic).mp
      (by decide +kernel),
    (isClosedSubset_iff machine_isDeterministic repairedMachine_isDeterministic).not.mp
      (by decide +kernel),
    (isClosedSubset_iff hnone machine_isDeterministic).mp (by decide +kernel),
    (isClosedSubset_iff machine_isDeterministic hnone).not.mp (by decide +kernel),
    (isClosedSubset_iff hnone hnone).mp (by decide +kernel)⟩

end OmegaControl.Automaton
