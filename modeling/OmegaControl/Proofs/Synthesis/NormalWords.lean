import OmegaControl.Proofs.Normality
import OmegaControl.Proofs.Synthesis.NormalPart

/-!
# The words of the normal part

A set of words is prefix-normal for somebody who sees only some events if it has all
beginnings of its words and all words of the plant that look like one of them
(`PrefixNormal`). The words of the normal part are the largest such set of words of
the candidate (`Mirrors.isGreatest_normalPart`).

For this the observer has to mirror the candidate (`Mirrors`): what is seen decides
its state, and whatever is attached to this state is reached by words of the same
look. The passes over the two prune both, so the candidate and the observer that
they are started on are kept apart here from what is left of them.

As long as all words of a prefix-normal set are there, a state that one of them
leads to disables no event that another one of the same look goes on with, so the
observer keeps all events that are needed (`isKept_carries`). In the end all states
conform, and then what is left is normal (`Mirrors.normalWithin`). Both together say
that what is left is the largest such set: it is one, and no other one loses a word.
-/

namespace OmegaControl

/-- All beginnings of the words belong to them, and so do all words of the plant that look like one
of them. -/
structure PrefixNormal (plant : Automaton) (observable : EventSet) (K : Set (List EventId)) :
    Prop where
  /-- beginnings of words belong to the set -/
  mem_of_append : ∀ {s u}, s ++ u ∈ K → s ∈ K
  normal : ∀ s ∈ plant.words, ∀ s' ∈ K, seen observable s = seen observable s' → s ∈ K

namespace NormalPart

open Automaton

variable {plant o a g : Automaton} {observable : EventSet} {plantState cls : StateId → StateId}
  {q d : ObservedCandidate} {K : Set (List EventId)} {s : List EventId} {ev : EventId}
  {x y : StateId}

/-- The observer `o` goes along with every step of the candidate `a`, words of the same look lead to
the same state of it, and all states that are attached to this state are reached by words of the
same look. -/
structure Mirrors (plant : Automaton) (observable : EventSet) (plantState cls : StateId → StateId)
    (o a : Automaton) : Prop extends Attached plant plantState cls ⟨o, a⟩ where
  noticed : Noticed cls ⟨o, a⟩
  /-- what is seen decides the state of the observer -/
  cls_eq : ∀ {s s' x y}, a.Reaches s x → a.Reaches s' y →
    seen observable s = seen observable s' → cls x = cls y
  /-- a state that is attached to the same state of the observer is reached by a
  word of the same look -/
  exists_lookalike : ∀ {s x y}, a.Reaches s y → x ∈ a.states → cls x = cls y →
    ∃ s', a.Reaches s' x ∧ seen observable s' = seen observable s

/-! ## What is kept -/

/-- The candidate has all words of the set, and the observer goes along with them.
The second part keeps later passes from taking away what the first one needs. -/
structure Carries (o a : Automaton) (cls : StateId → StateId) (K : Set (List EventId))
    (d : ObservedCandidate) : Prop where
  reduct : Reduct d ⟨o, a⟩
  words : K ⊆ d.cand.words
  /-- the observer still has the events that words of the set go on with -/
  observed : ∀ {s ev x y}, s ++ [ev] ∈ K → a.Reaches s x → a.Reaches (s ++ [ev]) y →
    ⟨cls x, ev, cls y⟩ ∈ d.observer.transitions

/-- A part that has all words of the set carries them, too. -/
theorem Carries.of_isPart (hd : Carries o a cls K d) (hpart : g.IsPart d.cand) (hwf : g.WellFormed)
    (hsub : K ⊆ g.words) : Carries o a cls K { d with cand := g } :=
  ⟨(Reduct.of_isPart hpart hwf).trans hd.reduct, hsub, hd.observed⟩

/-- An observer that goes along with every step goes along with all words. -/
theorem Carries.of_noticed (ha : a.IsDeterministic) (hr : Reduct d ⟨o, a⟩) (hnoticed : Noticed cls d)
    (hsub : K ⊆ d.cand.words) : Carries o a cls K d := by
  refine ⟨hr, hsub, fun {s ev x y} hs hx hy => ?_⟩
  obtain ⟨y', hy'⟩ := mem_words_iff.mp (hsub hs)
  obtain ⟨x', hx', ht⟩ := reaches_concat.mp hy'
  obtain rfl := ha.reaches_unique hx (hr.reaches hx')
  obtain rfl := ha.reaches_unique hy (hr.reaches hy')
  exact hnoticed _ ht

/-- As long as all words of the set are there, none of them goes on with what is disabled. -/
theorem Carries.not_mem_of_disabled (hd : Carries o a cls K d) (ha : a.IsDeterministic)
    (hx : a.Reaches s x) (hev : ev ∈ disabledAt plant plantState d x) : s ++ [ev] ∉ K := by
  intro hs
  obtain ⟨y, hy⟩ := mem_words_iff.mp (hd.words hs)
  obtain ⟨x', hx', ht⟩ := reaches_concat.mp hy
  obtain rfl := ha.reaches_unique hx (hd.reduct.reaches hx')
  exact (IdentSet.mem_sdiff.mp hev).2 (mem_activeEvents.mpr ⟨_, ht, rfl, rfl⟩)

section

variable (h : Mirrors plant observable plantState cls o a)
include h

/-- What is disabled after a word is an event of the plant. -/
theorem Mirrors.concat_mem_words_of_disabled (hx : a.Reaches s x)
    (hev : ev ∈ disabledAt plant plantState d x) : s ++ [ev] ∈ plant.words := by
  obtain ⟨l, hl, hsource, rfl⟩ := mem_activeEvents.mp (IdentSet.mem_sdiff.mp hev).1
  exact (h.plant_isDeterministic.concat_mem_words (h.toAccompanied.reaches hx)).mpr
    ⟨l.target, mk_mem_transitions hl hsource⟩

variable (hK : PrefixNormal plant observable K)
include hK

/-- **Visiting a state** takes no event from the observer that a word goes on with: a word that
looks like it leads to the state that is visited, where this event is not disabled. -/
theorem isKept_carries : IsKept plant observable plantState cls (Carries o a cls K) := by
  intro s x s' _ hx _ hf hd
  have hobserved : ∀ {s₁ ev x₁ y₁}, s₁ ++ [ev] ∈ K → a.Reaches s₁ x₁ → a.Reaches (s₁ ++ [ev]) y₁ →
      ⟨cls x₁, ev, cls y₁⟩ ∈ s'.current.observer.transitions := by
    intro s₁ ev x₁ y₁ hs₁ hx₁ hy₁
    refine (hf.mem_observer _).mpr ⟨hd.observed hs₁ hx₁ hy₁, fun ⟨hsource, hev⟩ => ?_⟩
    -- a word of the same look leads to `x`, where the event is disabled; so the set
    -- has neither word
    obtain ⟨s₂, hs₂, hlook⟩ :=
      h.exists_lookalike hx₁ (hd.reduct.cand.states_subset x hx) (Eq.symm hsource)
    have hlook : seen observable (s₂ ++ [ev]) = seen observable (s₁ ++ [ev]) := by
      rw [seen_append, seen_append, hlook]
    exact hd.not_mem_of_disabled h.isDeterministic hs₂ hev
      (hK.normal _ (h.concat_mem_words_of_disabled hs₂ hev) _ hs₁ hlook)
  refine ⟨hf.reduct.trans hd.reduct, fun s₁ hs₁ => ?_, hobserved⟩
  -- no transition of a word of the set is dropped, because the observer has its
  -- event
  induction s₁ using List.reverseRecOn with
  | nil =>
    obtain ⟨x₀, hx₀⟩ := mem_words_iff.mp (hd.words hs₁)
    have hx₀ := reaches_nil.mp hx₀
    refine (reaches_nil.mpr (hf.reduct.cand.mem_initial.mpr ⟨hx₀, ?_⟩)).mem_words
    exact hf.states_eq ▸ hd.reduct.wellFormed.initial_subset x₀ hx₀
  | append_singleton s₁ ev ih =>
    obtain ⟨z, hz⟩ := mem_words_iff.mp (ih (hK.mem_of_append hs₁))
    have hz' := hf.reduct.reaches hz
    obtain ⟨y, ht⟩ := ((hd.reduct.cand.isDeterministic h.isDeterministic).concat_mem_words hz').mp
      (hd.words hs₁)
    refine (hz.concat ((hf.mem_cand ⟨z, ev, y⟩).mpr ⟨ht, fun hsource => ?_⟩)).mem_words
    have hza := hd.reduct.reaches hz'
    exact ⟨_, hobserved hs₁ hza (hza.concat (hd.reduct.cand.transitions_subset _ ht)),
      congrArg cls hsource, rfl⟩

/-- No word leads to a state that disables an event that is not seen. -/
theorem isKeptByDeletion_carries :
    IsKeptByDeletion plant observable plantState (Carries o a cls K) := by
  intro d dead hd hdead
  have hwf := hd.reduct.wellFormed
  refine hd.of_isPart (hwf.isPart_deleteStates dead) (hwf.deleteStates dead) ?_
  refine (hwf.isPart_deleteStates dead).subset_words hK.mem_of_append hd.words fun s hs x hx => ?_
  refine mem_states_deleteStates.mpr ⟨hx.mem_states hwf, fun hmem => ?_⟩
  obtain ⟨d', hd', hdisabled⟩ := hdead x hmem
  refine hdisabled fun ev hev => ?_
  by_contra hhidden
  have hx := hd.reduct.reaches hx
  exact hd'.not_mem_of_disabled h.isDeterministic hx hev (hK.normal _
    (h.concat_mem_words_of_disabled hx hev) s hs (seen_concat_of_not_mem hhidden))

/-- **The normal part** loses no word of a prefix-normal set. -/
theorem Carries.normalPart (hd : Carries o a cls K d) :
    Carries o a cls K (normalPart plant observable d) := by
  have hattached := h.toAttached.of_reduct hd.reduct
  rw [OmegaControl.normalPart]
  split
  next => exact hd
  next start hstart =>
    have hrun := run_carries (isKept_carries h hK) (isKeptByDeletion_carries h hK) hattached hd
      fun x hx => hattached.plantState_eq hx hstart
    have hwf := hrun.reduct.wellFormed
    exact hrun.of_isPart (hwf.isPart_restrictStates _) (hwf.restrictStates _)
      (hwf.subset_words_accessible hrun.words)

end

/-! ## What is left -/

namespace Mirrors

variable (h : Mirrors plant observable plantState cls o a) (hr : Reduct q ⟨o, a⟩)
  (hconforms : ∀ {s x}, q.cand.Reaches s x → Conforms plant observable plantState cls q x)
include h hr hconforms

/-- If all states conform, a word of the plant that looks like a word of what is left is one: if it
goes on with an event that is seen, the observer has this event, so the candidate has it; and the
candidate disables no event that is not seen. -/
theorem normalWithin : NormalWithin plant observable q.cand := by
  have hdet : q.cand.IsDeterministic := hr.cand.isDeterministic h.isDeterministic
  intro s hs
  induction s using List.reverseRecOn with
  | nil => exact fun s' hs' _ => words_of_append hs'
  | append_singleton s ev ih =>
    intro s' hs' hlook
    have hs₀ := words_of_append hs
    -- a word that looks like the beginning, after which the observer can go on
    obtain ⟨s₁, hs₁, hlook₁, hnext⟩ := exists_lookalike_beginning hs' hlook
    obtain ⟨x, hx⟩ := mem_words_iff.mp (ih hs₀ s₁ hs₁ hlook₁)
    obtain ⟨x₁, hx₁⟩ := mem_words_iff.mp hs₁
    have hcls := h.cls_eq (hr.reaches hx) (hr.reaches hx₁) hlook₁
    have hplant := h.toAccompanied.reaches (hr.reaches hx)
    obtain ⟨l, hl⟩ := (h.plant_isDeterministic.concat_mem_words hplant).mp hs
    refine (hdet.concat_mem_words hx).mpr ?_
    rcases (hconforms hx).disables _ hl rfl with ⟨t, ht, hsource, rfl⟩ | ⟨hev, hnone⟩
    · exact ⟨t.target, mk_mem_transitions ht hsource⟩
    · obtain ⟨y, ht⟩ := (hdet.concat_mem_words hx₁).mp (hnext hev)
      have hobserved := (hconforms hx₁).observed _ ht rfl
      exact absurd rfl (hnone ⟨cls x₁, ev, cls y⟩ hobserved hcls.symm)

end Mirrors

namespace Mirrors

variable (h : Mirrors plant observable plantState cls o a) (hr : Reduct q ⟨o, a⟩)
  (hnormal : NormalWithin plant observable q.cand)
include h hr hnormal

/-- A state that is attached to the same state of the observer is reached by a word of the same
look. -/
theorem exists_lookalike_reduct (hs : q.cand.Reaches s x) (hy : y ∈ a.states) (hcls : cls y = cls x) :
    ∃ s', q.cand.Reaches s' y ∧ seen observable s' = seen observable s := by
  obtain ⟨s', hs', hlook⟩ := h.exists_lookalike (hr.reaches hs) hy hcls
  have hplant := h.toAccompanied.reaches hs'
  obtain ⟨y', hy'⟩ := mem_words_iff.mp (hnormal s' hplant.mem_words s hs.mem_words hlook)
  obtain rfl := h.isDeterministic.reaches_unique hs' (hr.reaches hy')
  exact ⟨s', hy', hlook⟩

/-- After a word, the states that are attached to the same state of the observer can be believed. -/
theorem beliefAfter_eq (hs : q.cand.Reaches s x) :
    q.cand.beliefAfter observable (seen observable s) = {y | y ∈ q.cand.states ∧ cls y = cls x} := by
  ext y
  rw [mem_beliefAfter_iff]
  constructor
  · rintro ⟨s', hs', hlook⟩
    exact ⟨hs'.mem_states hr.wellFormed, h.cls_eq (hr.reaches hs') (hr.reaches hs) hlook⟩
  · rintro ⟨hy, hcls⟩
    exact h.exists_lookalike_reduct hr hnormal hs (hr.cand.states_subset y hy) hcls

/-- What is normal passes the test for normality, as long as there are numbers for all states. -/
theorem isNormal (halphabet : a.alphabet = plant.alphabet) (hsize : a.size < UInt32.size) :
    isNormal plant observable q.cand = true := by
  have haccompanied := (h.toAttached.of_reduct hr).toAccompanied
  have hsmall : q.cand.size ≤ a.size := IdentSet.size_le_of_subset hr.cand.states_subset
  exact haccompanied.isNormal (hr.cand.alphabet_eq.trans halphabet) hnormal cls
    (Nat.lt_of_le_of_lt hsmall hsize) (h.beliefAfter_eq hr hnormal)

end Mirrors

/-! ## The normal part -/

namespace Mirrors

variable (h : Mirrors plant observable plantState cls o a) (hd : Reduct d ⟨o, a⟩)
include h hd

/-- All states of the normal part conform that words lead to. -/
theorem conforms_normalPart : Reduct (normalPart plant observable d) ⟨o, a⟩ ∧
    ∀ {s x}, (normalPart plant observable d).cand.Reaches s x →
      Conforms plant observable plantState cls (normalPart plant observable d) x := by
  obtain ⟨hr, hconforms⟩ := normalPart_conforms (h.toAttached.of_reduct hd) observable
  refine ⟨hr.trans hd, ?_⟩
  rintro s x ⟨x₀, hx₀, ts, hts, -, rfl⟩
  exact hconforms x₀ hx₀ ts hts

/-- **The supremal prefix-normal part**: the words of the normal part are the largest prefix-normal
set of words of the candidate that it is started on. -/
theorem isGreatest_normalPart (hnoticed : Noticed cls d) :
    IsGreatest {K | PrefixNormal plant observable K ∧ K ⊆ d.cand.words}
      (normalPart plant observable d).cand.words := by
  obtain ⟨hr, hconforms⟩ := h.conforms_normalPart hd
  have hsub := (normalPart_conforms (h.toAttached.of_reduct hd) observable).1.cand.words_subset
  refine ⟨⟨⟨words_of_append, h.normalWithin hr hconforms⟩, hsub⟩, ?_⟩
  rintro K ⟨hK, hwords⟩
  exact ((Carries.of_noticed h.isDeterministic hd hnoticed hwords).normalPart h hK).words

end Mirrors

end NormalPart

end OmegaControl
