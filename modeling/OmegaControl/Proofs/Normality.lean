import OmegaControl.Normality
import OmegaControl.Proofs.Inclusion
import OmegaControl.Proofs.Product
import OmegaControl.Proofs.Projection
import OmegaControl.Proofs.Synthesis.Verification

/-!
# When the test for normality succeeds

A candidate is normal if a word of the plant that looks like one of its words is one
of them (`NormalWithin`). The test builds all words of the plant that look like
words of the candidate (`lookalikes_spec`) and compares them with the words of the
candidate, so it succeeds if and only if the candidate is normal (`isNormal_iff`).

The test projects the candidate, which gives a state to each set of states that an
observer can believe to be in. There may be more of these sets than there are
numbers, and then the test is not to be relied on; so it is assumed that there are
not (`LookalikesFit`). This can be checked by the size of the candidate
(`lookalikesFit_of_size_lt`). If states of the candidate can be told apart by what
is seen, there are no more beliefs than states, so it is no restriction for a normal
candidate that is made in this way (`Accompanied.isNormal`).
-/

namespace OmegaControl

namespace Automaton

variable {g : Automaton}

/-- What is believed does not depend on the marking. -/
theorem beliefAfter_markAllStates {events : EventSet} {u : List EventId} :
    g.markAllStates.beliefAfter events u = g.beliefAfter events u :=
  Set.ext fun _ => by simp only [mem_beliefAfter_iff, reaches_markAllStates]

/-- There are no more beliefs than states if a state tells what is believed when it
is reached. `cls` names the belief of each state. -/
theorem WellFormed.length_beliefs_le (observable : EventSet) (cls : StateId → StateId)
    (hg : g.WellFormed) (hcls : ∀ {s x}, g.Reaches s x →
      g.beliefAfter observable (seen observable s) = {y | y ∈ g.states ∧ cls y = cls x}) :
    (g.beliefs (g.alphabet ∩ observable)).length ≤ g.size := by
  -- a belief goes with each of the states that are in it
  refine IdentSet.length_le_size (R := fun B x => x ∈ B.1) Traversal.discover_nodup
    (fun B hB => ?_) fun B hB C hC x hx hx' => Subtype.ext (IdentSet.carrier_injective ?_)
  · obtain ⟨-, -, x, hx⟩ := exists_carrier_eq_of_mem_beliefs hg hB
    exact ⟨x, B.2 x hx, hx⟩
  · have hclass : ∀ {B : IdentSet.SubsetOf g.states}, B ∈ g.beliefs (g.alphabet ∩ observable) →
        x ∈ B.1 → B.1.carrier = {y | y ∈ g.states ∧ cls y = cls x} := by
      intro B hB hx
      obtain ⟨u, hcarrier, -⟩ := exists_carrier_eq_of_mem_beliefs hg hB
      have hmem : x ∈ B.1.carrier := hx
      rw [hcarrier, beliefAfter_inter hg] at hmem
      obtain ⟨s, hs, rfl⟩ := mem_beliefAfter_iff.mp hmem
      rw [hcarrier, beliefAfter_inter hg, hcls hs]
    rw [hclass hB hx, hclass hC hx']

end Automaton

/-- If a word looks like the beginning of a generated one, so does what comes before its last event; and
the generated word goes on with this event if it is seen. -/
theorem Automaton.exists_lookalike_beginning {g : Automaton} {events : EventSet}
    {s s' : List EventId} {ev : EventId} (hs' : s' ∈ g.words)
    (hlook : seen events (s ++ [ev]) = seen events s') :
    ∃ s₁ ∈ g.words, seen events s = seen events s₁ ∧ (ev ∈ events → s₁ ++ [ev] ∈ g.words) := by
  by_cases hev : ev ∈ events
  · rw [seen_concat_of_mem hev] at hlook
    obtain ⟨-, s₁, s₂, rfl, hlook₁, -⟩ := seen_eq_concat_iff.mp hlook.symm
    rw [List.append_cons] at hs'
    exact ⟨s₁, words_of_append (words_of_append hs'), hlook₁.symm, fun _ => words_of_append hs'⟩
  · rw [seen_concat_of_not_mem hev] at hlook
    exact ⟨s', hs', hlook, fun h => absurd h hev⟩

/-! ## Normality
 -/

/-- A word of the plant that looks like a word of the candidate is one. So somebody
who sees only the observable events can tell words of the candidate from all others. -/
def NormalWithin (plant : Automaton) (observable : EventSet) (cand : Automaton) : Prop :=
  ∀ s ∈ plant.words, ∀ s' ∈ cand.words, seen observable s = seen observable s' → s ∈ cand.words

/-- There are enough numbers for what an observer of the candidate can believe, and for the pairs of
its product with the plant. -/
structure LookalikesFit (plant : Automaton) (observable : EventSet) (cand : Automaton) : Prop where
  beliefs : (cand.beliefs (cand.alphabet ∩ observable)).length < UInt32.size
  pairs : (((cand.project observable).inverseProject plant.alphabet).jointPairs plant).length <
    UInt32.size

section

open Automaton

variable {plant cand : Automaton} {observable : EventSet} (hplant : plant.WellFormed)
  (hcand : cand.WellFormed) (halphabet : cand.alphabet = plant.alphabet)
include hplant hcand halphabet

/-- If the candidate has `n` states, there are at most `2 ^ n` things to believe,
and each of them goes with at most all states of the plant. -/
theorem lookalikesFit_of_size_lt (hbeliefs : 2 ^ cand.size < UInt32.size)
    (hpairs : 2 ^ cand.size * plant.size < UInt32.size) : LookalikesFit plant observable cand := by
  have hcount := cand.length_beliefs_le_two_pow (cand.alphabet ∩ observable)
  have hbeliefs := Nat.lt_of_le_of_lt hcount hbeliefs
  obtain ⟨belief, ho⟩ := observes_inverseProject observable plant.alphabet hcand
    (fun _ hev => halphabet ▸ hev) hbeliefs
  have hobserver := (size_inverseProject_le observable plant.alphabet hcand hbeliefs).trans hcount
  exact ⟨hbeliefs, Nat.lt_of_le_of_lt ((length_jointPairs_le ho.wellFormed hplant).trans
    (Nat.mul_le_mul_right plant.size hobserver)) hpairs⟩

variable (hfits : LookalikesFit plant observable cand) (hdet : plant.IsDeterministic)
include hfits hdet

/-- **What the test compares** with the words of the candidate: the words of the
plant that look like one of them. The projection says what they look like, the
inverse projection lets everything happen that cannot be seen, and the product keeps
to the plant. -/
theorem lookalikes_spec :
    let lookalikes := (((cand.project observable).inverseProject plant.alphabet).product plant).1
    lookalikes.IsDeterministic ∧ lookalikes.words =
      {s | s ∈ plant.words ∧ ∃ s' ∈ cand.words, seen observable s = seen observable s'} := by
  obtain ⟨belief, ho⟩ := observes_inverseProject observable plant.alphabet hcand
    (fun _ hev => halphabet ▸ hev) hfits.beliefs
  have hproduct := unfolds_product ho.wellFormed hplant hfits.pairs
  have : Nonempty StatePair := ⟨⟨⟨1⟩, ⟨1⟩⟩⟩
  obtain ⟨value, hvalue⟩ := hproduct.exists_value
  refine ⟨hproduct.isDeterministic hvalue ho.isDeterministic hdet, ?_⟩
  ext s
  rw [hproduct.words_eq hvalue, Set.mem_inter_iff, and_comm]
  refine and_congr_right fun hs => ?_
  have hevents : ∀ ev ∈ s, ev ∈ plant.alphabet := fun _ hev => mem_alphabet_of_mem_words hplant hs hev
  rw [ho.mem_words_iff (loop_mem_inverseProject observable _ hcand hfits.beliefs) hevents]
  refine exists_congr fun s' => and_congr_right fun hs' => ?_
  rw [seen_inter fun ev hev => halphabet ▸ hevents ev hev,
    seen_inter fun _ hev => mem_alphabet_of_mem_words hcand hs' hev]

variable (hdet' : cand.IsDeterministic)
include hdet'

/-- For a normal candidate the words that are compared are words of the candidate. -/
theorem isNormal_of_normalWithin (hnormal : NormalWithin plant observable cand) :
    isNormal plant observable cand = true := by
  obtain ⟨hlookalikes, hwords⟩ := lookalikes_spec hplant hcand halphabet hfits hdet
  refine Bool.or_eq_true_iff.mpr (.inr (isClosedSubset_of_subset hlookalikes hdet' ?_))
  rw [hwords]
  exact fun s ⟨hs, s', hs', hlook⟩ => hnormal s hs s' hs' hlook

/-- A word of the plant that looks like a word of the candidate is among the words
that are compared. -/
theorem normalWithin_of_isNormal (htest : isNormal plant observable cand = true) :
    NormalWithin plant observable cand := by
  intro s hs s' hs' hlook
  rcases Bool.or_eq_true_iff.mp htest with hempty | hsub
  · obtain ⟨x, hx, -⟩ := hs'
    exact absurd hx (IdentSet.isEmpty_iff.mp hempty x)
  · obtain ⟨hlookalikes, hwords⟩ := lookalikes_spec hplant hcand halphabet hfits hdet
    refine words_subset_of_isClosedSubset hlookalikes hdet' hsub ?_
    rw [hwords]
    exact ⟨hs, s', hs', hlook⟩

/-- **Normality**: the test succeeds if and only if every word of the plant that looks like a word of
the candidate is one. -/
theorem isNormal_iff : isNormal plant observable cand = true ↔ NormalWithin plant observable cand :=
  ⟨normalWithin_of_isNormal hplant hcand halphabet hfits hdet hdet',
    isNormal_of_normalWithin hplant hcand halphabet hfits hdet hdet'⟩

end

/-- A repair that is seen tells a machine that is always repaired from one that is started again as it
is; if nothing but the starts are seen, they look alike. -/
theorem repairedMachine_isNormal :
    NormalWithin .machine (.ofList [⟨1⟩, ⟨2⟩, ⟨4⟩]) .repairedMachine ∧
      ¬NormalWithin .machine (.ofList [⟨1⟩]) .repairedMachine := by
  have halphabet : Automaton.repairedMachine.alphabet = Automaton.machine.alphabet := by
    decide +kernel
  have hfits : ∀ observable, LookalikesFit .machine observable .repairedMachine := fun observable =>
    lookalikesFit_of_size_lt Automaton.machine_wellFormed Automaton.repairedMachine_wellFormed
      halphabet (by decide +kernel) (by decide +kernel)
  have htest : ∀ observable, isNormal .machine observable .repairedMachine = true ↔
      NormalWithin .machine observable .repairedMachine := fun observable =>
    isNormal_iff Automaton.machine_wellFormed Automaton.repairedMachine_wellFormed halphabet
      (hfits observable) Automaton.machine_isDeterministic Automaton.repairedMachine_isDeterministic
  exact ⟨(htest _).mp (by decide +kernel), (htest _).not.mp (by decide +kernel)⟩

namespace Accompanied

open Automaton

variable {plant cand o : Automaton} {plantState cls : StateId → StateId} {observable : EventSet}
  {belief : StateId → Set StateId} {s s' : List EventId} {x z : StateId}
  (h : Accompanied plant cand plantState)
include h

/-- If no word leads out of a part of the plant, the candidate moves along with this
part. -/
theorem of_isPart {part : Automaton} (hpart : part.IsPart plant) (hwf : part.WellFormed)
    (hreached : cand.AllReached) (hwords : cand.words ⊆ part.words) :
    Accompanied part cand plantState := by
  have hdet := hpart.isSubautomaton.isDeterministic h.plant_isDeterministic
  have hreaches : ∀ {s x}, cand.Reaches s x → part.Reaches s (plantState x) := by
    intro s x hx
    obtain ⟨y, hy⟩ := mem_words_iff.mp (hwords hx.mem_words)
    have heq := h.plant_isDeterministic.reaches_unique (h.reaches hx) (hpart.isSubautomaton.reaches hy)
    exact heq ▸ hy
  refine ⟨hwf, hdet, h.isDeterministic, h.wellFormed, fun t ht => ?_, fun x hx => ?_⟩
  · obtain ⟨s, hs⟩ := hreached t.source (h.wellFormed.source_mem t ht)
    obtain ⟨y, hy, ht'⟩ := reaches_concat.mp (hreaches (hs.concat ht))
    exact hdet.reaches_unique hy (hreaches hs) ▸ ht'
  · exact reaches_nil.mp (hreaches (reaches_nil.mpr hx))

variable (halphabet : cand.alphabet = plant.alphabet) (hnormal : NormalWithin plant observable cand)
include halphabet hnormal

/-- What looks like a word of the candidate, and is one of the plant, is one of the
candidate. So for words of the plant the observer goes along with nothing else. -/
theorem exists_reaches_of_observes
    (ho : Observes cand (cand.alphabet ∩ observable) o belief) (hz : o.Reaches s z)
    (hs : s ∈ plant.words) : ∃ x, cand.Reaches s x ∧
      belief z = cand.beliefAfter observable (seen observable s) := by
  have hseen : seen (cand.alphabet ∩ observable) s = seen observable s := seen_inter fun ev hev =>
    halphabet ▸ mem_alphabet_of_mem_words h.plant_wellFormed hs hev
  have hbelief := ho.belief_eq hz
  rw [beliefAfter_inter h.wellFormed, hseen] at hbelief
  obtain ⟨y, hy⟩ := ho.belief_nonempty z (hz.mem_states ho.wellFormed)
  rw [hbelief] at hy
  obtain ⟨s', hs', hlook⟩ := mem_beliefAfter_iff.mp hy
  obtain ⟨x, hx⟩ := mem_words_iff.mp (hnormal s hs s' hs'.mem_words hlook.symm)
  exact ⟨x, hx, hbelief⟩

/-- **Normality**: the test succeeds if a state of the candidate tells what is
believed when it is reached. Then a pair of the observer and the plant belongs to
one state of the candidate, so there are as many numbers as the test needs if there
are enough for the candidate. -/
theorem isNormal (cls : StateId → StateId) (hsize : cand.size < UInt32.size)
    (hcls : ∀ {s x}, cand.Reaches s x →
      cand.beliefAfter observable (seen observable s) = {y | y ∈ cand.states ∧ cls y = cls x}) :
    isNormal plant observable cand = true := by
  have hbeliefs := h.wellFormed.length_beliefs_le observable cls hcls
  obtain ⟨belief, ho⟩ := observes_inverseProject observable plant.alphabet h.wellFormed
    (fun _ hev => halphabet ▸ hev) (Nat.lt_of_le_of_lt hbeliefs hsize)
  have hpairs : (((cand.project observable).inverseProject plant.alphabet).jointPairs plant).length ≤
      cand.size := by
    generalize (cand.project observable).inverseProject plant.alphabet = o at ho
    -- a pair goes with the state that its words lead to
    refine IdentSet.length_le_size
      (R := fun p x => ∃ s, o.Reaches s p.left ∧ plant.Reaches s p.right ∧ cand.Reaches s x)
      Traversal.discover_nodup (fun p hp => ?_) ?_
    · obtain ⟨s, hleft, hright⟩ := exists_reaches_of_mem_jointPairs hp
      obtain ⟨x, hx, -⟩ :=
        h.exists_reaches_of_observes halphabet hnormal ho hleft hright.mem_words
      exact ⟨x, hx.mem_states h.wellFormed, s, hleft, hright, hx⟩
    · have hpair : ∀ {p : StatePair} {s x}, o.Reaches s p.left → plant.Reaches s p.right →
          cand.Reaches s x → p.left ∈ o.states ∧
            belief p.left = {y | y ∈ cand.states ∧ cls y = cls x} ∧ p.right = plantState x := by
        intro p s x hleft hright hx
        obtain ⟨-, -, hbelief⟩ :=
          h.exists_reaches_of_observes halphabet hnormal ho hleft hright.mem_words
        exact ⟨hleft.mem_states ho.wellFormed, hbelief.trans (hcls hx),
          h.plant_isDeterministic.reaches_unique hright (h.reaches hx)⟩
      rintro p - q - x ⟨s, hleft, hright, hx⟩ ⟨s', hleft', hright', hx'⟩
      obtain ⟨hp, hbelief, hplant⟩ := hpair hleft hright hx
      obtain ⟨hq, hbelief', hplant'⟩ := hpair hleft' hright' hx'
      have hobserver := ho.belief_injective _ hp _ hq (hbelief.trans hbelief'.symm)
      cases p
      cases q
      simp_all
  exact isNormal_of_normalWithin h.plant_wellFormed h.wellFormed halphabet
    ⟨Nat.lt_of_le_of_lt hbeliefs hsize, Nat.lt_of_le_of_lt hpairs hsize⟩ h.plant_isDeterministic
    h.isDeterministic hnormal

/-- It succeeds, too, for the finite words of candidate and trimmed plant, if no word of the candidate
is trimmed away. -/
theorem isNormal_trim (hreached : cand.AllReached) (hwords : cand.words ⊆ plant.trim.words)
    (cls : StateId → StateId) (hsize : cand.size < UInt32.size)
    (hcls : ∀ {s x}, cand.Reaches s x →
      cand.beliefAfter observable (seen observable s) = {y | y ∈ cand.states ∧ cls y = cls x}) :
    OmegaControl.isNormal plant.trim.markAllStates observable cand.markAllStates = true := by
  obtain ⟨hpart, hwf⟩ := h.plant_wellFormed.isPart_trim
  have hmarked : Accompanied plant.trim.markAllStates cand.markAllStates plantState :=
    { h.of_isPart hpart hwf hreached hwords with
      plant_wellFormed := hwf.markAllStates
      wellFormed := h.wellFormed.markAllStates }
  refine hmarked.isNormal (halphabet.trans hpart.alphabet_eq.symm) ?_ cls hsize fun hx => ?_
  · rw [NormalWithin, words_markAllStates, words_markAllStates]
    exact fun s hs => hnormal s (hpart.isSubautomaton.words_subset hs)
  · rw [beliefAfter_markAllStates]
    exact hcls (reaches_markAllStates.mp hx)

omit hnormal in
/-- If it succeeds, the candidate is normal with respect to the trimmed plant, as
long as numbers suffice for the test. Trimming and marking leave the finite words of
the candidate as they are. -/
theorem normalWithin_trim (hsize : 2 ^ cand.size * (plant.size + 1) < UInt32.size)
    (htest : OmegaControl.isNormal plant.trim.markAllStates observable cand.markAllStates = true) :
    NormalWithin plant.trim observable cand := by
  obtain ⟨hpart, hwf⟩ := h.plant_wellFormed.isPart_trim
  have hle : plant.trim.size ≤ plant.size := IdentSet.size_le_of_subset hpart.states_subset
  have halphabet : cand.markAllStates.alphabet = plant.trim.markAllStates.alphabet :=
    halphabet.trans hpart.alphabet_eq.symm
  have hfits : LookalikesFit plant.trim.markAllStates observable cand.markAllStates := by
    refine lookalikesFit_of_size_lt hwf.markAllStates h.wellFormed.markAllStates halphabet ?_ ?_
    · exact Nat.lt_of_le_of_lt (Nat.le_mul_of_pos_right _ (Nat.succ_pos _)) hsize
    · exact Nat.lt_of_le_of_lt (Nat.mul_le_mul_left _ (Nat.le_succ_of_le hle)) hsize
  have hnormal := normalWithin_of_isNormal hwf.markAllStates h.wellFormed.markAllStates halphabet hfits
    (hpart.isSubautomaton.isDeterministic h.plant_isDeterministic) h.isDeterministic htest
  rwa [NormalWithin, words_markAllStates, words_markAllStates] at hnormal

end Accompanied

end OmegaControl
