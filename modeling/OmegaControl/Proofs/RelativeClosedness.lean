import Mathlib.Data.Set.Finite.List
import Mathlib.Order.Filter.Cofinite
import OmegaControl.Proofs.Inclusion
import OmegaControl.Proofs.Product
import OmegaControl.RelativeClosedness

/-!
# When the test for relative closedness succeeds

Along an infinite word, an automaton goes round in cycles: there is a cycle through
some states around others if and only if it can read an infinite word from the start
on and visit the former infinitely often, but not the latter
(`hasCycle_iff_exists_reads`). On the one hand, a cycle can be repeated forever; on
the other hand, the sequence of states repeats itself as soon as the latter are
visited no more, since there are finitely many of the former.

A state of the product stands for a pair of states, so the cycles for which the test
looks are infinite words that both sides read and one of them accepts alone
(`isRelativelyClosed_iff_readTogether`). Deterministic automata read a word in one
way only, so this is about words (`isRelativelyClosed_spec`).

For automata that are omega-trim, what is generated are the beginnings of accepted
words. Then the words of which the test speaks are those all of whose beginnings are
beginnings of accepted words, which is how relative closedness is defined
(`acceptedWords_eq_iff`).
-/

namespace OmegaControl

/-- A sequence that is in a finite set infinitely often repeats itself there, as
late as one likes. -/
theorem InfinitelyOften.exists_repetition {α : Type} {f : ℕ → α} {s : Set α} (hs : s.Finite)
    (h : InfinitelyOften fun n => f n ∈ s) (k : ℕ) :
    ∃ n m, k ≤ n ∧ n < m ∧ f n = f m ∧ f n ∈ s := by
  have hinfinite : {n | k ≤ n ∧ f n ∈ s}.Infinite := by
    refine Set.infinite_of_forall_exists_gt fun a => ?_
    obtain ⟨m, hm, hmem⟩ := h (max k (a + 1))
    exact ⟨m, ⟨(Nat.le_max_left ..).trans hm, hmem⟩, (Nat.le_max_right ..).trans hm⟩
  obtain ⟨n, hn, m, hm, hne, heq⟩ := hinfinite.exists_ne_map_eq_of_mapsTo (fun n hn => hn.2) hs
  rcases Nat.lt_or_gt_of_ne hne with hlt | hlt
  · exact ⟨n, m, hn.1, hlt, heq, hn.2⟩
  · exact ⟨m, n, hm.1, hlt, heq.symm, hm.2⟩

namespace Automaton

variable {g g₁ g₂ : Automaton} {w : ℕ → EventId} {xs ys : ℕ → StateId} {through around : StateSet}
  {x₀ x : StateId} {us ts : List Transition}

/-! ## Cycles and infinite words
 -/

/-- Reading leads from one state that is visited to each later one. -/
theorem Reads.isPath (hr : g.Reads w xs) (n k : ℕ) :
    g.IsPath (xs n) (upTo (fun i => stepAt w xs (n + i)) k) ∧
      endOf (xs n) (upTo (fun i => stepAt w xs (n + i)) k) = xs (n + k) := by
  have hlater : g.Reads (fun i => w (n + i)) fun i => xs (n + i) := fun i => hr (n + i)
  exact ⟨hlater.isInfinitePath k, @endOf_stepAt (fun i => w (n + i)) (fun i => xs (n + i)) k⟩

/-- If some states are visited infinitely often and others are not, there is a
cycle. It begins after the last visit of the others. -/
theorem Reads.hasCycle (hg : g.WellFormed) (hr : g.Reads w xs)
    (hthrough : InfinitelyOften fun n => xs n ∈ through)
    (haround : ¬InfinitelyOften fun n => xs n ∈ around) : g.hasCycle through around = true := by
  obtain ⟨k, hk⟩ := not_forall.mp haround
  have hfinite : {x | x ∈ through}.Finite :=
    (List.finite_toSet through.toList).subset fun _ hx => IdentSet.mem_toList.mpr hx
  obtain ⟨n, m, hkn, hlt, heq, hmem⟩ := hthrough.exists_repetition hfinite k
  obtain ⟨d, rfl⟩ := Nat.exists_eq_add_of_lt hlt
  obtain ⟨hpath, hend⟩ := hr.isPath n (d + 1)
  refine (hasCycle_iff hg).mpr ⟨xs n, hmem, _, ?_, hpath, hend.trans heq.symm, fun t ht hmem => ?_⟩
  · exact List.ne_nil_of_length_pos (by rw [length_upTo]; exact d.succ_pos)
  · obtain ⟨i, -, rfl⟩ := mem_upTo.mp ht
    exact hk ⟨n + i + 1, by omega, hmem⟩

/-- A cycle can be repeated forever. The word leads to the cycle first, and then
round it. -/
theorem exists_reads_of_cycle (hus : g.IsPath x₀ us) (hend : endOf x₀ us = x) (hx : x ∈ through)
    (hne : ts ≠ []) (hts : g.IsPath x ts) (hend' : endOf x ts = x)
    (havoid : ∀ t ∈ ts, t.target ∉ around) :
    ∃ w xs, xs 0 = x₀ ∧ g.Reads w xs ∧ (InfinitelyOften fun n => xs n ∈ through) ∧
      ¬InfinitelyOften fun n => xs n ∈ around := by
  have hbase : ∃ vs', us = us ++ vs' ∧ g.IsPath x₀ us ∧ endOf x₀ us = x ∧
      ∀ t ∈ vs', t.target ∉ around :=
    ⟨[], (List.append_nil us).symm, hus, hend, fun _ ht => absurd ht List.not_mem_nil⟩
  obtain ⟨r, hbegin, hoften⟩ := exists_sequence
    (P := fun vs => ∃ vs', vs = us ++ vs' ∧ g.IsPath x₀ vs ∧ endOf x₀ vs = x ∧
      ∀ t ∈ vs', t.target ∉ around)
    (fun vs ⟨vs', hvs, hpath, hend, hout⟩ => ⟨ts, hne, vs' ++ ts, by rw [hvs, List.append_assoc],
      isPath_append.mpr ⟨hpath, hend ▸ hts⟩, by rw [endOf_append, hend, hend'],
      List.forall_mem_append.mpr ⟨hout, havoid⟩⟩) hbase
  have hr : g.IsInfinitePath x₀ r :=
    isInfinitePath_of_infinitelyOften (hoften.mono fun _ ⟨_, _, hpath, _⟩ => hpath)
  refine ⟨_, _, rfl, hr.reads, hoften.mono fun _ ⟨_, _, _, hend, _⟩ => hend ▸ hx, fun haround => ?_⟩
  -- a state after the first ones is the target of a step of the cycle
  obtain ⟨n, hn, hmem⟩ := haround (us.length + 1)
  obtain ⟨i, rfl⟩ := Nat.exists_eq_add_of_le hn
  obtain ⟨m, hm, vs, hvs, -, -, hout⟩ := hoften (us.length + 1 + i)
  obtain ⟨d, rfl⟩ := Nat.exists_eq_add_of_le hm
  have hsteps : vs = upTo (fun j => r (us.length + j)) (1 + i + d) := by
    rw [Nat.add_assoc us.length, Nat.add_assoc us.length, upTo_add, hbegin] at hvs
    exact (List.append_cancel_left hvs).symm
  refine hout (r (us.length + i)) (hsteps ▸ mem_upTo.mpr ⟨i, by omega, rfl⟩) ?_
  rwa [Nat.add_right_comm, endOf_upTo_succ] at hmem

/-- **Cycles and infinite words**: there is a cycle if and only if an infinite word can be read so that
states to go through are visited infinitely often, and states to go around are not. -/
theorem hasCycle_iff_exists_reads (hg : g.WellFormed) (hreached : g.AllReached) :
    g.hasCycle through around = true ↔ ∃ w xs, xs 0 ∈ g.initial ∧ g.Reads w xs ∧
      (InfinitelyOften fun n => xs n ∈ through) ∧ ¬InfinitelyOften fun n => xs n ∈ around := by
  constructor
  · intro hcycle
    obtain ⟨x, hx, ts, hne, hts, hend, havoid⟩ := (hasCycle_iff hg).mp hcycle
    obtain ⟨t, us, rfl⟩ := List.exists_cons_of_ne_nil hne
    have hstate : x ∈ g.states := hts.2.1 ▸ hg.source_mem t hts.1
    obtain ⟨x₀, hx₀, us, hus, hend'⟩ := exists_reaches_iff.mp (hreached x hstate)
    obtain ⟨w, xs, hinitial, hr, hoften⟩ :=
      exists_reads_of_cycle hus hend' hx hne hts hend havoid
    exact ⟨w, xs, hinitial ▸ hx₀, hr, hoften⟩
  · rintro ⟨w, xs, -, hr, hthrough, haround⟩
    exact hr.hasCycle hg hthrough haround

/-! ## Words of the product
 -/

/-- Both automata read the infinite word, from the start on. Neither run is asked to
visit marked states: what is compared is which of them does. -/
structure ReadTogether (g₁ g₂ : Automaton) (w : ℕ → EventId) (xs ys : ℕ → StateId) : Prop where
  left_initial : xs 0 ∈ g₁.initial
  right_initial : ys 0 ∈ g₂.initial
  /-- `xs` are the states of the left automaton that it comes by -/
  left : g₁.Reads w xs
  right : g₂.Reads w ys

namespace Unfolds

variable {numbers : Composition} {value : StateId → StatePair}
  (h : Unfolds g numbers (g₁.alphabet ∩ g₂.alphabet) (g₁.initialPairs g₂)
    (g₁.jointSteps g₂) fun p => p.left ∈ g₁.marked ∧ p.right ∈ g₂.marked)
include h

/-- The product reads what both components read. -/
theorem exists_reads (hr : ReadTogether g₁ g₂ w xs ys) : ∃ zs, zs 0 ∈ g.initial ∧ g.Reads w zs ∧
    ∀ n, numbers[(⟨xs n, ys n⟩ : StatePair)]? = some (zs n) := by
  choose zs hzs hnumber using fun n => h.exists_reaches_pair (hr.left.reaches hr.left_initial n)
    (hr.right.reaches hr.right_initial n)
  refine ⟨zs, reaches_nil.mp (hzs 0), fun n => ?_, hnumber⟩
  exact (h.mem_transitions ⟨zs n, w n, zs (n + 1)⟩).mpr
    ⟨_, _, hnumber n, hnumber (n + 1), mem_jointSteps.mpr ⟨hr.left n, hr.right n⟩⟩

/-- The states whose pair passes a test. -/
theorem mem_statesWhere_iff {p : StatePair} (hp : numbers[p]? = some x) {test : StatePair → Bool} :
    x ∈ statesWhere numbers test ↔ test p = true := by
  rw [mem_statesWhere]
  constructor
  · rintro ⟨q, hq, htest⟩
    exact h.injective hp hq ▸ htest
  · exact fun htest => ⟨p, hp, htest⟩

variable (hvalue : ∀ x ∈ g.states, numbers[value x]? = some x)
include hvalue

/-- Both components read what the product reads. `value` gives the pair that a state
stands for. -/
theorem readTogether {zs : ℕ → StateId} (hinitial : zs 0 ∈ g.initial) (hr : g.Reads w zs) :
    ReadTogether g₁ g₂ w (fun n => (value (zs n)).left) fun n => (value (zs n)).right := by
  obtain ⟨hleft, hright⟩ := h.reaches_components hvalue (reaches_nil.mpr hinitial)
  exact ⟨reaches_nil.mp hleft, reaches_nil.mp hright,
    fun n => (h.step_components hvalue (hr n)).1, fun n => (h.step_components hvalue (hr n)).2⟩

/-- **No cycle**: what is visited infinitely often on the one hand is visited infinitely often on the
other, along every word that both components read. -/
theorem hasCycle_eq_false_iff {through around : StatePair → Bool} :
    g.hasCycle (statesWhere numbers through) (statesWhere numbers around) = false ↔
      ∀ w xs ys, ReadTogether g₁ g₂ w xs ys →
        InfinitelyOften (fun n => through ⟨xs n, ys n⟩ = true) →
        InfinitelyOften fun n => around ⟨xs n, ys n⟩ = true := by
  rw [← Bool.not_eq_true, hasCycle_iff_exists_reads h.wellFormed h.allReached]
  push Not
  constructor
  · intro hno w xs ys hr
    obtain ⟨zs, hinitial, hzs, hnumber⟩ := h.exists_reads hr
    have hmem : ∀ test n, zs n ∈ statesWhere numbers test ↔ test ⟨xs n, ys n⟩ = true :=
      fun test n => h.mem_statesWhere_iff (hnumber n)
    have hvisits := hno w zs hinitial hzs
    simp only [hmem] at hvisits
    exact hvisits
  · intro hno w zs hinitial hzs
    have hmem : ∀ test n, zs n ∈ statesWhere numbers test ↔ test (value (zs n)) = true :=
      fun test n => h.mem_statesWhere_iff (hvalue _ (h.wellFormed.source_mem _ (hzs n)))
    simp only [hmem]
    exact hno w _ _ (h.readTogether hvalue hinitial hzs)

end Unfolds

/-- A word that both sides generate is read together. All its beginnings are
generated, which in a deterministic automaton are the beginnings of one path. -/
theorem exists_readTogether (h₁ : g₁.IsDeterministic) (h₂ : g₂.IsDeterministic)
    (hw₁ : ∀ n, upTo w n ∈ g₁.words) (hw₂ : ∀ n, upTo w n ∈ g₂.words) :
    ∃ xs ys, ReadTogether g₁ g₂ w xs ys := by
  obtain ⟨xs, hxs, hleft⟩ := h₁.exists_reads hw₁
  obtain ⟨ys, hys, hright⟩ := h₂.exists_reads hw₂
  exact ⟨xs, ys, hxs, hys, hleft, hright⟩

end Automaton

/-! ## Words of the candidate
 -/

namespace Automaton

/-- If the candidate generates what its accepted words begin with, this says which
words it accepts. -/
theorem acceptedWords_eq_iff {plant cand : Automaton}
    (hbeginnings : cand.words = beginnings cand.acceptedWords) :
    cand.acceptedWords =
        {w | w ∈ plant.acceptedWords ∧ ∀ n, upTo w n ∈ beginnings cand.acceptedWords} ↔
      cand.words ⊆ plant.words ∧
        ∀ w, (∀ n, upTo w n ∈ cand.words) → (w ∈ cand.acceptedWords ↔ w ∈ plant.acceptedWords) := by
  have hword : ∀ {w}, w ∈ cand.acceptedWords → ∀ n, upTo w n ∈ cand.words := fun hw n =>
    hbeginnings ▸ upTo_mem_beginnings hw n
  rw [← hbeginnings]
  constructor
  · intro heq
    have hsub : cand.acceptedWords ⊆ plant.acceptedWords := fun w hw => (heq.subset hw).1
    refine ⟨?_, fun w hw => ⟨fun hmem => hsub hmem, fun hmem => heq.superset ⟨hmem, hw⟩⟩⟩
    rw [hbeginnings]
    exact (beginnings_mono hsub).trans beginnings_acceptedWords_subset
  · rintro ⟨-, hboth⟩
    ext w
    exact ⟨fun hw => ⟨(hboth w (hword hw)).mp hw, hword hw⟩, fun ⟨hw, hw'⟩ => (hboth w hw').mpr hw⟩

end Automaton

/-! ## The test
 -/

section

open Automaton

variable {plant cand : Automaton} (hplant : plant.WellFormed) (hcand : cand.WellFormed)
  (hdet : plant.IsDeterministic) (hdet' : cand.IsDeterministic)
  (hsize : (cand.jointPairs plant).length < UInt32.size)
include hplant hcand hdet hdet' hsize

/-- What the test finds out about words that both sides read: there is no cycle on
which one side is marked and the other is not, in either of the two ways. -/
theorem isRelativelyClosed_iff_readTogether : isRelativelyClosed plant cand = true ↔
    cand.words ⊆ plant.words ∧ ∀ w xs ys, ReadTogether cand plant w xs ys →
      ((InfinitelyOften fun n => xs n ∈ cand.marked) ↔
        InfinitelyOften fun n => ys n ∈ plant.marked) := by
  have hproduct := unfolds_product hcand hplant hsize
  have : Nonempty StatePair := ⟨⟨⟨1⟩, ⟨1⟩⟩⟩
  obtain ⟨value, hvalue⟩ := hproduct.exists_value
  rw [isRelativelyClosed, Bool.and_eq_true, Bool.and_eq_true, Bool.not_eq_true', Bool.not_eq_true',
    hproduct.hasCycle_eq_false_iff hvalue, hproduct.hasCycle_eq_false_iff hvalue]
  simp only [decide_eq_true_eq]
  refine and_congr ⟨words_subset_of_isClosedSubset hdet' hdet, isClosedSubset_of_subset hdet' hdet⟩ ?_
  constructor
  · rintro ⟨hplantOnly, hcandOnly⟩ w xs ys hr
    exact ⟨hcandOnly w xs ys hr, hplantOnly w xs ys hr⟩
  · intro hboth
    exact ⟨fun w xs ys hr => (hboth w xs ys hr).mpr, fun w xs ys hr => (hboth w xs ys hr).mp⟩

/-- The same for words. A word that the candidate generates is read together with
the plant. -/
theorem isRelativelyClosed_iff : isRelativelyClosed plant cand = true ↔ cand.words ⊆ plant.words ∧
    ∀ w, (∀ n, upTo w n ∈ cand.words) → (w ∈ cand.acceptedWords ↔ w ∈ plant.acceptedWords) := by
  rw [isRelativelyClosed_iff_readTogether hplant hcand hdet hdet' hsize]
  refine and_congr_right fun hsub => ⟨fun hboth w hw => ?_, fun hboth w xs ys hr => ?_⟩
  · obtain ⟨xs, ys, hr⟩ := exists_readTogether hdet' hdet hw fun n => hsub (hw n)
    rw [hdet'.mem_acceptedWords_iff hr.left hr.left_initial,
      hdet.mem_acceptedWords_iff hr.right hr.right_initial]
    exact hboth w xs ys hr
  · rw [← hdet'.mem_acceptedWords_iff hr.left hr.left_initial,
      ← hdet.mem_acceptedWords_iff hr.right hr.right_initial]
    exact hboth w fun n => (hr.left.reaches hr.left_initial n).mem_words

/-- **With its checks**, the test answers the same for omega-trim automata with one alphabet: without
states a candidate is relatively closed, and with states it has a word that a plant without states does
not have. -/
theorem checkRelativelyClosed_eq (halphabet : cand.alphabet = plant.alphabet)
    (htrim : cand.isOmegaTrim = true) (htrim' : plant.isOmegaTrim = true) :
    checkRelativelyClosed plant cand = .ok (isRelativelyClosed plant cand) := by
  have htest := isRelativelyClosed_iff hplant hcand hdet hdet' hsize
  rw [checkRelativelyClosed, checkAlphabets, if_pos halphabet.symm, checkOmegaTrim, if_pos htrim,
    checkOmegaTrim, if_pos htrim', checkDeterministic, if_pos hdet, if_pos hdet']
  by_cases hempty : cand.isEmpty = true
  · have hnone : ∀ {s}, s ∉ cand.words := not_mem_words_of_isEmpty hcand hempty
    rw [hempty, htest.mpr ⟨fun s hs => absurd hs hnone, fun w hw => absurd (hw 0) hnone⟩]
    rfl
  by_cases hempty' : plant.isEmpty = true
  · have hopen : isRelativelyClosed plant cand = false := by
      refine Bool.eq_false_iff.mpr fun hclosed => hempty (IdentSet.isEmpty_iff.mpr fun x hx => ?_)
      obtain ⟨s, hs⟩ := (hcand.of_isOmegaTrim htrim).1 x hx
      exact not_mem_words_of_isEmpty hplant hempty' ((htest.mp hclosed).1 hs.mem_words)
    rw [hopen, hempty', Bool.eq_false_iff.mpr hempty]
    rfl
  · rw [Bool.eq_false_iff.mpr hempty, Bool.eq_false_iff.mpr hempty']
    rfl

/-- **Relative closedness**: the test succeeds if and only if the words of the candidate are words of
the plant, and an infinite word all of whose beginnings the candidate generates is accepted by both or
by neither. So for omega-trim automata with one alphabet it tells whether the candidate accepts exactly
those accepted words of the plant that begin like accepted words of the candidate. -/
theorem isRelativelyClosed_spec :
    (isRelativelyClosed plant cand = true ↔ cand.words ⊆ plant.words ∧
      ∀ w, (∀ n, upTo w n ∈ cand.words) → (w ∈ cand.acceptedWords ↔ w ∈ plant.acceptedWords)) ∧
    (cand.alphabet = plant.alphabet → cand.isOmegaTrim = true → plant.isOmegaTrim = true →
      ∃ b, checkRelativelyClosed plant cand = .ok b ∧ (b = true ↔ cand.acceptedWords =
        {w | w ∈ plant.acceptedWords ∧ ∀ n, upTo w n ∈ beginnings cand.acceptedWords})) := by
  have htest := isRelativelyClosed_iff hplant hcand hdet hdet' hsize
  refine ⟨htest, fun halphabet htrim htrim' => ⟨_,
    checkRelativelyClosed_eq hplant hcand hdet hdet' hsize halphabet htrim htrim', htest.trans ?_⟩⟩
  exact (acceptedWords_eq_iff (words_eq_beginnings hcand (hcand.of_isOmegaTrim htrim).2)).symm

end

section

open Automaton

/-- A machine that is always repaired after a failure is done with its work infinitely often whenever one
is that need not be repaired, along the words of both. -/
theorem repairedMachine_isRelativelyClosed :
    checkRelativelyClosed machine repairedMachine = .ok true ∧
    repairedMachine.acceptedWords = {w | w ∈ machine.acceptedWords ∧
      ∀ n, upTo w n ∈ beginnings repairedMachine.acceptedWords} := by
  have hsize : (repairedMachine.jointPairs machine).length < UInt32.size := Nat.lt_of_le_of_lt
    (length_jointPairs_le repairedMachine_wellFormed machine_wellFormed) (by decide +kernel)
  have hinitial : repairedMachine.initial = machine.initial := by decide +kernel
  have hmarked : repairedMachine.marked = machine.marked := by decide +kernel
  have hchecks : repairedMachine.alphabet = machine.alphabet ∧ repairedMachine.isOmegaTrim = true ∧
      machine.isOmegaTrim = true := by decide +kernel
  obtain ⟨halphabet, htrim, htrim'⟩ := hchecks
  obtain ⟨htest, hchecked⟩ := isRelativelyClosed_spec machine_wellFormed repairedMachine_wellFormed
    machine_isDeterministic repairedMachine_isDeterministic hsize
  have hclosed : isRelativelyClosed machine repairedMachine = true := by
    refine htest.mpr ⟨repairedMachine_staysWithin.words_subset, fun w hw => ?_⟩
    -- both read the word along the same states
    obtain ⟨xs, hxs, hr⟩ := repairedMachine_isDeterministic.exists_reads hw
    have hr' : machine.Reads w xs := fun n => mem_transitions_machine (hr n)
    rw [repairedMachine_isDeterministic.mem_acceptedWords_iff hr hxs,
      machine_isDeterministic.mem_acceptedWords_iff hr' (hinitial ▸ hxs), hmarked]
  have hanswer := checkRelativelyClosed_eq machine_wellFormed repairedMachine_wellFormed
    machine_isDeterministic repairedMachine_isDeterministic hsize halphabet htrim htrim'
  rw [hclosed] at hanswer
  obtain ⟨b, hb, hwords⟩ := hchecked halphabet htrim htrim'
  obtain rfl := Except.ok.inj (hb.symm.trans hanswer)
  exact ⟨hanswer, hwords.mp rfl⟩

end

end OmegaControl
