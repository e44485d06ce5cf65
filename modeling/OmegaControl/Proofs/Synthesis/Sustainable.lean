import OmegaControl.Proofs.Synthesis.ControllableWords
import OmegaControl.Proofs.Synthesis.NormalCandidate

/-!
# What pruning for an observer keeps

Pruning takes states and transitions away in an order that depends on their numbers,
and in the end it may have done so for different reasons. What is left can be said
without any of this: the words of the result are the largest set of words of the
candidate that can be kept up by somebody who sees only the observable events
(`ObservedProblem.Sustainable`).

They can be kept up (`PrunedReduct.sustainable`), and no word is lost of a set that
can (`carries_prunePrefixes`): the controllable part and the normal part keep all
words of it since it is prefix-controllable and prefix-normal, and trimming keeps
them since each goes on to a marked state.

The union of such sets is one again, so there is a largest one (`sustained`). But
the loop as a whole does not end with it, since enforcing the marking by patterns
may take more away.
-/

namespace OmegaControl

namespace ObservedProblem

open NormalPart Automaton

variable {c : ObservedProblem} {o a g : Automaton} {label : StateId → ProductState}
  {cls : StateId → StateId} {p q d : ObservedCandidate} {K : Set (List EventId)} {s : List EventId}
  {x : StateId}

/-- Words that can be kept up by somebody who sees only the observable events: they go along with
the plant, words of the plant that look like one of them belong to them, and each goes on to a
marked state. -/
structure Sustainable (c : ObservedProblem) (K : Set (List EventId)) : Prop extends
    c.toControlProblem.Compliant K where
  /-- what looks like one of the words is one -/
  normal : ∀ s ∈ c.plant.words, ∀ s' ∈ K, seen c.observable s = seen c.observable s' → s ∈ K
  /-- each word goes on to a marked state of the product, within the set -/
  alive : ∀ s ∈ K, ∃ u, u ≠ [] ∧ s ++ u ∈ K ∧ ∃ p q, c.toControlProblem.IsStart p ∧
    c.toControlProblem.Leads p (s ++ u) q ∧ ControlledProduct.isMarked c.spec q = true

/-- What is asked of the set as to observation. -/
theorem Sustainable.prefixNormal (hK : c.Sustainable K) : PrefixNormal c.plant c.observable K :=
  ⟨hK.mem_of_append, hK.normal⟩

/-- **What is left** after pruning can be kept up. Its states comply, what they
generate is normal, and marked states are ahead of each of them, since pruning finds
nothing to delete any more. -/
theorem PrunedReduct.sustainable (h : c.PrunedReduct o a label cls q) (hc : c.WellPosed) :
    c.Sustainable q.cand.words where
  mem_of_append := words_of_append
  exists_leads hs := by
    obtain ⟨x, hx⟩ := mem_words_iff.mp hs
    obtain ⟨p, hp, hs⟩ := h.tracks.exists_leads hx
    exact ⟨p, label x, hp, hs⟩
  complies s hs ev hev hword := by
    obtain ⟨x, hx⟩ := mem_words_iff.mp hs
    obtain ⟨y, hy⟩ := (hc.plant_isDeterministic.concat_mem_words ((h.accompanied hc).reaches hx)).mp
      hword
    obtain ⟨t, ht, hsource, rfl, -⟩ :=
      h.pruned.complies x (hx.mem_states h.reduct.wellFormed) _ hy rfl hev
    exact (h.isDeterministic.concat_mem_words hx).mpr ⟨t.target, mk_mem_transitions ht hsource⟩
  normal := h.normalWithin hc
  alive s hs := by
    obtain ⟨x, hx⟩ := mem_words_iff.mp hs
    obtain ⟨us, hne, hus, hmarked⟩ := h.pruned.marked_ahead x (hx.mem_states h.reduct.wellFormed)
    have hy := reaches_append.mpr ⟨x, hx, us, hus, rfl, rfl⟩
    obtain ⟨p, hp, hs'⟩ := h.tracks.exists_leads hy
    refine ⟨us.map (·.event), List.map_eq_nil_iff.not.mpr hne, hy.mem_words, p, _, hp, hs', ?_⟩
    exact ((h.tracks.mem_marked _).mp hmarked).2

/-- The words of an automaton that can be kept up. -/
def sustained (c : ObservedProblem) (g : Automaton) : Set (List EventId) :=
  {s | ∃ K, c.Sustainable K ∧ K ⊆ g.words ∧ s ∈ K}

/-- Whatever is left after pruning can be kept up. -/
theorem PrunedReduct.words_subset_sustained (h : c.PrunedReduct o a label cls q)
    (hc : c.WellPosed) (hr : Reduct q p) : q.cand.words ⊆ c.sustained p.cand :=
  fun _ hs => ⟨_, h.sustainable hc, hr.cand.words_subset, hs⟩

/-- Nothing can be kept up without states. -/
theorem not_mem_sustained_of_isEmpty (hg : g.WellFormed) (hempty : g.isEmpty = true) :
    s ∉ c.sustained g := fun ⟨_, _, hsub, hs⟩ => not_mem_words_of_isEmpty hg hempty (hsub hs)

namespace Sustainable

variable (hK : c.Sustainable K) (hc : c.WellPosed)

/-! ## States that are taken away
 -/

section

variable (hg : c.Tracks g label) (hdet : g.IsDeterministic) (hsub : K ⊆ g.words)
include hK hc hg hdet hsub

/-- A marked state is ahead of each state that words lead to, and words lead there. -/
theorem marked_ahead (hs : s ∈ K) (hx : g.Reaches s x) : ∃ us, us ≠ [] ∧ g.IsPath x us ∧
    endOf x us ∈ g.marked ∧ s ++ us.map (·.event) ∈ K := by
  obtain ⟨u, hne, hmem, p, q, hp, hq, hmarked⟩ := hK.alive s hs
  obtain ⟨y, hy⟩ := mem_words_iff.mp (hsub hmem)
  obtain ⟨x', hx', us, hus, rfl, rfl⟩ := reaches_append.mp hy
  obtain rfl := hdet.reaches_unique hx hx'
  obtain ⟨p', hp', hq'⟩ := hg.exists_leads hy
  obtain rfl := hp.unique hc.deterministic hp'
  obtain rfl := hq.unique hc.deterministic hq'
  refine ⟨us, fun hnil => hne (hnil ▸ rfl), hus, (hg.mem_marked _).mpr ⟨?_, hmarked⟩, hmem⟩
  exact hy.mem_states hg.wellFormed

/-- No word leads to a state from which no marked state can be reached. -/
theorem subset_words_coaccessible : K ⊆ g.coaccessible.words := by
  refine (hg.wellFormed.isPart_restrictStates _).subset_words hK.mem_of_append hsub fun s hs x hx => ?_
  obtain ⟨us, -, hus, hmarked, -⟩ := hK.marked_ahead hc hg hdet hsub hs hx
  exact mem_states_restrictStates.mpr
    ⟨hx.mem_states hg.wellFormed, mem_coaccessibleSet.mpr ⟨us, hus, hmarked⟩⟩

/-- No word leads to a dead end. -/
theorem subset_words_complete : K ⊆ g.complete.words := by
  refine (hg.wellFormed.isPart_deleteStates _).subset_words hK.mem_of_append hsub fun s hs x hx => ?_
  refine mem_states_deleteStates.mpr ⟨hx.mem_states hg.wellFormed, ?_⟩
  refine not_mem_blockingSet {x | ∃ s ∈ K, g.Reaches s x} ?_ ⟨s, hs, hx⟩
  rintro x ⟨s, hs, hx⟩
  obtain ⟨us, hne, hus, -, hmem⟩ := hK.marked_ahead hc hg hdet hsub hs hx
  obtain ⟨t, us, rfl⟩ := List.exists_cons_of_ne_nil hne
  rw [List.map_cons, List.append_cons] at hmem
  exact ⟨t, hus.1, hus.2.1, _, hK.mem_of_append hmem,
    hx.concat (mk_mem_transitions hus.1 hus.2.1)⟩

end

/-- The part that is trimmed loses no word. A word that can be kept up has marked
states ahead and never ends, so neither test of trimming rejects a state on its way. -/
theorem subset_words_omegaTrim (hg : c.Tracks g label) (hdet : g.IsDeterministic)
    (hsub : K ⊆ g.words) (hK : c.Sustainable K) (hc : c.WellPosed) : K ⊆ g.omegaTrim.words := by
  rw [Automaton.omegaTrim]
  have hwords := hg.wellFormed.subset_words_accessible hsub
  have hpart := (hg.wellFormed.isPart_restrictStates g.accessibleSet).isSubautomaton
  have hg := hg.of_isSubautomaton hpart (hg.wellFormed.restrictStates _)
  have hdet := hpart.isDeterministic hdet
  change c.toControlProblem.Tracks g.accessible label at hg
  change g.accessible.IsDeterministic at hdet
  -- neither part of a round loses a word, since words of `K` can be kept up for
  -- ever
  have hstep : ∀ {g : Automaton}, c.toControlProblem.Tracks g label → g.IsDeterministic →
      K ⊆ g.words → c.toControlProblem.Tracks g.coaccessible.complete label ∧
        g.coaccessible.complete.IsDeterministic ∧ K ⊆ g.coaccessible.complete.words := by
    intro g hg hdet hsub
    have hpart := (hg.wellFormed.isPart_restrictStates g.coaccessibleSet).isSubautomaton
    have hwf := hg.wellFormed.restrictStates g.coaccessibleSet
    have hpart' := (hwf.isPart_deleteStates g.coaccessible.blockingSet).isSubautomaton
    have hg' := hg.of_isSubautomaton hpart hwf
    have hdet' := hpart.isDeterministic hdet
    exact ⟨hg'.of_isSubautomaton hpart' (hwf.deleteStates _), hpart'.isDeterministic hdet',
      hK.subset_words_complete hc hg' hdet' (hK.subset_words_coaccessible hc hg hdet hsub)⟩
  generalize g.accessible = g at hwords hg hdet
  -- one case per way a round of trimming ends
  fun_induction Automaton.settle g with
  | case1 g rest hlt ih =>
    obtain ⟨hg, hdet, hwords⟩ := hstep hg hdet hwords
    exact ih hwords hg hdet
  | case2 g rest hge => exact (hstep hg hdet hwords).2.2

/-- The controllable part loses no word, as the set goes along with the plant. -/
theorem subset_words_controllablePart (ha : Accompanied c.plant g fun x => (label x).plant)
    (hK : c.Sustainable K) (hsub : K ⊆ g.words) :
    K ⊆ (controllablePart c.plant c.controllable g).words :=
  PrefixControllable.subset_words_controllablePart
    ⟨ha.plant_isDeterministic, ha.isDeterministic, ha.wellFormed, ha.reaches⟩
    ⟨hK.mem_of_append, hK.complies⟩ hsub

end Sustainable

/-! ## All rounds
 -/

section

variable (ha : c.Attachment o a label cls) (hK : c.Sustainable K) (hc : c.WellPosed)
include ha hc hK

/-- One round keeps all words of the set, and the observer goes along with them. The
round is cut into the prunings it is made of, and each of them has a lemma of its
own. -/
theorem carries_pruneOnce (hd : Carries o a cls K d) : Carries o a cls K (c.pruneOnce d) := by
  have htracks : ∀ {d}, Carries o a cls K d → c.toControlProblem.Tracks d.cand label := fun hd =>
    ha.tracks.of_isSubautomaton hd.reduct.cand hd.reduct.wellFormed
  have hdet : ∀ {d}, Carries o a cls K d → d.cand.IsDeterministic := fun hd =>
    hd.reduct.cand.isDeterministic ha.isDeterministic
  have haccessible : ∀ {d}, Carries o a cls K d →
      Carries o a cls K { d with cand := d.cand.accessible } := fun hd =>
    have hwf := hd.reduct.wellFormed
    hd.of_isPart (hwf.isPart_restrictStates _) (hwf.restrictStates _)
      (hwf.subset_words_accessible hd.words)
  have hcoaccessible : ∀ {d}, Carries o a cls K d →
      Carries o a cls K { d with cand := d.cand.coaccessible } := fun hd =>
    have hwf := hd.reduct.wellFormed
    hd.of_isPart (hwf.isPart_restrictStates _) (hwf.restrictStates _)
      (hK.subset_words_coaccessible hc (htracks hd) (hdet hd) hd.words)
  -- each part of a round keeps the words of `K` for its own reason, and `Carries`
  -- puts them in a row
  have hcontrollable : Carries o a cls K
      { d with cand := controllablePart c.plant c.controllable d.cand } := by
    obtain ⟨hpart, hwf⟩ := hd.reduct.wellFormed.isPart_controllablePart c.plant c.controllable
    have haccompanied := ((ha.attached hc).of_reduct hd.reduct).toAccompanied
    exact hd.of_isPart hpart hwf (hK.subset_words_controllablePart haccompanied hd.words)
  have hnormal := (hcoaccessible (haccessible hcontrollable)).normalPart (ha.mirrors hc) hK.prefixNormal
  have htrimmed := haccessible (hcoaccessible hnormal)
  have hwf := htrimmed.reduct.wellFormed
  exact htrimmed.of_isPart (hwf.isPart_deleteStates _) (hwf.deleteStates _)
    (hK.subset_words_complete hc (htracks htrimmed) (hdet htrimmed) htrimmed.words)

/-- **Pruning** loses no word of a set that can be kept up. -/
theorem carries_prunePrefixes (hd : Carries o a cls K d) :
    Carries o a cls K (c.prunePrefixes d) := by
  fun_induction ObservedProblem.prunePrefixes c d with
  | case1 d rest _ => exact carries_pruneOnce ha hK hc hd
  | case2 d rest _ _ ih => exact ih (carries_pruneOnce ha hK hc hd)
  | case3 d rest _ _ => exact carries_pruneOnce ha hK hc hd

omit hK in
/-- **The words that pruning leaves** are those that can be kept up. So it does not
matter in which order states were taken away. -/
theorem words_prunePrefixes (hr : Reduct p ⟨o, a⟩) (hnoticed : Noticed cls p) :
    (c.prunePrefixes p).cand.words = c.sustained p.cand := by
  obtain ⟨hr', -, hpruned⟩ := prunePrefixes_spec (c := c) ((ha.attached hc).of_reduct hr) hnoticed
  have h : c.PrunedReduct o a label cls (c.prunePrefixes p) := ⟨ha, hr'.trans hr, hpruned⟩
  refine (h.words_subset_sustained hc hr').antisymm ?_
  rintro s ⟨K, hK, hsub, hs⟩
  have hp := Carries.of_noticed ha.isDeterministic hr hnoticed hsub
  exact (carries_prunePrefixes ha hK hc hp).words hs

end

/-! ## The start of the loop -/

/-- **The start of the loop** has all words that can be kept up. -/
theorem Sustainable.subset_words_trimmedProduct (hK : c.Sustainable K) (hc : c.WellPosed)
    (hfits : c.toControlProblem.Fits) : K ⊆ c.trimmedProduct.words := by
  obtain ⟨label, hrep, -, hshown⟩ := ControlProblem.controlledProduct_spec hc hfits
  have hwords := hK.toCompliant.subset_words hc hrep hshown
  intro s hs
  have hmem := hK.subset_words_omegaTrim hrep.tracks (hrep.isDeterministic hc) hwords hc hs
  obtain ⟨x, hx⟩ := mem_words_iff.mp hmem
  have hx : c.trimmedProduct.Reaches s x :=
    Reaches.mono (h := c.controlledProduct.value.automaton.omegaTrim) (fun _ hx => hx) (fun _ ht => ht) hx
  exact hx.mem_words

end ObservedProblem

end OmegaControl
