import OmegaControl.Proofs.Synthesis.Renaming
import OmegaControl.Proofs.Synthesis.Sustainable

/-!
# Normal solutions under new names

Where numbers decide what is deleted first, and what is critical, the loop for a
supervisor that sees only some events may go through different candidates under new
names. What pruning leaves is the same, since its words are the largest set of words
that can be kept up, and from its words a state is known up to its number: it stands
for a state of the product, and for what is believed about it
(`PrunedReduct.exists_isRenamed`).

So the loops go on in lockstep from then on (`refine_lockstep`), and no operation
depends on how states and events are numbered (`IsRenamed.returnRenamed`). Between
two prunings it is not needed that the candidates are the same under new names. What
is carried from one round to the next is that the same words can be kept up.
-/

namespace OmegaControl.ObservedProblem

open NormalPart Automaton

/-- `c'` is `c` under new names. -/
structure IsRenamed (c c' : ObservedProblem) (ρ σ : Equiv.Perm StateId) (ε : Equiv.Perm EventId) :
    Prop extends c.toControlProblem.IsRenamed c'.toControlProblem ρ σ ε where
  observable : c.observable.IsRenamed c'.observable ε

variable {c c' : ObservedProblem} {ρ σ : Equiv.Perm StateId} {ε : Equiv.Perm EventId}
  {o a o' a' : Automaton} {label label' : StateId → ProductState} {cls cls' : StateId → StateId}
  {p q p' q' : ObservedCandidate} {K : Set (List EventId)} {s s' : List EventId}
  {x y x' y' : StateId} {plantMarking plantMarking' : StateSet} {classes classes' : ObserverMap}

/-! ## What is left after pruning -/

namespace PrunedReduct

variable (hq : c.PrunedReduct o a label cls q) (hc : c.WellPosed)
include hq hc

/-- What is believed after a word is known from the words that look like it. -/
theorem mem_believed_iff (hx : q.cand.Reaches s x) {r : ProductState} :
    r ∈ believed a label cls x ↔
      ∃ s' y, q.cand.Reaches s' y ∧ seen c.observable s' = seen c.observable s ∧ label y = r := by
  constructor
  · rintro ⟨y, hy, hcls, rfl⟩
    obtain ⟨s', hs', hlook⟩ := hq.exists_lookalike hc hx hy hcls
    exact ⟨s', y, hs', hlook, rfl⟩
  · rintro ⟨s', y, hy, hlook, rfl⟩
    have hy' := hq.reaches hy
    exact ⟨y, hy'.mem_states hq.attachment.tracks.wellFormed,
      hq.attachment.cls_eq hy' (hq.reaches hx) hlook, rfl⟩

end PrunedReduct

namespace IsRenamed

variable (h : c.IsRenamed c' ρ σ ε)
include h

/-- Back to the old names. -/
theorem symm : c'.IsRenamed c ρ.symm σ.symm ε.symm := ⟨h.toIsRenamed.symm, h.observable.symm⟩

/-- The checks are passed on both sides. -/
theorem check (hcheck : c.check = .ok ()) : c'.check = .ok () := by
  obtain ⟨hplain, hsub⟩ := check_eq_ok_iff.mp hcheck
  exact check_eq_ok_iff.mpr
    ⟨h.toIsRenamed.check hplain, (h.observable.subset_iff h.plant.alphabet).mp hsub⟩

/-- **What is seen** is the same up to names. -/
theorem seen_map (s : List EventId) :
    seen c'.observable (s.map ε) = (seen c.observable s).map ε := by
  rw [seen, seen, List.filter_map]
  refine congrArg (List.map ε) (List.filter_congr fun ev _ => ?_)
  exact decide_eq_decide.mpr (h.observable ev)

/-- Words look alike on both sides or on neither. -/
theorem seen_map_eq_iff : seen c'.observable (s.map ε) = seen c'.observable (s'.map ε) ↔
    seen c.observable s = seen c.observable s' := by
  rw [h.seen_map, h.seen_map, (List.map_injective_iff.mpr ε.injective).eq_iff]

/-- **What can be kept up** is the same up to names. Each part of it speaks of
words, and of what plant and specification do on them, so it is carried over by
renaming letters. -/
theorem sustainable (hK : c.Sustainable K) : c'.Sustainable (List.map ε '' K) := by
  have hinjective := List.map_injective_iff.mpr ε.injective
  have hmem : ∀ {s}, s.map ε ∈ List.map ε '' K ↔ s ∈ K := hinjective.mem_set_image
  refine ⟨⟨fun {s' u'} hs' => ?_, ?_, ?_⟩, ?_, ?_⟩
  · obtain ⟨s, rfl⟩ := ε.surjective.list_map s'
    obtain ⟨u, rfl⟩ := ε.surjective.list_map u'
    rw [← List.map_append] at hs'
    exact hmem.mpr (hK.mem_of_append (hmem.mp hs'))
  · rintro _ ⟨s, hs, rfl⟩
    obtain ⟨p, q, hp, hq⟩ := hK.exists_leads hs
    exact ⟨_, _, h.isStart.mpr hp, h.leads.mpr hq⟩
  · rintro _ ⟨s, hs, rfl⟩ ev' hev hword
    obtain ⟨ev, rfl⟩ := ε.surjective ev'
    rw [h.controllable] at hev
    rw [← List.map_singleton, ← List.map_append] at hword ⊢
    exact hmem.mpr (hK.complies s hs ev hev (h.plant.mem_words.mp hword))
  · -- words look alike after renaming if and only if they did before
    rintro s' hs' _ ⟨u, hu, rfl⟩ hlook
    obtain ⟨s, rfl⟩ := ε.surjective.list_map s'
    exact hmem.mpr (hK.normal s (h.plant.mem_words.mp hs') u hu (h.seen_map_eq_iff.mp hlook))
  · rintro _ ⟨s, hs, rfl⟩
    obtain ⟨u, hne, hu, p, q, hp, hq, hmarked⟩ := hK.alive s hs
    refine ⟨u.map ε, List.map_eq_nil_iff.not.mpr hne, ?_, _, _, h.isStart.mpr hp, ?_,
      h.isMarked.trans hmarked⟩
    · exact List.map_append ▸ hmem.mpr hu
    · exact List.map_append ▸ h.leads.mpr hq

/-! ## Candidates with the same words -/

section

variable (hc : c.WellPosed) (hc' : c'.WellPosed) (hq : c.PrunedReduct o a label cls q)
  (hq' : c'.PrunedReduct o' a' label' cls' q')
  (hwords : ∀ s, s.map ε ∈ q'.cand.words ↔ s ∈ q.cand.words)
include hc hc' hq hq' hwords

/-- Words that look alike lead to states that look alike, on the other side as well.
The classes of the two observers are compared by what they believe, since their
numbers have nothing in common. -/
theorem cls_eq_of_cls_eq (hx : q.cand.Reaches s x) (hx' : q.cand.Reaches s' x')
    (hy : q'.cand.Reaches (s.map ε) y) (hy' : q'.cand.Reaches (s'.map ε) y') (heq : cls x = cls x') :
    cls' y = cls' y' := by
  have hsub : ∀ {s s' x x' y y'}, q.cand.Reaches s x → q.cand.Reaches s' x' →
      q'.cand.Reaches (s.map ε) y → q'.cand.Reaches (s'.map ε) y' → cls x = cls x' →
      believed a' label' cls' y ⊆ believed a' label' cls' y' := by
    intro s s' x x' y y' hx hx' hy hy' heq r hr
    obtain ⟨u', z', hz', hlook, rfl⟩ := (hq'.mem_believed_iff hc' hy).mp hr
    obtain ⟨u, rfl⟩ := ε.surjective.list_map u'
    obtain ⟨z, hz⟩ := mem_words_iff.mp ((hwords u).mp hz'.mem_words)
    have hcls := hq.attachment.cls_eq (hq.reaches hz) (hq.reaches hx) (h.seen_map_eq_iff.mp hlook)
    -- the same state is reached by a word that looks like the other one
    obtain ⟨v, hv, hlook'⟩ := hq.exists_lookalike hc hx'
      ((hq.reaches hz).mem_states hq.attachment.tracks.wellFormed) (hcls.trans heq)
    obtain ⟨w, hw⟩ := mem_words_iff.mp ((hwords v).mpr hv.mem_words)
    refine (hq'.mem_believed_iff hc' hy').mpr ⟨_, w, hw, h.seen_map_eq_iff.mpr hlook', ?_⟩
    rw [h.label_eq hc' hq.tracks hq'.tracks hv hw, h.label_eq hc' hq.tracks hq'.tracks hz hz']
  have hwf := hq'.attachment.tracks.wellFormed
  refine hq'.attachment.cls_injective y ((hq'.reaches hy).mem_states hwf) y'
    ((hq'.reaches hy').mem_states hwf) ?_
  exact (hsub hx hx' hy hy' heq).antisymm (hsub hx' hx hy' hy heq.symm)

/-- So states look alike on both sides or on neither. -/
theorem cls_eq_iff (hx : q.cand.Reaches s x) (hx' : q.cand.Reaches s' x')
    (hy : q'.cand.Reaches (s.map ε) y) (hy' : q'.cand.Reaches (s'.map ε) y') :
    cls x = cls x' ↔ cls' y = cls' y' := by
  refine ⟨h.cls_eq_of_cls_eq hc hc' hq hq' hwords hx hx' hy hy', ?_⟩
  have hback : ∀ s : List EventId, (s.map ε).map ε.symm = s := fun s => by simp
  refine h.symm.cls_eq_of_cls_eq hc' hc hq' hq (fun s => ?_) hy hy' ?_ ?_
  · rw [← hwords, show (s.map ε.symm).map ε = s by simp]
  · rwa [hback]
  · rwa [hback]

/-- Words lead to one state if they do so under new names. A state is known from
what it stands for in the product and from the state of the observer. -/
theorem eq_iff_eq (hx : q.cand.Reaches s x) (hx' : q.cand.Reaches s' x')
    (hy : q'.cand.Reaches (s.map ε) y) (hy' : q'.cand.Reaches (s'.map ε) y') : x = x' ↔ y = y' := by
  have hlabel := h.label_eq hc' hq.tracks hq'.tracks hx hy
  have hlabel' := h.label_eq hc' hq.tracks hq'.tracks hx' hy'
  have hcls := h.cls_eq_iff hc hc' hq hq' hwords hx hx' hy hy'
  -- a state is known from its label and its class
  rw [hq.attachment.eq_iff (hq.reaches hx) (hq.reaches hx'),
    hq'.attachment.eq_iff (hq'.reaches hy) (hq'.reaches hy'), hlabel, hlabel',
    (ProductState.rename ρ σ).injective.eq_iff, hcls]

/-- **Candidates with the same words** are the same up to names. A state of either
is known from what it stands for in the product and in the observer, and both are
known from the words that lead to it. -/
theorem exists_isRenamed (hmarking : ∀ x ∈ a.states, x ∈ plantMarking ↔ (label x).plant ∈ c.plant.marked)
    (hmarking' : ∀ x ∈ a'.states, x ∈ plantMarking' ↔ (label' x).plant ∈ c'.plant.marked)
    (hclasses : ∀ x ∈ a.states, classes[x]? = some (cls x))
    (hclasses' : ∀ x ∈ a'.states, classes'[x]? = some (cls' x)) :
    ∃ π, q.cand.IsRenamed q'.cand π ε ∧
      (∀ x ∈ q.cand.states, π x ∈ plantMarking' ↔ x ∈ plantMarking) ∧
      SameClasses q.cand π (classes.filter fun x _ => x ∈ q.cand.states)
        (classes'.filter fun x _ => x ∈ q'.cand.states) := by
  have hlabel : ∀ {s x y}, q.cand.Reaches s x → q'.cand.Reaches (s.map ε) y →
      label' y = ProductState.rename ρ σ (label x) := fun hx hy =>
    h.label_eq hc' hq.tracks hq'.tracks hx hy
  have hmarked : ∀ {s x y}, q.cand.Reaches s x → q'.cand.Reaches (s.map ε) y →
      (x ∈ q.cand.marked ↔ y ∈ q'.cand.marked) := by
    intro s x y hx hy
    rw [hq.tracks.mem_marked, hq'.tracks.mem_marked, hlabel hx hy, h.isMarked]
    exact and_congr_left fun _ => iff_of_true (hx.mem_states hq.reduct.wellFormed)
      (hy.mem_states hq'.reduct.wellFormed)
  have halphabet : q.cand.alphabet.IsRenamed q'.cand.alphabet ε := by
    rw [hq.alphabet_eq, hq'.alphabet_eq]
    exact h.plant.alphabet
  -- a state is known from the words that lead to it, so words decide how states go
  -- together
  obtain ⟨π, hπ⟩ := exists_isRenamed_of_words hq.reduct.wellFormed hq'.reduct.wellFormed
    hq.isDeterministic hq'.isDeterministic hq.pruned.reached hq'.pruned.reached halphabet hwords
    (h.eq_iff_eq hc hc' hq hq' hwords) hmarked
  refine ⟨π, hπ, fun x hx => ?_, fun x hx y hy => ?_⟩
  · obtain ⟨s, hs⟩ := hq.pruned.reached x hx
    rw [hmarking x (hq.reduct.cand.states_subset x hx),
      hmarking' _ (hq'.reduct.cand.states_subset _ ((hπ.states x).mpr hx)),
      hlabel hs (hπ.reaches.mpr hs)]
    exact h.plant.marked _
  · obtain ⟨s, hs⟩ := hq.pruned.reached x hx
    obtain ⟨u, hu⟩ := hq.pruned.reached y hy
    rw [of_filter_classes hclasses hq.reduct.cand.states_subset hx,
      of_filter_classes hclasses hq.reduct.cand.states_subset hy,
      of_filter_classes hclasses' hq'.reduct.cand.states_subset ((hπ.states x).mpr hx),
      of_filter_classes hclasses' hq'.reduct.cand.states_subset ((hπ.states y).mpr hy),
      ObservationClass.observed.injEq, ObservationClass.observed.injEq]
    exact h.cls_eq_iff hc hc' hq hq' hwords hs hu (hπ.reaches.mpr hs) (hπ.reaches.mpr hu)

end

/-! ## The loop -/

omit h in
/-- The loop ends with something that can be kept up. -/
theorem exists_prunedReduct (hc : c.WellPosed) (ha : c.Attachment o a label cls)
    (plantMarking : StateSet) (classes : ObserverMap) (total : ℕ) (hr : Reduct p ⟨o, a⟩)
    (hnoticed : Noticed cls p) : ∃ q, (c.refine plantMarking classes total p).value = q.cand ∧
      c.PrunedReduct o a label cls q ∧ q.cand.words ⊆ c.sustained p.cand := by
  obtain ⟨q, heq, hrest, hpruned, -⟩ :=
    refine_spec ((ha.attached hc).of_reduct hr) plantMarking classes total hnoticed
  have hq : c.PrunedReduct o a label cls q := ⟨ha, hrest.trans hr, hpruned⟩
  exact ⟨q, heq, hq, hq.words_subset_sustained hc hrest⟩

/-- What can be kept up of automata with the same words is the same. -/
theorem map_mem_sustained_iff {g g' : Automaton} (hwords : ∀ s, s.map ε ∈ g'.words ↔ s ∈ g.words) :
    s.map ε ∈ c'.sustained g' ↔ s ∈ c.sustained g := by
  have hback : ∀ s : List EventId, (s.map ε.symm).map ε = s := fun s => by simp
  constructor
  · rintro ⟨K, hK, hsub, hs⟩
    refine ⟨_, h.symm.sustainable hK, ?_, _, hs, by simp⟩
    rintro _ ⟨u, hu, rfl⟩
    rw [← hwords, hback]
    exact hsub hu
  · rintro ⟨K, hK, hsub, hs⟩
    refine ⟨_, h.sustainable hK, ?_, _, hs, rfl⟩
    rintro _ ⟨u, hu, rfl⟩
    exact (hwords u).mpr (hsub hu)

section

variable (hc : c.WellPosed) (hc' : c'.WellPosed) (ha : c.Attachment o a label cls)
  (ha' : c'.Attachment o' a' label' cls')
  (hmarking : ∀ x ∈ a.states, x ∈ plantMarking ↔ (label x).plant ∈ c.plant.marked)
  (hmarking' : ∀ x ∈ a'.states, x ∈ plantMarking' ↔ (label' x).plant ∈ c'.plant.marked)
  (hclasses : ∀ x ∈ a.states, classes[x]? = some (cls x))
  (hclasses' : ∀ x ∈ a'.states, classes'[x]? = some (cls' x))
include hc hc' ha ha' hmarking hmarking' hclasses hclasses'

/-- **The loops go in lockstep**: as long as the same words can be kept up on both sides, pruning
leaves candidates that are the same up to names, and so are their live parts. -/
theorem refine_lockstep (total total' : ℕ) (hr : Reduct p ⟨o, a⟩) (hnoticed : Noticed cls p)
    (hr' : Reduct p' ⟨o', a'⟩) (hnoticed' : Noticed cls' p')
    (hsame : ∀ s, s.map ε ∈ c'.sustained p'.cand ↔ s ∈ c.sustained p.cand) :
    ∃ q q', (c.refine plantMarking classes total p).value = q.cand ∧
      (c'.refine plantMarking' classes' total' p').value = q'.cand ∧
      c.PrunedReduct o a label cls q ∧ c'.PrunedReduct o' a' label' cls' q' ∧
      ∀ s, s.map ε ∈ q'.cand.words ↔ s ∈ q.cand.words := by
  induction hsize : p.cand.size using Nat.strong_induction_on generalizing p p' with
  | _ n ih =>
    subst hsize
    -- if nothing is left on one side, no word can be kept up on either, and both
    -- loops end without words
    by_cases hempty : p.cand.isEmpty = true ∨ p'.cand.isEmpty = true
    · have hnone : ∀ s, s ∉ c.sustained p.cand := by
        intro s hs
        rcases hempty with hempty | hempty
        · exact not_mem_sustained_of_isEmpty hr.wellFormed hempty hs
        · exact not_mem_sustained_of_isEmpty hr'.wellFormed hempty ((hsame s).mpr hs)
      obtain ⟨q, heq, hq, hsub⟩ := exists_prunedReduct hc ha plantMarking classes total hr hnoticed
      obtain ⟨q', heq', hq', hsub'⟩ :=
        exists_prunedReduct hc' ha' plantMarking' classes' total' hr' hnoticed'
      exact ⟨q, q', heq, heq', hq, hq', fun s => iff_of_false
        (fun hs => hnone s ((hsame s).mp (hsub' hs))) fun hs => hnone s (hsub hs)⟩
    obtain ⟨hempty, hempty'⟩ := not_or.mp hempty
    -- otherwise both sides prune, and what pruning leaves is the same up to names
    have hattached := (ha.attached hc).of_reduct hr
    have hattached' := (ha'.attached hc').of_reduct hr'
    obtain ⟨hrest, hn, hpruned⟩ := prunePrefixes_spec (c := c) hattached hnoticed
    obtain ⟨hrest', hn', hpruned'⟩ := prunePrefixes_spec (c := c') hattached' hnoticed'
    have hq : c.PrunedReduct o a label cls (c.prunePrefixes p) := ⟨ha, hrest.trans hr, hpruned⟩
    have hq' : c'.PrunedReduct o' a' label' cls' (c'.prunePrefixes p') :=
      ⟨ha', hrest'.trans hr', hpruned'⟩
    have hwords : ∀ s, s.map ε ∈ (c'.prunePrefixes p').cand.words ↔
        s ∈ (c.prunePrefixes p).cand.words := by
      intro s
      rw [words_prunePrefixes ha hc hr hnoticed, words_prunePrefixes ha' hc' hr' hnoticed', hsame]
    obtain ⟨π, hπ, hplant, hsameClasses⟩ := h.exists_isRenamed hc hc' hq hq' hwords hmarking hmarking'
      hclasses hclasses'
    have hlive := hπ.restrictObserved hq.reduct.wellFormed hq'.reduct.wellFormed
      hq.isDeterministic.hasUniqueSuccessors hq'.isDeterministic.hasUniqueSuccessors h.controllable
      hplant hsameClasses
    obtain ⟨hpart, hwf, heq⟩ := isPart_livePart hq.reduct.wellFormed plantMarking classes
    obtain ⟨hpart', hwf', heq'⟩ := isPart_livePart hq'.reduct.wellFormed plantMarking' classes'
    have hle := c.size_prunePrefixes_le p
    rw [value_refine (p := p), value_refine (p := p'), if_neg hempty, if_neg hempty']
    change (c.livePart plantMarking classes p).IsRenamed (c'.livePart plantMarking' classes' p') π ε
      at hlive
    rw [← hlive.size_eq, ← hπ.size_eq]
    -- the live parts have equally many states, so both loops go on or both of them
    -- end here
    split
    next hsmaller =>
      have hreduct := Reduct.of_isPart hpart hwf
      have hreduct' := Reduct.of_isPart hpart' hwf'
      exact ih _ (hsmaller.trans_le hle) (hreduct.trans hq.reduct) (hn.of_isPart hpart)
        (hreduct'.trans hq'.reduct) (hn'.of_isPart hpart')
        (fun s => h.map_mem_sustained_iff fun s => hlive.mem_words) rfl
    next hge =>
      have hge := Nat.le_of_not_lt hge
      refine ⟨_, _, heq hge, heq' ?_, hq, hq', hwords⟩
      rw [hπ.size_eq, hlive.size_eq] at hge
      exact hge

end

/-! ## The result -/

omit h in
/-- The loop starts with all words that can be kept up. -/
theorem mem_sustained_attachedStart (hc : c.WellPosed) (hfits : c.toControlProblem.Fits)
    (hstart : c.trimmedProduct.words ⊆ c.attachedStart.cand.words) :
    s ∈ c.sustained c.attachedStart.cand ↔ ∃ K, c.Sustainable K ∧ s ∈ K :=
  exists_congr fun _ => and_congr_right fun hK =>
    and_iff_right ((hK.subset_words_trimmedProduct hc hfits).trans hstart)

/-- **Candidates and closed loops** are the same up to names. Both searches start
with the same words up to names and go on in step, so they end with the same words,
and words decide how states go together. -/
theorem exists_isRenamed_normalCandidate (hc : c.WellPosed) (hc' : c'.WellPosed) (hfits : c.Fits)
    (hfits' : c'.Fits) : ∃ π,
      c.normalCandidate.value.automaton.IsRenamed c'.normalCandidate.value.automaton π ε ∧
      (c.enforcedLoop c.normalCandidate.value).IsRenamed (c'.enforcedLoop c'.normalCandidate.value)
        π ε := by
  obtain ⟨label, cls, ha, hmarking, hclasses, hstart⟩ := exists_attachment hc hfits
  obtain ⟨label', cls', ha', hmarking', hclasses', hstart'⟩ := exists_attachment hc' hfits'
  -- both searches start with the same words up to names, since those are known from
  -- the task
  have hsame : ∀ s, s.map ε ∈ c'.sustained c'.attachedStart.cand ↔
      s ∈ c.sustained c.attachedStart.cand := by
    intro s
    rw [mem_sustained_attachedStart hc hfits.product hstart,
      mem_sustained_attachedStart hc' hfits'.product hstart']
    constructor
    · rintro ⟨K, hK, hs⟩
      exact ⟨_, h.symm.sustainable hK, _, hs, by simp⟩
    · rintro ⟨K, hK, hs⟩
      exact ⟨_, h.sustainable hK, _, hs, rfl⟩
  obtain ⟨q, q', hvalue, hvalue', hq, hq', hwords⟩ := h.refine_lockstep hc hc' ha ha' hmarking hmarking'
    hclasses hclasses' c.attachedStart.cand.size c'.attachedStart.cand.size
    (.refl ha.tracks.wellFormed) ha.noticed (.refl ha'.tracks.wellFormed) ha'.noticed hsame
  obtain ⟨π, hπ, hplant, hsameClasses⟩ := h.exists_isRenamed hc hc' hq hq' hwords hmarking hmarking'
    hclasses hclasses'
  have hwf := hq.reduct.wellFormed
  have hwf' := hq'.reduct.wellFormed
  -- feedback and trimming keep the correspondence that the two searches end with
  have hloop := hπ.applyFeedback hwf hwf' hq.isDeterministic.hasUniqueSuccessors
    hq'.isDeterministic.hasUniqueSuccessors h.controllable hplant hsameClasses
  rw [value_normalCandidate, value_normalCandidate]
  dsimp only
  rw [hvalue, hvalue']
  exact ⟨π, hπ, hloop.omegaTrim (hwf.applyFeedback_observed _ _ _)
    (hwf'.applyFeedback_observed _ _ _)⟩

/-- **Numbers do not matter**: for a control problem and the same problem under new names, each of
the four syntheses returns automata that are the same up to names. -/
theorem returnRenamed {τ τ' : Type} {ob : Observer τ} {ob' : Observer τ'} (hob : ob.NeverCancels)
    (hob' : ob'.NeverCancels) (hplant : c.plant.WellFormed) (hspec : c.spec.WellFormed)
    (hplant' : c'.plant.WellFormed) (hspec' : c'.spec.WellFormed) (hcheck : c.check = .ok ())
    (hfits : c.toControlProblem.Fits) (config config' : SynthesisConfig) :
    ReturnRenamed ε (ob.watchChecked (c.toControlProblem.supremal config)).2
        (ob'.watchChecked (c'.toControlProblem.supremal config')).2 ∧
      ReturnRenamed ε (ob.watchChecked (c.toControlProblem.closedLoop config)).2
        (ob'.watchChecked (c'.toControlProblem.closedLoop config')).2 ∧
      (c.Fits → c'.Fits →
        ReturnRenamed ε (ob.watchChecked c.normal).2 (ob'.watchChecked c'.normal).2 ∧
        ReturnRenamed ε (ob.watchChecked (c.normalClosedLoop { config with verify := false })).2
          (ob'.watchChecked (c'.normalClosedLoop { config' with verify := false })).2) := by
  have hcheck' := h.check hcheck
  have hplain := (check_eq_ok_iff.mp hcheck).1
  have hplain' := (check_eq_ok_iff.mp hcheck').1
  have hc := ControlProblem.WellPosed.of_check hplant hspec hplain
  have hc' := ControlProblem.WellPosed.of_check hplant' hspec' hplain'
  have hfits' := h.fits hfits
  obtain ⟨label, hsup⟩ := ControlProblem.supremal_supremalCandidate hc hfits config
  obtain ⟨label', hsup'⟩ := ControlProblem.supremal_supremalCandidate hc' hfits' config'
  obtain ⟨π, hπ, hmarking⟩ := h.toIsRenamed.exists_isRenamed hc hc' hsup hsup'
    (ControlProblem.alphabet_supremalCandidate hc hfits config)
    (ControlProblem.alphabet_supremalCandidate hc' hfits' config')
  have hloops := h.toIsRenamed.enforcedLoop hsup hsup' hc hc' hπ hmarking
  have hverify := hsup.verifyClosedLoop_enforcedLoop hc hfits
  have hverify' := hsup'.verifyClosedLoop_enforcedLoop hc' hfits'
  have hresult := fun w => Checked.watchChecked_eq_result (α := Automaton) hob w
  have hresult' := fun w => Checked.watchChecked_eq_result (α := Automaton) hob' w
  refine ⟨?_, ?_, fun hfits hfits' => ?_⟩
  · -- the plain entry points name what the supremal candidate and its loop are
    rw [hresult, hresult', ControlProblem.result_supremal hplain config,
      ControlProblem.result_supremal hplain' config']
    exact ⟨_, _, π, rfl, rfl, hπ.setName _ _⟩
  · rw [hresult, hresult', ControlProblem.result_closedLoop hplain config hverify,
      ControlProblem.result_closedLoop hplain' config' hverify']
    exact ⟨_, _, π, rfl, rfl, hloops.setName _ _⟩
  · -- the normal ones have a candidate of their own, so the correspondence of
    -- states is another one
    obtain ⟨κ, hκ, hnormalLoops⟩ := h.exists_isRenamed_normalCandidate hc hc' hfits hfits'
    constructor
    · rw [hresult, hresult', result_normal hcheck, result_normal hcheck']
      exact ⟨_, _, κ, rfl, rfl, hκ.setName _ _⟩
    · rw [hresult, hresult', result_normalClosedLoop hcheck, result_normalClosedLoop hcheck']
      exact ⟨_, _, κ, rfl, rfl, hnormalLoops.setName _ _⟩

end IsRenamed

/-! ## A machine with other numbers -/

/-- The machine, with two of its states and two of its events exchanged. Its
specification is renumbered by a permutation of its own. -/
def renumberedMachine : ObservedProblem where
  plant := (((((((Automaton.new "machine").insertTransition ⟨⟨1⟩, ⟨2⟩, ⟨3⟩⟩).insertTransition
    ⟨⟨3⟩, ⟨1⟩, ⟨1⟩⟩).insertTransition ⟨⟨3⟩, ⟨3⟩, ⟨2⟩⟩).insertTransition
    ⟨⟨2⟩, ⟨4⟩, ⟨1⟩⟩).insertTransition ⟨⟨2⟩, ⟨2⟩, ⟨3⟩⟩).setInitialState ⟨1⟩).setMarkedState ⟨1⟩
  spec := ((((((Automaton.new "repaired").insertTransition ⟨⟨2⟩, ⟨2⟩, ⟨1⟩⟩).insertTransition
    ⟨⟨1⟩, ⟨1⟩, ⟨2⟩⟩).insertTransition ⟨⟨1⟩, ⟨3⟩, ⟨3⟩⟩).insertTransition
    ⟨⟨3⟩, ⟨4⟩, ⟨2⟩⟩).setInitialState ⟨2⟩).setMarkedState ⟨2⟩
  controllable := .ofList [⟨2⟩, ⟨4⟩]
  observable := .ofList [⟨1⟩, ⟨2⟩, ⟨4⟩]

/-- Both automata are well-formed. -/
theorem renumberedMachine_wellFormed :
    renumberedMachine.plant.WellFormed ∧ renumberedMachine.spec.WellFormed :=
  ⟨(((((((WellFormed.new _).insertTransition _).insertTransition _).insertTransition
    _).insertTransition _).insertTransition _).setInitialState _).setMarkedState _,
    ((((((WellFormed.new _).insertTransition _).insertTransition _).insertTransition
    _).insertTransition _).setInitialState _).setMarkedState _⟩

/-- It is the machine under new names. -/
theorem isRenamed_renumberedMachine : observedMachine.IsRenamed renumberedMachine
    (Equiv.swap ⟨2⟩ ⟨3⟩) (Equiv.swap ⟨1⟩ ⟨2⟩) (Equiv.swap ⟨1⟩ ⟨2⟩) where
  plant := .of_forall (by decide +kernel) (by decide +kernel) (by decide +kernel)
    (by decide +kernel) (by decide +kernel) (by decide +kernel)
  spec := .of_forall (by decide +kernel) (by decide +kernel) (by decide +kernel)
    (by decide +kernel) (by decide +kernel) (by decide +kernel)
  controllable := IdentSet.isRenamed_iff.mpr (by decide +kernel)
  observable := IdentSet.isRenamed_iff.mpr (by decide +kernel)

/-- It is small enough. -/
theorem renumberedMachine_fits : renumberedMachine.Fits := fits_of_size_lt
  (ControlProblem.WellPosed.of_check renumberedMachine_wellFormed.1 renumberedMachine_wellFormed.2
    (check_eq_ok_iff.mp (isRenamed_renumberedMachine.check observedMachine_check)).1)
  (by decide +kernel)

/-- Both machines have the same solutions and closed loops. In the second one two
states of the plant, two of the specification and two events have changed numbers. -/
theorem returnRenamed_machine :
    observedMachine.IsRenamed renumberedMachine (Equiv.swap ⟨2⟩ ⟨3⟩) (Equiv.swap ⟨1⟩ ⟨2⟩)
        (Equiv.swap ⟨1⟩ ⟨2⟩) ∧
      Observer.patient.NeverCancels ∧ observedMachine.plant.WellFormed ∧
      observedMachine.spec.WellFormed ∧ renumberedMachine.plant.WellFormed ∧
      renumberedMachine.spec.WellFormed ∧ observedMachine.check = .ok () ∧ observedMachine.Fits ∧
      renumberedMachine.Fits ∧
      ReturnRenamed (Equiv.swap ⟨1⟩ ⟨2⟩)
        (Observer.patient.watchChecked (observedMachine.toControlProblem.supremal {})).2
        (Observer.patient.watchChecked (renumberedMachine.toControlProblem.supremal {})).2 ∧
      ReturnRenamed (Equiv.swap ⟨1⟩ ⟨2⟩)
        (Observer.patient.watchChecked (observedMachine.toControlProblem.closedLoop {})).2
        (Observer.patient.watchChecked (renumberedMachine.toControlProblem.closedLoop {})).2 ∧
      ReturnRenamed (Equiv.swap ⟨1⟩ ⟨2⟩) (Observer.patient.watchChecked observedMachine.normal).2
        (Observer.patient.watchChecked renumberedMachine.normal).2 ∧
      ReturnRenamed (Equiv.swap ⟨1⟩ ⟨2⟩)
        (Observer.patient.watchChecked (observedMachine.normalClosedLoop {})).2
        (Observer.patient.watchChecked (renumberedMachine.normalClosedLoop {})).2 := by
  obtain ⟨hsupremal, hloop, hnormal⟩ := isRenamed_renumberedMachine.returnRenamed
    Observer.neverCancels_patient Observer.neverCancels_patient machine_wellFormed
    repairedMachine_wellFormed renumberedMachine_wellFormed.1 renumberedMachine_wellFormed.2
    observedMachine_check observedMachine_fits.product {} {}
  exact ⟨isRenamed_renumberedMachine, Observer.neverCancels_patient, machine_wellFormed,
    repairedMachine_wellFormed, renumberedMachine_wellFormed.1, renumberedMachine_wellFormed.2,
    observedMachine_check, observedMachine_fits, renumberedMachine_fits, hsupremal, hloop,
    hnormal observedMachine_fits renumberedMachine_fits⟩

end OmegaControl.ObservedProblem
