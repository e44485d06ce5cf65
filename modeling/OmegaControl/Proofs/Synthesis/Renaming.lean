import OmegaControl.Proofs.Liveness.Renaming
import OmegaControl.Proofs.Synthesis.ClosedLoop

/-!
# Control problems under new names

If plant, specification and controllable events get new names, so do the states of
the product and its runs (`ControlProblem.IsRenamed.leads`), and hence the solutions
(`IsRenamed.isSolution`). The words of a supremal candidate are those that solutions
begin with, and its states are states of the product. So it is the same up to names
however it was found (`IsRenamed.exists_isRenamed`), and so is the closed loop
(`IsRenamed.enforcedLoop`).

The product itself is not compared, nor any step of the loop that finds the
candidate: both go through states in the order of their numbers. What is compared is
what is known of the result.
-/

namespace OmegaControl

/-- States of the product under new names. What is owed has no name, so it stays. -/
def ProductState.rename (ρ σ : Equiv.Perm StateId) : Equiv.Perm ProductState where
  toFun p := ⟨ρ p.plant, σ p.spec, p.plantOwed⟩
  invFun p := ⟨ρ.symm p.plant, σ.symm p.spec, p.plantOwed⟩
  left_inv p := by simp
  right_inv p := by simp

/-- Both computations return an automaton, and the two are the same up to names; `ε`
carries over the events. It is part of this that neither of them fails. -/
def ReturnRenamed (ε : Equiv.Perm EventId) (r r' : Except SynthesisError Automaton) : Prop :=
  ∃ g g' π, r = .ok g ∧ r' = .ok g' ∧ g.IsRenamed g' π ε

namespace ControlProblem

/-- `c'` is `c` under new names: `ρ` carries over the states of the plant, `σ` those of the
specification, and `ε` the events. -/
structure IsRenamed (c c' : ControlProblem) (ρ σ : Equiv.Perm StateId) (ε : Equiv.Perm EventId) :
    Prop where
  plant : c.plant.IsRenamed c'.plant ρ ε
  spec : c.spec.IsRenamed c'.spec σ ε
  controllable : c.controllable.IsRenamed c'.controllable ε

variable {c c' : ControlProblem} {ρ σ : Equiv.Perm StateId} {ε : Equiv.Perm EventId}
  {g g' : Automaton} {label label' : StateId → ProductState} {plantMarking plantMarking' : StateSet}
  {p q : ProductState} {ev : EventId} {s : List EventId} {E : Set (ℕ → EventId)} {x y : StateId}

namespace IsRenamed

/-- Nothing needs to be renamed. -/
theorem refl (c : ControlProblem) : c.IsRenamed c (Equiv.refl _) (Equiv.refl _) (Equiv.refl _) :=
  ⟨.refl _, .refl _, .refl _⟩

variable (h : c.IsRenamed c' ρ σ ε)
include h

/-- Back to the old names, so that one direction of each statement is enough. -/
theorem symm : c'.IsRenamed c ρ.symm σ.symm ε.symm :=
  ⟨h.plant.symm, h.spec.symm, h.controllable.symm⟩

/-- What is checked holds under new names, too. -/
theorem check (hcheck : c.check = .ok ()) : c'.check = .ok () := by
  obtain ⟨halphabet, hsub, hplant, hspec⟩ := check_eq_ok_iff.mp hcheck
  refine check_eq_ok_iff.mpr ⟨?_, (h.controllable.subset_iff h.plant.alphabet).mp hsub,
    h.plant.isDeterministic hplant, h.spec.isDeterministic hspec⟩
  rw [← IdentSet.isRenamed_iff.mp h.plant.alphabet, halphabet,
    IdentSet.isRenamed_iff.mp h.spec.alphabet]

/-! ## The product
 -/

/-- States of the product are marked under any names. -/
theorem isMarked : ControlledProduct.isMarked c'.spec (ProductState.rename ρ σ p) =
    ControlledProduct.isMarked c.spec p := by
  rw [Bool.eq_iff_iff]
  simp only [ControlledProduct.isMarked, ProductState.rename, Equiv.coe_fn_mk, Bool.and_eq_true,
    decide_eq_true_eq, h.spec.marked _]

/-- It starts in states that go together. -/
theorem isStart : c'.IsStart (ProductState.rename ρ σ p) ↔ c.IsStart p :=
  ⟨fun ⟨hplant, hspec, howed⟩ => ⟨(h.plant.initial _).mp hplant, (h.spec.initial _).mp hspec, howed⟩,
    fun ⟨hplant, hspec, howed⟩ => ⟨(h.plant.initial _).mpr hplant, (h.spec.initial _).mpr hspec, howed⟩⟩

/-- It makes the same steps, on events that go together. -/
theorem step : c'.Step (ProductState.rename ρ σ p) (ε ev) (ProductState.rename ρ σ q) ↔
    c.Step p ev q := by
  have howed : ControlledProduct.owedNext c' (ProductState.rename ρ σ p) =
      ControlledProduct.owedNext c p := by
    simp only [ControlledProduct.owedNext, ProductState.rename, Equiv.coe_fn_mk, h.plant.marked _,
      h.spec.marked _]
  constructor
  · rintro ⟨hplant, hspec, hnext⟩
    exact ⟨(h.plant.transitions ⟨p.plant, ev, q.plant⟩).mp hplant,
      (h.spec.transitions ⟨p.spec, ev, q.spec⟩).mp hspec, hnext.trans howed⟩
  · rintro ⟨hplant, hspec, hnext⟩
    exact ⟨(h.plant.transitions ⟨p.plant, ev, q.plant⟩).mpr hplant,
      (h.spec.transitions ⟨p.spec, ev, q.spec⟩).mpr hspec, hnext.trans howed.symm⟩

/-- **Runs of the product** are the same up to names. -/
theorem leads : c'.Leads (ProductState.rename ρ σ p) (s.map ε) (ProductState.rename ρ σ q) ↔
    c.Leads p s q := by
  induction s generalizing p with
  | nil => exact (ProductState.rename ρ σ).injective.eq_iff
  | cons ev s ih =>
    rw [List.map_cons, Leads, Leads, (ProductState.rename ρ σ).surjective.exists]
    exact exists_congr fun p' => and_congr h.step ih

/-- What can be reached can be reached under new names. -/
theorem reachable (hq : c.Reachable q) : c'.Reachable (ProductState.rename ρ σ q) := by
  obtain ⟨p, s, hp, hs⟩ := hq
  exact ⟨_, s.map ε, h.isStart.mpr hp, h.leads.mpr hs⟩

/-- Enough numbers for one are enough for the other. -/
theorem fits (hfits : c.Fits) : c'.Fits := by
  obtain ⟨ps, hlen, hps⟩ := hfits
  refine ⟨ps.map (ProductState.rename ρ σ), (List.length_map _).trans_lt hlen, fun q hq => ?_⟩
  refine List.mem_map.mpr ⟨_, hps _ (h.symm.reachable hq), ?_⟩
  exact (ProductState.rename ρ σ).apply_symm_apply q

/-- Candidates stand for states that go together where words lead that go together.
A deterministic product leaves no choice. -/
theorem label_eq (hc' : c'.WellPosed) (hg : c.Tracks g label) (hg' : c'.Tracks g' label')
    (hx : g.Reaches s x) (hy : g'.Reaches (s.map ε) y) :
    label' y = ProductState.rename ρ σ (label x) := by
  obtain ⟨p, hp, hs⟩ := hg.exists_leads hx
  obtain ⟨p', hp', hs'⟩ := hg'.exists_leads hy
  obtain rfl := hp'.unique hc'.deterministic (h.isStart.mpr hp)
  exact hs'.unique hc'.deterministic (h.leads.mpr hs)

/-! ## Solutions
 -/

/-- **Solutions** are the same up to names: the supervisor of a solution does under
new names what it has done under the old ones. -/
theorem isSolution (hE : c.IsSolution E) : c'.IsSolution ((⇑ε ∘ ·) '' E) := by
  have hmem : ∀ {w}, ⇑ε ∘ w ∈ (⇑ε ∘ ·) '' E ↔ w ∈ E := fun {w} =>
    ε.injective.comp_left.mem_set_image
  refine ⟨?_, ?_, ?_, ?_⟩
  · rintro _ ⟨w, hw, rfl⟩
    exact h.plant.mem_acceptedWords.mpr (hE.subset_plant hw)
  · rintro _ ⟨w, hw, rfl⟩
    exact h.spec.mem_acceptedWords.mpr (hE.subset_spec hw)
  · intro s' hs' ev' halphabet hev hword
    obtain ⟨s, rfl⟩ := ε.surjective.list_map s'
    obtain ⟨ev, rfl⟩ := ε.surjective ev'
    rw [mem_beginnings_image] at hs'
    rw [h.plant.alphabet] at halphabet
    rw [h.controllable] at hev
    rw [← List.map_singleton, ← List.map_append] at hword ⊢
    rw [mem_beginnings_image]
    exact hE.complies s hs' ev halphabet hev (h.plant.mem_words.mp hword)
  · ext w'
    obtain ⟨w, rfl⟩ := ε.surjective.comp_left w'
    have hupTo : ∀ n, upTo (⇑ε ∘ w) n = (upTo w n).map ε := fun n => (map_upTo ε n).symm
    simp only [Set.mem_ofPred_eq, hupTo, mem_beginnings_image, hmem, h.plant.mem_acceptedWords]
    exact Set.ext_iff.mp hE.eq_closure w

/-! ## Supremal candidates
 -/

variable (hc : c.WellPosed) (hc' : c'.WellPosed) (hg : c.Supremal g label plantMarking)
  (hg' : c'.Supremal g' label' plantMarking')
include hc hc' hg hg'

/-- Words of the one are words of the other, since solutions go together. -/
theorem map_mem_words (hs : s ∈ g.words) : s.map ε ∈ g'.words := by
  rw [hg.words_eq hc] at hs
  obtain ⟨w, hw, n, rfl⟩ := hs
  rw [hg.acceptedWords_eq hc] at hw
  obtain ⟨E, hE, hw⟩ := hw
  rw [hg'.words_eq hc', hg'.acceptedWords_eq hc']
  exact ⟨⇑ε ∘ w, ⟨_, h.isSolution hE, w, hw, rfl⟩, n, (map_upTo ε n).symm⟩

/-- **Supremal candidates** are the same up to names. They generate the same words,
since each of them generates the beginnings of all solutions, and a state is known
from the state of the product that its words lead to. -/
theorem exists_isRenamed (halphabet : g.alphabet = c.plant.alphabet)
    (halphabet' : g'.alphabet = c'.plant.alphabet) :
    ∃ π, g.IsRenamed g' π ε ∧ ∀ x ∈ g.states, π x ∈ plantMarking' ↔ x ∈ plantMarking := by
  have hrep := hg.represents
  have hrep' := hg'.represents
  have hlabel : ∀ {s x y}, g.Reaches s x → g'.Reaches (s.map ε) y →
      label' y = ProductState.rename ρ σ (label x) := fun hx hy =>
    h.label_eq hc' hrep.tracks hrep'.tracks hx hy
  have hwords : ∀ s, s.map ε ∈ g'.words ↔ s ∈ g.words := by
    refine fun s => ⟨fun hs => ?_, h.map_mem_words hc hc' hg hg'⟩
    have hback := h.symm.map_mem_words hc' hc hg' hg hs
    simpa using hback
  -- words lead to one state if they lead to one state of the product, on both sides
  have hsame : ∀ {s s' x x' y y'}, g.Reaches s x → g.Reaches s' x' → g'.Reaches (s.map ε) y →
      g'.Reaches (s'.map ε) y' → (x = x' ↔ y = y') := by
    intro s s' x x' y y' hx hx' hy hy'
    have hinjective := hrep.label_injective x (hx.mem_states hrep.wellFormed) x'
      (hx'.mem_states hrep.wellFormed)
    have hinjective' := hrep'.label_injective y (hy.mem_states hrep'.wellFormed) y'
      (hy'.mem_states hrep'.wellFormed)
    rw [hlabel hx hy, hlabel hx' hy', (ProductState.rename ρ σ).injective.eq_iff] at hinjective'
    refine ⟨fun heq => hinjective' (congrArg label heq), fun heq => hinjective ?_⟩
    refine (ProductState.rename ρ σ).injective ?_
    rw [← hlabel hx hy, ← hlabel hx' hy', heq]
  have hmarked : ∀ {s x y}, g.Reaches s x → g'.Reaches (s.map ε) y →
      (x ∈ g.marked ↔ y ∈ g'.marked) := by
    intro s x y hx hy
    rw [hrep.mem_marked, hrep'.mem_marked, hlabel hx hy, h.isMarked]
    exact and_congr_left fun _ => iff_of_true (hx.mem_states hrep.wellFormed)
      (hy.mem_states hrep'.wellFormed)
  have hevents : g.alphabet.IsRenamed g'.alphabet ε := by
    rw [halphabet, halphabet']
    exact h.plant.alphabet
  obtain ⟨π, hπ⟩ := Automaton.exists_isRenamed_of_words hrep.wellFormed hrep'.wellFormed
    (hrep.isDeterministic hc) (hrep'.isDeterministic hc') hg.settled.allReached
    hg'.settled.allReached hevents hwords hsame hmarked
  refine ⟨π, hπ, fun x hx => ?_⟩
  -- the plant marking is known from the state of the product
  obtain ⟨s, hs⟩ := hg.settled.allReached x hx
  rw [hg.marking x hx, hg'.marking _ ((hπ.states x).mpr hx), hlabel hs (hπ.reaches.mpr hs)]
  exact h.plant.marked _

omit hc hc' in
/-- **Closed loops** are the same up to names if the candidates are. -/
theorem enforcedLoop {π : Equiv.Perm StateId} (hc : c.WellPosed) (hc' : c'.WellPosed)
    (hπ : g.IsRenamed g' π ε) (hplant : ∀ x ∈ g.states, π x ∈ plantMarking' ↔ x ∈ plantMarking) :
    (c.enforcedLoop g plantMarking).IsRenamed (c'.enforcedLoop g' plantMarking') π ε :=
  (hπ.closedLoop hg.represents.wellFormed hg'.represents.wellFormed
    (hg.represents.hasUniqueSuccessors hc) (hg'.represents.hasUniqueSuccessors hc') h.controllable
    hplant).trim hg.feedbackLoop_wellFormed hg'.feedbackLoop_wellFormed

end IsRenamed

end ControlProblem

end OmegaControl
