import OmegaControl.Proofs.Liveness.Drive

/-!
# The enforceable states among the subsets of the states

`Automaton.enforceable` is a fixpoint among all sets of identifiers. Here it is the
fixpoint of a formula on sets of states of the automaton, as one writes it down with a least
or greatest fixpoint for each of the five loops (`restrict_finds_nestedFixpoint`).

A function on sets of identifiers with values among the states has the same least and the
same greatest fixpoint as the function it induces on sets of states, so the formula can be
read from the outermost to the innermost loop.
-/

namespace OmegaControl

/-! ## Fixpoints of functions on sets -/

section

variable {α : Type} {f : Set α → Set α}

/-- The least set that a function maps into itself. -/
def leastFixed (f : Set α → Set α) : Set α := ⋂₀ {s | f s ⊆ s}

/-- The greatest set that is within its image under a function. -/
def greatestFixed (f : Set α → Set α) : Set α := ⋃₀ {s | s ⊆ f s}

/-- For a monotone function this is the least fixpoint. -/
theorem isLeast_leastFixed (hf : Monotone f) : IsLeast {s | f s = s} (leastFixed f) :=
  OrderHom.isLeast_lfp ⟨f, hf⟩

/-- And this is the greatest one. -/
theorem isGreatest_greatestFixed (hf : Monotone f) : IsGreatest {s | f s = s} (greatestFixed f) :=
  OrderHom.isGreatest_gfp ⟨f, hf⟩

/-! ### Fixpoints within a set -/

variable {whole : Set α} {F : Set α →o Set α} {f : Set whole → Set whole}

/-- A function that acts as a monotone one is monotone. -/
theorem monotone_of_image_eq (hf : ∀ s, Subtype.val '' f s = F (Subtype.val '' s)) :
    Monotone f := fun s t hst =>
  (Set.image_subset_image_iff Subtype.val_injective).mp <| by
    rw [hf, hf]
    exact F.monotone (Set.image_mono hst)

/-- A function with values within a set has its least fixpoint there. -/
theorem image_leastFixed (hF : ∀ s, F s ⊆ whole)
    (hf : ∀ s, Subtype.val '' f s = F (Subtype.val '' s)) :
    Subtype.val '' leastFixed f = F.lfp := by
  have hleast := isLeast_leastFixed (monotone_of_image_eq hf)
  have hwhole : F.lfp ⊆ whole := F.map_lfp ▸ hF F.lfp
  have himage : Subtype.val '' (Set.preimage Subtype.val F.lfp : Set whole) = F.lfp :=
    Subtype.image_preimage_coe .. |>.trans (Set.inter_eq_right.mpr hwhole)
  apply subset_antisymm
  · refine (Set.image_mono (hleast.2 ?_)).trans himage.subset
    exact Set.image_injective.mpr Subtype.val_injective (by rw [hf, himage, F.map_lfp])
  · exact F.lfp_le (by rw [← hf, hleast.1])

/-- A function with values within a set has its greatest fixpoint there. -/
theorem image_greatestFixed (hF : ∀ s, F s ⊆ whole)
    (hf : ∀ s, Subtype.val '' f s = F (Subtype.val '' s)) :
    Subtype.val '' greatestFixed f = F.gfp := by
  have hgreatest := isGreatest_greatestFixed (monotone_of_image_eq hf)
  have hwhole : F.gfp ⊆ whole := F.map_gfp ▸ hF F.gfp
  have himage : Subtype.val '' (Set.preimage Subtype.val F.gfp : Set whole) = F.gfp :=
    Subtype.image_preimage_coe .. |>.trans (Set.inter_eq_right.mpr hwhole)
  apply subset_antisymm
  · exact F.le_gfp (by rw [← hf, hgreatest.1])
  · refine himage.superset.trans (Set.image_mono (hgreatest.2 ?_))
    exact Set.image_injective.mpr Subtype.val_injective (by rw [hf, himage, F.map_gfp])

end

/-! ## The formula -/

namespace Automaton

/-- Sets of states of an automaton. -/
abbrev States (g : Automaton) := Set g.states.carrier

/-- Those states of an automaton that are in a set of identifiers. -/
def among (g : Automaton) (s : StateSet) : g.States := Set.preimage Subtype.val s.carrier

variable (g : Automaton) (controllable : EventSet) (plantMarking : StateSet)

/-- The states with at least one transition into `target` and no transition on an
uncontrollable event that leaves `target` and `domain`. -/
def driven (target domain : g.States) : g.States :=
  {x | (∃ t ∈ g.transitions, t.source = x ∧ t.target ∈ Subtype.val '' target) ∧
    ∀ t ∈ g.transitions, t.source = x → t.event ∉ controllable →
      t.target ∈ Subtype.val '' (target ∪ domain)}

/-- The states from which marked states can be visited over and over again, as a fixpoint
that alternates five times. -/
def nestedFixpoint : g.States :=
  leastFixed fun resolved => greatestFixed fun states => leastFixed fun near =>
    greatestFixed fun domain => leastFixed fun inner =>
      g.driven controllable
        ((states ∩ g.among g.marked) ∪ resolved ∪ near ∪ (inner \ g.among plantMarking))
        (domain \ g.among plantMarking)

variable {g controllable plantMarking}

/-- What can be driven in one step is the same, whether one speaks of states of the
automaton or of identifiers. -/
theorem image_driven (target domain : g.States) :
    Subtype.val '' g.driven controllable target domain =
      g.drivable controllable (Subtype.val '' target) (Subtype.val '' domain) := by
  ext x
  constructor
  · rintro ⟨x, ⟨hinto, hall⟩, rfl⟩
    exact ⟨x.2, hinto, fun t htg hsource hev =>
      Set.image_union .. ▸ hall t htg hsource hev⟩
  · rintro ⟨hx, hinto, hall⟩
    exact ⟨⟨x, hx⟩, ⟨hinto, fun t htg hsource hev =>
      Set.image_union .. ▸ hall t htg hsource hev⟩, rfl⟩

/-- The formula describes the enforceable states: the fixpoints agree from the innermost to
the outermost. -/
theorem image_nestedFixpoint : Subtype.val '' g.nestedFixpoint controllable plantMarking =
    g.enforceable controllable plantMarking := by
  refine image_leastFixed resolveStep_subset fun resolved => ?_
  refine image_greatestFixed (recurStep_subset _) fun states => ?_
  refine image_leastFixed (approachStep_subset _) fun near => ?_
  refine image_greatestFixed (stayStep_subset _) fun domain => ?_
  refine image_leastFixed (attractStep_subset _ _) fun inner => ?_
  rw [image_driven, among, among, Set.image_union, Set.image_union, Set.image_union,
    Set.image_inter_preimage, Set.image_sdiff_preimage, Set.image_sdiff_preimage]
  rfl

end Automaton

/-- **The loops compute the nested fixpoint**, for every automaton, deterministic or not. -/
theorem restrict_finds_nestedFixpoint {σ : Type} {o : Observer σ} (ho : o.NeverCancels)
    (g : Automaton) (controllable : EventSet) (plantMarking : StateSet) :
    ∃ found,
      (o.watch ((Rule.restrict g controllable).enforceable g plantMarking)).2 = .ok (found, ()) ∧
      found.carrier = Subtype.val '' g.nestedFixpoint controllable plantMarking :=
  ⟨_, Observer.watch_eq_value ho _,
    (Rule.carrier_enforceable Rule.restrict_resolves).trans Automaton.image_nestedFixpoint.symm⟩

/-- From its first state one event leads back or to a state without an exit, and the other
to a state that is marked and never left. -/
def Automaton.fork : Automaton :=
  (((((Automaton.new "fork").insertTransition ⟨⟨1⟩, ⟨1⟩, ⟨1⟩⟩).insertTransition
    ⟨⟨1⟩, ⟨1⟩, ⟨2⟩⟩).insertTransition ⟨⟨1⟩, ⟨2⟩, ⟨3⟩⟩).insertTransition
    ⟨⟨3⟩, ⟨1⟩, ⟨3⟩⟩).setMarkedState ⟨3⟩

/-- The dead end is not enforceable; the state before it is, if the first event can be
disabled there. -/
theorem restrict_finds_nestedFixpoint_fork : Observer.patient.NeverCancels ∧
    (∃ found, (Observer.patient.watch ((Rule.restrict .fork (.singleton ⟨1⟩)).enforceable .fork
        (.singleton ⟨1⟩))).2 = .ok (found, ()) ∧
      found.carrier = Subtype.val '' Automaton.fork.nestedFixpoint (.singleton ⟨1⟩) (.singleton ⟨1⟩)) ∧
    ((Rule.restrict .fork (.singleton ⟨1⟩)).enforceable .fork (.singleton ⟨1⟩)).value.1 =
      .ofList [⟨1⟩, ⟨3⟩] ∧
    ((Rule.restrict .fork ∅).enforceable .fork (.singleton ⟨1⟩)).value.1 = .singleton ⟨3⟩ :=
  ⟨Observer.neverCancels_patient,
    restrict_finds_nestedFixpoint Observer.neverCancels_patient .fork _ _,
    by decide +kernel, by decide +kernel⟩

end OmegaControl
