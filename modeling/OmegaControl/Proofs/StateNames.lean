import Mathlib.Data.List.Nodup
import OmegaControl.Product
import OmegaControl.Proofs.Unfolding
import Std.Data.String.ToInt

/-!
# Names of states

Names of components are joined with a separator that the names may contain
themselves, so the names that states of a product ask for need not differ.
`uniqueStateName` gives a name that is not taken: among as many variants as there
are names, some variant is free, since no two variants are equal and the name itself
is none of them (`uniqueStateName_spec`). The variants are counted with 32 bits,
which is enough: there are no more names than numbers of states.

States that get their names one after another, each by asking for a name that is not
taken, have different names in the end, whatever names are asked for
(`Names.foldl`). So it is for products (`names_product`): a pair gets a name if both
of its components have one.

What else an edit does to an automaton is of no interest here. Two automata are
compared only by the names that they hold and by whether they keep names at all
(`SameNames`), which is what most steps of a construction leave alone.
-/

namespace OmegaControl

/-- The values of a map, in the order of their keys. -/
theorem values_eq_map_toList {α β : Type} [Ord α] [Std.TransOrd α] (m : Std.ExtTreeMap α β) :
    m.values = m.toList.map (·.2) := by
  obtain ⟨⟨m⟩⟩ := m
  induction m using Quotient.ind with
  | _ m =>
    change m.inner.values = (Std.DTreeMap.Internal.Impl.Const.toList m.inner).map (·.2)
    rw [Std.DTreeMap.Internal.Impl.values_eq_map_snd,
      Std.DTreeMap.Internal.Impl.Const.toList_eq_toListModel_map, List.map_map]
    rfl

/-- A map has a value if it has it for some key. -/
theorem mem_values {α β : Type} [Ord α] [Std.TransOrd α] [Std.LawfulEqOrd α] [DecidableEq α]
    {m : Std.ExtTreeMap α β} {b : β} : b ∈ m.values ↔ ∃ a : α, m[a]? = some b := by
  simp only [values_eq_map_toList, List.mem_map, Prod.exists, exists_eq_right,
    Std.ExtTreeMap.mem_toList_iff_getElem?_eq_some]

namespace Automaton

variable {g h : Automaton} {name : String} {taken : List String} {x y : StateId}

/-! ## The search for a free name
 -/

/-- Variants with different numbers are different: the number is read back from its digits and its
sign. -/
theorem variant_inj {i j : Int32} : variant name i = variant name j ↔ i = j := by
  rw [variant, variant, String.append_right_inj, Int.repr_inj, Int32.toInt_inj]

/-- A name is no variant of itself, as variants are longer. -/
theorem variant_ne_self (name : String) (i : Int32) : variant name i ≠ name := by
  intro h
  have hlength := congrArg String.length h
  simp only [variant, String.length_append] at hlength
  have hsep : "_".length = 1 := rfl
  omega

/-- The numbers of the first variants are different as long as they do not wrap around. -/
theorem ofNat_inj_of_lt {n i j : ℕ} (hn : n ≤ UInt32.size) (hi : i < 1 + n) (hi' : 1 ≤ i)
    (hj : j < 1 + n) (hj' : 1 ≤ j) (h : Int32.ofNat i = Int32.ofNat j) : i = j := by
  have hmod : i % 2 ^ 32 = j % 2 ^ 32 := by
    simpa using congrArg (fun k : Int32 => k.toBitVec.toNat) h
  have hsize : UInt32.size = 2 ^ 32 := rfl
  omega

/-- If `n` names are taken, the name itself among them, one of the first `n + 1`
variants is free, since they are all different. There are enough numbers for that,
as no more names are taken than there are states to be named. -/
theorem exists_variant_not_mem (hname : name ∈ taken) (hsize : taken.length ≤ UInt32.size) :
    ∃ i, 1 ≤ i ∧ i < 1 + (taken.length + 1) ∧ variant name (.ofNat i) ∉ taken := by
  by_contra! hall
  -- otherwise the name and its variants would be more names than there are
  have hsub : name :: (List.range' 1 taken.length).map (fun i => variant name (.ofNat i)) ⊆ taken := by
    intro n hn
    rcases List.mem_cons.mp hn with rfl | hn
    · exact hname
    · obtain ⟨i, hi, rfl⟩ := List.mem_map.mp hn
      obtain ⟨hi, hlt⟩ := List.mem_range'_1.mp hi
      exact hall i hi (by omega)
  have hnodup : (name :: (List.range' 1 taken.length).map
      (fun i => variant name (.ofNat i))).Nodup := by
    refine List.nodup_cons.mpr ⟨fun hmem => ?_, (List.nodup_range' 1).map_on fun i hi j hj h => ?_⟩
    · obtain ⟨i, -, heq⟩ := List.mem_map.mp hmem
      exact variant_ne_self name _ heq
    · obtain ⟨hi, hlt⟩ := List.mem_range'_1.mp hi
      obtain ⟨hj, hlt'⟩ := List.mem_range'_1.mp hj
      exact ofNat_inj_of_lt hsize hlt hi hlt' hj (variant_inj.mp h)
  have hle := hnodup.length_le_of_subset hsub
  rw [List.length_cons, List.length_map, List.length_range'] at hle
  omega

/-- The search stops at the first free variant, if there is one within its reach. -/
theorem firstFreeName_spec {tries i j : ℕ} (hij : i ≤ j) (hj : j < i + tries)
    (hfree : variant name (.ofNat j) ∉ taken) : ∃ k, i ≤ k ∧
      firstFreeName taken name tries (.ofNat i) = variant name (.ofNat k) ∧
      variant name (.ofNat k) ∉ taken ∧ ∀ l, i ≤ l → l < k → variant name (.ofNat l) ∈ taken := by
  induction tries generalizing i with
  | zero => omega
  | succ tries ih =>
    rw [firstFreeName]
    by_cases htaken : variant name (.ofNat i) ∈ taken
    · have hne : i ≠ j := fun heq => hfree (heq ▸ htaken)
      obtain ⟨k, hk, heq, hkfree, hfirst⟩ := ih (i := i + 1) (by omega) (by omega)
      rw [Int32.ofNat_add] at heq
      refine ⟨k, by omega, (if_pos htaken).trans heq, hkfree, fun l hl hlk => ?_⟩
      obtain rfl | hlt := Nat.eq_or_lt_of_le hl
      · exact htaken
      · exact hfirst l hlt hlk
    · exact ⟨i, Nat.le_refl i, if_neg htaken, htaken, fun l hl hlk => by omega⟩

/-- There are at most as many names as numbers for states. -/
theorem length_stateNames_le (g : Automaton) : g.stateNames.values.length ≤ UInt32.size := by
  rw [values_eq_map_toList, List.length_map, Std.ExtTreeMap.length_toList]
  exact Bounded.size_map_le g.stateNames

/-- **The search for a name** ends with one that is not taken: the name itself, or else its first
variant that is free. That numbers wrap around does no harm, as the search is over before the first
of them comes back. -/
theorem uniqueStateName_spec (g : Automaton) (name : String) :
    (∀ x, g.stateName? x ≠ some (g.uniqueStateName name)) ∧
      ((∀ x, g.stateName? x ≠ some name) → g.uniqueStateName name = name) ∧
      ((∃ x, g.stateName? x = some name) → ∃ i, 1 ≤ i ∧
        g.uniqueStateName name = variant name (.ofNat i) ∧
        ∀ j, 1 ≤ j → j < i → ∃ x, g.stateName? x = some (variant name (.ofNat j))) := by
  have hmem : ∀ n, n ∈ g.stateNames.values ↔ ∃ x, g.stateName? x = some n := fun n => mem_values
  have hunique : g.uniqueStateName name = if name ∈ g.stateNames.values then
      firstFreeName g.stateNames.values name (g.stateNames.values.length + 1) (.ofNat 1)
    else name := rfl
  by_cases htaken : name ∈ g.stateNames.values
  · obtain ⟨i, hi, hlt, hfree⟩ := exists_variant_not_mem htaken g.length_stateNames_le
    obtain ⟨k, hk, heq, hkfree, hfirst⟩ := firstFreeName_spec hi hlt hfree
    rw [if_pos htaken, heq] at hunique
    rw [hunique]
    refine ⟨fun x hx => hkfree ((hmem _).mpr ⟨x, hx⟩), fun hnone => ?_, fun _ => ?_⟩
    · obtain ⟨x, hx⟩ := (hmem name).mp htaken
      exact absurd hx (hnone x)
    · exact ⟨k, hk, rfl, fun j hj hjk => (hmem _).mp (hfirst j hj hjk)⟩
  · rw [if_neg htaken] at hunique
    rw [hunique]
    refine ⟨fun x hx => htaken ((hmem name).mpr ⟨x, hx⟩), fun _ => rfl, fun hsome => ?_⟩
    exact absurd ((hmem name).mpr hsome) htaken

/-! ## Names given one after another
 -/

/-- No two states have the same name. -/
def HasDistinctNames (g : Automaton) : Prop :=
  ∀ x y n, g.stateName? x = some n → g.stateName? y = some n → x = y

/-- Every state has a name, and no two states have the same. -/
structure IsNamed (g : Automaton) : Prop where
  distinct : g.HasDistinctNames
  isSome_stateName? : ∀ x ∈ g.states, (g.stateName? x).isSome = true

/-- Without names there are no two equal ones. -/
theorem hasDistinctNames_of_eq_empty (hg : g.stateNames = ∅) : g.HasDistinctNames := by
  intro x y n hx
  rw [stateName?, hg, Std.ExtTreeMap.getElem?_empty] at hx
  cases hx

/-- This is about the names only. -/
theorem HasDistinctNames.congr (hg : g.HasDistinctNames) (heq : h.stateNames = g.stateNames) :
    h.HasDistinctNames := by
  intro x y n
  rw [stateName?, stateName?, heq]
  exact hg x y n

/-- Where names are not kept, none is given. -/
theorem stateNames_setStateName (g : Automaton) (x : StateId) (name : String) :
    (g.setStateName x name).stateNames =
      if g.stateNamesEnabled then g.stateNames.insert x name else g.stateNames := by
  rw [setStateName]
  split <;> rfl

theorem states_setStateName (g : Automaton) (x : StateId) (name : String) :
    (g.setStateName x name).states = g.states := by
  rw [setStateName]
  split <;> rfl

theorem enabled_setStateName (g : Automaton) (x : StateId) (name : String) :
    (g.setStateName x name).stateNamesEnabled = g.stateNamesEnabled := by
  rw [setStateName]
  split <;> rfl

/-- A name that is not taken does no harm. If the state had another name before,
that one is lost. -/
theorem HasDistinctNames.setStateName (hg : g.HasDistinctNames) (x : StateId) (name : String) :
    (g.setStateName x (g.uniqueStateName name)).HasDistinctNames := by
  rw [Automaton.setStateName]
  split
  · intro y z n
    exact injective_insert (hg _ _ _) (g.uniqueStateName_spec name).1
  · exact hg

/-- States with a name that is not taken, and nothing else about names, is what an edit adds: it
names the state of a value if the value passes a test. -/
structure Names {β : Type} (f : Automaton → β → Automaton) (number : β → StateId)
    (test : β → Prop) : Prop where
  enabled : ∀ g b, (f g b).stateNamesEnabled = g.stateNamesEnabled
  named : ∀ g b, test b → ∃ name,
    (f g b).stateNames = (g.setStateName (number b) (g.uniqueStateName name)).stateNames
  otherwise : ∀ g b, ¬test b → (f g b).stateNames = g.stateNames

namespace Names

variable {β : Type} {f : Automaton → β → Automaton} {number : β → StateId} {test : β → Prop}
  (hf : Names f number test)
include hf

/-- One such edit keeps names different. -/
theorem hasDistinctNames (hg : g.HasDistinctNames) (b : β) : (f g b).HasDistinctNames := by
  by_cases htest : test b
  · obtain ⟨name, heq⟩ := hf.named g b htest
    exact (hg.setStateName (number b) name).congr heq
  · exact hg.congr (hf.otherwise g b htest)

/-- Who has a name after one such edit. -/
theorem isSome_stateName? (b : β) : ((f g b).stateName? x).isSome = true ↔
    (g.stateName? x).isSome = true ∨ (g.stateNamesEnabled = true ∧ x = number b ∧ test b) := by
  by_cases htest : test b
  · obtain ⟨name, heq⟩ := hf.named g b htest
    rw [stateName?, heq, stateNames_setStateName]
    split
    next henabled =>
      simp only [Std.ExtTreeMap.getElem?_insert, Std.compare_eq_iff_eq, stateName?]
      split
      next hx => simp [hx, henabled, htest]
      next hx => simp [Ne.symm hx]
    next henabled => simp [henabled, stateName?]
  · rw [stateName?, hf.otherwise g b htest]
    simp [htest, stateName?]

/-- **Names given one after another** are different if they were at first, and who gets one is whose
value passes the test. -/
theorem foldl (hg : g.HasDistinctNames) (bs : List β) : (bs.foldl f g).HasDistinctNames ∧
    ∀ x, ((bs.foldl f g).stateName? x).isSome = true ↔ (g.stateName? x).isSome = true ∨
      (g.stateNamesEnabled = true ∧ ∃ b ∈ bs, x = number b ∧ test b) := by
  induction bs generalizing g with
  | nil => simp [hg]
  | cons b bs ih =>
    obtain ⟨hdistinct, hnamed⟩ := ih (hf.hasDistinctNames hg b)
    refine ⟨hdistinct, fun x => (hnamed x).trans ?_⟩
    rw [hf.isSome_stateName?, hf.enabled]
    simp only [List.mem_cons, exists_eq_or_imp]
    tauto

end Names

/-! ## Products
 -/

/-- The names of states are those of `g`, and names are kept if `g` keeps them. -/
structure SameNames (h g : Automaton) : Prop where
  stateNames : h.stateNames = g.stateNames
  enabled : h.stateNamesEnabled = g.stateNamesEnabled

namespace SameNames

theorem trans {k : Automaton} (hkh : k.SameNames h) (hhg : h.SameNames g) : k.SameNames g :=
  ⟨hkh.stateNames.trans hhg.stateNames, hkh.enabled.trans hhg.enabled⟩

/-- Many edits that leave names alone. -/
theorem foldl {β : Type} {f : Automaton → β → Automaton} (hf : ∀ g b, (f g b).SameNames g)
    (bs : List β) (g : Automaton) : (bs.foldl f g).SameNames g := by
  induction bs generalizing g with
  | nil => exact ⟨rfl, rfl⟩
  | cons b bs ih => exact (ih _).trans (hf g b)

/-- The name that is found to be free depends on the names only. -/
theorem setStateName (hsame : h.SameNames g) (x : StateId) (name : String) :
    (h.setStateName x (h.uniqueStateName name)).SameNames
      (g.setStateName x (g.uniqueStateName name)) := by
  have hunique : h.uniqueStateName name = g.uniqueStateName name := by
    rw [uniqueStateName, uniqueStateName, hsame.stateNames]
  refine ⟨?_, by rw [enabled_setStateName, enabled_setStateName, hsame.enabled]⟩
  rw [hunique, stateNames_setStateName, stateNames_setStateName, hsame.stateNames, hsame.enabled]

end SameNames

section

variable {α : Type} [Ord α] [Std.TransOrd α]

/-- Adding states, initial states and steps leaves names alone. -/
theorem sameNames_insertStatesFor (values : List α) (g : Automaton) :
    (g.insertStatesFor values).1.SameNames g := by
  rw [insertStatesFor]
  generalize (∅ : Std.ExtTreeMap α StateId) = numbers
  induction values generalizing g numbers with
  | nil => exact ⟨rfl, rfl⟩
  | cons v values ih => exact ⟨(ih _ _).stateNames, (ih _ _).enabled⟩

theorem sameNames_setInitialFor (numbers : Std.ExtTreeMap α StateId) (values : List α)
    (g : Automaton) : (g.setInitialFor numbers values).SameNames g :=
  SameNames.foldl (f := setInitialState) (fun _ _ => ⟨rfl, rfl⟩) _ g

theorem sameNames_insertSteps (numbers : Std.ExtTreeMap α StateId)
    (steps : α → List (EventId × α)) (g : Automaton) : (g.insertSteps numbers steps).SameNames g :=
  SameNames.foldl (f := insertTransition) (fun _ _ => ⟨rfl, rfl⟩) _ g

end

variable {g₁ g₂ : Automaton}

/-- An empty product has no names yet. It keeps names if both components do. -/
theorem names_emptyProduct (g₁ g₂ : Automaton) : (g₁.emptyProduct g₂).stateNames = ∅ ∧
    (g₁.emptyProduct g₂).stateNamesEnabled = (g₁.stateNamesEnabled && g₂.stateNamesEnabled) := by
  obtain ⟨names, hnames⟩ := copyEventNames_eq
    ((new ("Product(" ++ g₁.name ++ "," ++ g₂.name ++ ")")).insertEvents (g₁.alphabet ∩ g₂.alphabet)) g₁
  rw [emptyProduct, hnames]
  exact ⟨ite_self _, rfl⟩

/-- A pair gets a name if both components have one. Whether it is marked is decided
first, and this has nothing to do with names. -/
theorem names_finishPair (g₁ g₂ : Automaton) :
    Names (fun g ((p, x) : StatePair × StateId) => g₁.finishPair g₂ g p x) (·.2) fun b =>
      (g₁.stateName? b.1.left).isSome = true ∧ (g₂.stateName? b.1.right).isSome = true := by
  -- marking a state leaves its name alone
  have hmarks : ∀ (g : Automaton) (p : StatePair) (x : StateId),
      (if p.left ∈ g₁.marked ∧ p.right ∈ g₂.marked then g.setMarkedState x else g).SameNames g := by
    intro g p x
    split <;> exact ⟨rfl, rfl⟩
  refine ⟨?_, ?_, ?_⟩
  · rintro g ⟨p, x⟩
    dsimp only [finishPair]
    split
    next => exact (enabled_setStateName ..).trans (hmarks g p x).enabled
    next => exact (hmarks g p x).enabled
  · rintro g ⟨p, x⟩ ⟨hleft, hright⟩
    obtain ⟨n₁, hn₁⟩ := Option.isSome_iff_exists.mp hleft
    obtain ⟨n₂, hn₂⟩ := Option.isSome_iff_exists.mp hright
    dsimp only at hn₁ hn₂
    dsimp only [finishPair]
    rw [hn₁, hn₂]
    exact ⟨_, ((hmarks g p x).setStateName x _).stateNames⟩
  · rintro g ⟨p, x⟩ hnot
    dsimp only [finishPair]
    split
    next n₁ n₂ hn₁ hn₂ => exact absurd ⟨by simp [hn₁], by simp [hn₂]⟩ hnot
    next => exact (hmarks g p x).stateNames

/-- **Names of product states** are different. A state has one if names are kept on both sides and
both components of a pair that it stands for have one. -/
theorem names_product (g₁ g₂ : Automaton) : (g₁.product g₂).1.HasDistinctNames ∧
    ∀ x, ((g₁.product g₂).1.stateName? x).isSome = true ↔
      g₁.stateNamesEnabled = true ∧ g₂.stateNamesEnabled = true ∧
        ∃ p : StatePair, (g₁.product g₂).2[p]? = some x ∧
          (g₁.stateName? p.left).isSome = true ∧ (g₂.stateName? p.right).isSome = true := by
  obtain ⟨hblank, henabled⟩ := names_emptyProduct g₁ g₂
  have hmembers := sameNames_insertStatesFor (g₁.jointPairs g₂) (g₁.emptyProduct g₂)
  rw [product]
  generalize (g₁.emptyProduct g₂).insertStatesFor (g₁.jointPairs g₂) = out at hmembers ⊢
  obtain ⟨g, numbers⟩ := out
  dsimp only at hmembers ⊢
  have hsteps := (sameNames_insertSteps numbers (g₁.jointSteps g₂) _).trans
    ((sameNames_setInitialFor numbers (g₁.initialPairs g₂) g).trans hmembers)
  generalize (g.setInitialFor numbers (g₁.initialPairs g₂)).insertSteps numbers (g₁.jointSteps g₂) = h
    at hsteps ⊢
  have hempty : h.stateNames = ∅ := hsteps.stateNames.trans hblank
  obtain ⟨hdistinct, hnamed⟩ := (names_finishPair g₁ g₂).foldl (hasDistinctNames_of_eq_empty hempty)
    numbers.toList
  refine ⟨hdistinct, fun x => (hnamed x).trans ?_⟩
  rw [hsteps.enabled, henabled, stateName?, hempty]
  simp [and_assoc, Std.ExtTreeMap.mem_toList_iff_getElem?_eq_some, @eq_comm StateId x]

/-- As long as there are numbers for all pairs, a state of the product stands for
one of them. Without this two pairs may be asked to name one state, and the one that
comes later does. -/
theorem eq_of_number_product (hsize : (g₁.jointPairs g₂).length < UInt32.size) {p q : StatePair}
    (hp : (g₁.product g₂).2[p]? = some x) (hq : (g₁.product g₂).2[q]? = some x) : p = q := by
  have hblank := (isBlank_new ("Product(" ++ g₁.name ++ "," ++ g₂.name ++ ")")
    (g₁.alphabet ∩ g₂.alphabet) g₁ (g₁.stateNamesEnabled && g₂.stateNamesEnabled)).1
  exact (isNumbering_insertStatesFor Traversal.discover_nodup hsize
    hblank.isNumbering).1.injective hp hq

end Automaton

end OmegaControl
