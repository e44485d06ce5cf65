import Mathlib.Logic.Equiv.Fintype
import OmegaControl.Proofs.Reaching

/-!
# Renaming states and events

Numbers of states and events carry no meaning: one automaton is another one under
new names if a permutation of the numbers of states and one of the numbers of events
carry it over (`Automaton.IsRenamed`). Whatever is said of an automaton in terms of
its paths is then said of both, and taking away states that go together leaves
automata that go together.

All numbers are permuted, and not only those of states. So new names can be undone,
put together and used for sets that are not sets of states of the automaton, without
asking each time whether a number is in use.

Deterministic automata all of whose states are reached are compared by their words:
one is the other under new names as soon as they generate the same words, up to the
names of events, and any two words that lead to one state of one of them lead to one
state of the other (`Automaton.exists_isRenamed_of_words`). This is how results are
compared that were computed in another order, since nothing is known of the numbers
that their states were given.
-/

namespace OmegaControl

/-! ## Sets of identifiers
 -/

namespace IdentSet

variable {kind : Kind} {s t u s' t' : IdentSet kind} {f f' : Equiv.Perm (Ident kind)} {x : Ident kind}

/-- `h` is `g` under new names: `ρ` carries the states of `g` to those of `h`, and
`ε` the events. Texts and the next number are not compared, since no result depends
on them. -/
def IsRenamed (s t : IdentSet kind) (f : Equiv.Perm (Ident kind)) : Prop := ∀ x, f x ∈ t ↔ x ∈ s

namespace IsRenamed

theorem refl (s : IdentSet kind) : s.IsRenamed s (Equiv.refl _) := fun _ => Iff.rfl

/-- New names can be taken back. -/
theorem symm (h : s.IsRenamed t f) : t.IsRenamed s f.symm := fun x => by
  rw [← h, f.apply_symm_apply]

/-- Names may be changed twice. -/
theorem trans (h : s.IsRenamed t f) (h' : t.IsRenamed u f') : s.IsRenamed u (f.trans f') :=
  fun x => (h' (f x)).trans (h x)

theorem empty : (∅ : IdentSet kind).IsRenamed ∅ f :=
  fun _ => iff_of_false not_mem_empty not_mem_empty

/-- The operations on sets go along with new names; so does what a loop computes
with them. -/
theorem union (h : s.IsRenamed t f) (h' : s'.IsRenamed t' f) : (s ∪ s').IsRenamed (t ∪ t') f :=
  fun x => by rw [mem_union, mem_union, h x, h' x]

theorem inter (h : s.IsRenamed t f) (h' : s'.IsRenamed t' f) : (s ∩ s').IsRenamed (t ∩ t') f :=
  fun x => by rw [mem_inter, mem_inter, h x, h' x]

theorem sdiff (h : s.IsRenamed t f) (h' : s'.IsRenamed t' f) : (s \ s').IsRenamed (t \ t') f :=
  fun x => by rw [mem_sdiff, mem_sdiff, h x, h' x]

/-- The loops decide by sizes when to stop, so they take equally many rounds. -/
theorem size_eq (h : s.IsRenamed t f) : s.size = t.size := by
  have hle : ∀ {s t : IdentSet kind} {f : Equiv.Perm (Ident kind)}, s.IsRenamed t f →
      s.size ≤ t.size := fun {s t f} h => by
    rw [← s.length_toList]
    exact length_le_size (R := fun x y => f x = y) s.toList_nodup
      (fun x hx => ⟨f x, (h x).mpr (mem_toList.mp hx), rfl⟩)
      fun x _ y _ z hx hy => f.injective (hx.trans hy.symm)
  exact Nat.le_antisymm (hle h) (hle h.symm)

theorem subset_iff (h : s.IsRenamed t f) (h' : s'.IsRenamed t' f) : s ⊆ s' ↔ t ⊆ t' := by
  constructor
  · intro hsub x hx
    rw [← f.apply_symm_apply x, h] at hx
    rw [← f.apply_symm_apply x, h']
    exact hsub _ hx
  · exact fun hsub x hx => (h' x).mp (hsub _ ((h x).mpr hx))

end IsRenamed

/-- The set under new names. -/
def rename (f : Equiv.Perm (Ident kind)) (s : IdentSet kind) : IdentSet kind :=
  .ofList (s.toList.map f)

/-- There is one set that has the members under their new names. -/
theorem isRenamed_iff : s.IsRenamed t f ↔ s.rename f = t := by
  have hrename : s.IsRenamed (s.rename f) f := fun x => by simp [rename]
  constructor
  · intro h
    refine ext fun x => ?_
    rw [← f.apply_symm_apply x, hrename, h]
  · rintro rfl
    exact hrename

theorem rename_injective (f : Equiv.Perm (Ident kind)) : (rename f).Injective := by
  intro s t heq
  have ht : t.IsRenamed (s.rename f) f := isRenamed_iff.mpr heq.symm
  exact ext fun x => ((isRenamed_iff.mpr rfl) x).symm.trans (ht x)

theorem exists_rename_eq (f : Equiv.Perm (Ident kind)) (t : IdentSet kind) : ∃ s : IdentSet kind, s.rename f = t := by
  have ht : t.IsRenamed (t.rename f.symm) f.symm := isRenamed_iff.mpr rfl
  exact ⟨_, isRenamed_iff.mp ht.symm⟩

end IdentSet

/-- What words under new names begin with. -/
theorem mem_beginnings_image {ε : Equiv.Perm EventId} {E : Set (ℕ → EventId)} {s : List EventId} :
    s.map ε ∈ beginnings ((⇑ε ∘ ·) '' E) ↔ s ∈ beginnings E := by
  constructor
  · rintro ⟨_, ⟨w, hw, rfl⟩, n, hn⟩
    exact ⟨w, hw, n, List.map_injective_iff.mpr ε.injective ((map_upTo ..).trans hn)⟩
  · rintro ⟨w, hw, n, rfl⟩
    exact ⟨_, ⟨w, hw, rfl⟩, n, (map_upTo ε n).symm⟩

/-- The step under new names. -/
def Transition.rename (ρ : Equiv.Perm StateId) (ε : Equiv.Perm EventId) (t : Transition) :
    Transition := ⟨ρ t.source, ε t.event, ρ t.target⟩

namespace Automaton

/-- `h` is `g` under new names: `ρ` carries the states of `g` to those of `h`, and `ε` the events. -/
structure IsRenamed (g h : Automaton) (ρ : Equiv.Perm StateId) (ε : Equiv.Perm EventId) : Prop where
  alphabet : g.alphabet.IsRenamed h.alphabet ε
  states : g.states.IsRenamed h.states ρ
  initial : g.initial.IsRenamed h.initial ρ
  marked : g.marked.IsRenamed h.marked ρ
  /-- a step is there under new names if and only if it was there under the old ones -/
  transitions : ∀ t, t.rename ρ ε ∈ h.transitions ↔ t ∈ g.transitions

variable {g h k : Automaton} {ρ σ : Equiv.Perm StateId} {ε δ : Equiv.Perm EventId}
  {x y : StateId} {ev : EventId} {ts : List Transition} {s s' : List EventId}

namespace IsRenamed

/-- Nothing needs to be renamed. -/
theorem refl (g : Automaton) : g.IsRenamed g (Equiv.refl _) (Equiv.refl _) where
  alphabet := .refl _
  states := .refl _
  initial := .refl _
  marked := .refl _
  transitions _ := Iff.rfl

/-- What has to be compared, by going through the members. For automata that are
given this can be computed. -/
theorem of_forall (halphabet : g.alphabet.rename ε = h.alphabet) (hstates : g.states.rename ρ = h.states)
    (hinitial : g.initial.rename ρ = h.initial) (hmarked : g.marked.rename ρ = h.marked)
    (hforth : ∀ t ∈ g.transitions.toList, t.rename ρ ε ∈ h.transitions)
    (hback : ∀ t ∈ h.transitions.toList, t.rename ρ.symm ε.symm ∈ g.transitions) :
    g.IsRenamed h ρ ε where
  alphabet := IdentSet.isRenamed_iff.mpr halphabet
  states := IdentSet.isRenamed_iff.mpr hstates
  initial := IdentSet.isRenamed_iff.mpr hinitial
  marked := IdentSet.isRenamed_iff.mpr hmarked
  transitions t := by
    refine ⟨fun ht => ?_, fun ht => hforth t (Std.ExtTreeSet.mem_toList.mpr ht)⟩
    have ht := hback _ (Std.ExtTreeSet.mem_toList.mpr ht)
    simpa [Transition.rename] using ht

/-- Back to the old names. -/
theorem symm (hgh : g.IsRenamed h ρ ε) : h.IsRenamed g ρ.symm ε.symm where
  alphabet := hgh.alphabet.symm
  states := hgh.states.symm
  initial := hgh.initial.symm
  marked := hgh.marked.symm
  transitions t := by
    rw [← hgh.transitions]
    simp [Transition.rename]

/-- Two renamings one after another. -/
theorem trans (hgh : g.IsRenamed h ρ ε) (hhk : h.IsRenamed k σ δ) :
    g.IsRenamed k (ρ.trans σ) (ε.trans δ) where
  alphabet := hgh.alphabet.trans hhk.alphabet
  states := hgh.states.trans hhk.states
  initial := hgh.initial.trans hhk.initial
  marked := hgh.marked.trans hhk.marked
  transitions t := (hhk.transitions (t.rename ρ ε)).trans (hgh.transitions t)

/-- Names of automata do not matter. -/
theorem setName (hgh : g.IsRenamed h ρ ε) (name name' : String) :
    (g.setName name).IsRenamed (h.setName name') ρ ε := { hgh with }

variable (hgh : g.IsRenamed h ρ ε)
include hgh

/-- There are equally many states. -/
theorem size_eq : g.size = h.size := hgh.states.size_eq

/-- A step of `h` is one of `g` under new names. -/
theorem exists_rename_eq {t : Transition} (ht : t ∈ h.transitions) :
    ∃ u ∈ g.transitions, u.rename ρ ε = t := by
  refine ⟨t.rename ρ.symm ε.symm, (hgh.symm.transitions t).mpr ht, ?_⟩
  simp [Transition.rename]

/-! ## Paths
 -/

/-- Paths go along, step by step. -/
theorem isPath : h.IsPath (ρ x) (ts.map (·.rename ρ ε)) ↔ g.IsPath x ts := by
  induction ts generalizing x with
  | nil => exact Iff.rfl
  | cons t ts ih =>
    rw [List.map_cons, isPath_cons, isPath_cons, hgh.transitions]
    exact and_congr_right fun _ => and_congr ρ.injective.eq_iff ih

omit hgh in
/-- They end in states that go together. -/
theorem endOf_rename (x : StateId) (ts : List Transition) :
    endOf (ρ x) (ts.map (·.rename ρ ε)) = ρ (endOf x ts) := by
  induction ts using List.reverseRecOn with
  | nil => rfl
  | append_singleton ts t =>
    rw [List.map_append, List.map_singleton, endOf_concat, endOf_concat]
    rfl

/-- **Words** lead to states that go together. -/
theorem reaches : h.Reaches (s.map ε) (ρ x) ↔ g.Reaches s x := by
  induction s using List.reverseRecOn generalizing x with
  | nil => exact reaches_nil.trans ((hgh.initial x).trans reaches_nil.symm)
  | append_singleton s ev ih =>
    rw [List.map_append, List.map_singleton, reaches_concat, reaches_concat]
    constructor
    · rintro ⟨y, hy, ht⟩
      rw [← ρ.apply_symm_apply y, ih] at hy
      obtain ⟨u, hu, heq⟩ := hgh.exists_rename_eq ht
      obtain ⟨rfl, hev, htarget⟩ := Transition.mk.inj heq
      obtain rfl := ε.injective hev
      obtain rfl := ρ.injective htarget
      rw [ρ.symm_apply_apply] at hy
      exact ⟨u.source, hy, hu⟩
    · rintro ⟨y, hy, ht⟩
      exact ⟨ρ y, ih.mpr hy, (hgh.transitions ⟨y, ev, x⟩).mpr ht⟩

/-- A word is generated on both sides or on neither. -/
theorem mem_words : s.map ε ∈ h.words ↔ s ∈ g.words := by
  rw [mem_words_iff, mem_words_iff]
  constructor
  · rintro ⟨y, hy⟩
    rw [← ρ.apply_symm_apply y, hgh.reaches] at hy
    exact ⟨_, hy⟩
  · rintro ⟨x, hx⟩
    exact ⟨ρ x, hgh.reaches.mpr hx⟩

/-- **Infinite words** are accepted on both sides. -/
theorem mem_acceptedWords {w : ℕ → EventId} : ⇑ε ∘ w ∈ h.acceptedWords ↔ w ∈ g.acceptedWords := by
  rw [acceptedWords, Set.mem_ofPred_eq, ρ.surjective.comp_left.exists]
  refine exists_congr fun xs => and_congr (hgh.initial (xs 0)) (and_congr ?_ ?_)
  · exact forall_congr' fun n => hgh.transitions ⟨xs n, w n, xs (n + 1)⟩
  · simp only [Function.comp_apply, hgh.marked _]

/-- To be deterministic is no matter of names. -/
theorem isDeterministic (hg : g.IsDeterministic) : h.IsDeterministic := by
  refine HasUniqueSuccessors.isDeterministic (fun t ht u hu hsource hevent => ?_) ?_
  · obtain ⟨t', ht', rfl⟩ := hgh.exists_rename_eq ht
    obtain ⟨u', hu', rfl⟩ := hgh.exists_rename_eq hu
    rw [hg.hasUniqueSuccessors t' ht' u' hu' (ρ.injective hsource) (ε.injective hevent)]
  · exact hgh.initial.size_eq ▸ hg.1

/-! ## Fewer states
 -/

/-- Parts that go together are the same under new names. -/
theorem of_isPart {g' h' : Automaton} (hg' : g'.IsPart g) (hh' : h'.IsPart h)
    (hstates : g'.states.IsRenamed h'.states ρ) : g'.IsRenamed h' ρ ε where
  alphabet := by
    rw [hg'.alphabet_eq, hh'.alphabet_eq]
    exact hgh.alphabet
  states := hstates
  initial x := by rw [hg'.mem_initial, hh'.mem_initial, hgh.initial, hstates]
  marked x := by rw [hg'.mem_marked, hh'.mem_marked, hgh.marked, hstates]
  transitions t := by
    rw [hg'.mem_transitions, hh'.mem_transitions, hgh.transitions]
    exact and_congr_right fun _ => and_congr (hstates t.source) (hstates t.target)

variable (hg : g.WellFormed) (hh : h.WellFormed) {keep keep' : StateSet}
include hg hh

/-- Restricting to states that go together. -/
theorem restrictStates (hkeep : ∀ x ∈ g.states, ρ x ∈ keep' ↔ x ∈ keep) :
    (g.restrictStates keep).IsRenamed (h.restrictStates keep') ρ ε := by
  refine hgh.of_isPart (hg.isPart_restrictStates keep) (hh.isPart_restrictStates keep')
    fun x => ?_
  rw [mem_states_restrictStates, mem_states_restrictStates, hgh.states]
  exact and_congr_right fun hx => hkeep x hx

/-- The accessible states are those that words lead to. -/
theorem accessible : g.accessible.IsRenamed h.accessible ρ ε := by
  refine hgh.restrictStates hg hh fun x _ => ?_
  rw [mem_accessibleSet_iff, mem_accessibleSet_iff]
  constructor
  · rintro ⟨s, hs⟩
    refine ⟨s.map ε.symm, hgh.reaches.mp ?_⟩
    simpa using hs
  · rintro ⟨s, hs⟩
    exact ⟨_, hgh.reaches.mpr hs⟩

/-- The coaccessible states are those with paths to marked states. -/
theorem coaccessible : g.coaccessible.IsRenamed h.coaccessible ρ ε := by
  refine hgh.restrictStates hg hh fun x _ => ?_
  rw [mem_coaccessibleSet, mem_coaccessibleSet]
  constructor
  · rintro ⟨ts, hts, hmarked⟩
    refine ⟨ts.map (·.rename ρ.symm ε.symm), ?_, ?_⟩
    · have hpath := hgh.symm.isPath.mpr hts
      rwa [ρ.symm_apply_apply] at hpath
    · rw [← ρ.symm_apply_apply x, endOf_rename, hgh.symm.marked]
      exact hmarked
  · rintro ⟨ts, hts, hmarked⟩
    refine ⟨_, hgh.isPath.mpr hts, ?_⟩
    rw [endOf_rename]
    exact (hgh.marked _).mpr hmarked

omit hg hh in
/-- What is alive stays so under new names. -/
theorem not_mem_blockingSet (hx : x ∈ g.states) (hnot : x ∉ g.blockingSet)
    (hg : g.WellFormed) : ρ x ∉ h.blockingSet := by
  refine Automaton.not_mem_blockingSet
    {y | ∃ x ∈ g.states, x ∉ g.blockingSet ∧ ρ x = y} ?_ ⟨x, hx, hnot, rfl⟩
  rintro _ ⟨x, hx, hnot, rfl⟩
  obtain ⟨t, ht, rfl, htarget⟩ := exists_not_mem_blockingSet hx hnot
  exact ⟨t.rename ρ ε, (hgh.transitions t).mpr ht, rfl, t.target, hg.target_mem t ht, htarget, rfl⟩

/-- The blocking states are those that are not alive. -/
theorem complete : g.complete.IsRenamed h.complete ρ ε := by
  refine hgh.of_isPart (hg.isPart_deleteStates _) (hh.isPart_deleteStates _) fun x => ?_
  rw [Automaton.complete, Automaton.complete, mem_states_deleteStates, mem_states_deleteStates, hgh.states]
  refine and_congr_right fun hx => ⟨fun hnot => ?_, fun hnot => hgh.not_mem_blockingSet hx hnot hg⟩
  have hback := hgh.symm.not_mem_blockingSet ((hgh.states x).mpr hx) hnot hh
  rwa [ρ.symm_apply_apply] at hback

/-- The loop goes on as long as states are taken away, which is so on both sides or
on neither. -/
theorem settle : g.settle.IsRenamed h.settle ρ ε := by
  revert h
  fun_induction Automaton.settle g with
  | case1 g rest hlt ih =>
    intro h hgh hh
    have hrest := (hgh.coaccessible hg hh).complete (hg.restrictStates _) (hh.restrictStates _)
    rw [hgh.size_eq] at hlt
    rw [Automaton.settle.eq_1 h, if_pos (hrest.size_eq ▸ hlt)]
    exact ih ((hg.restrictStates _).deleteStates _) hrest ((hh.restrictStates _).deleteStates _)
  | case2 g rest hge =>
    intro h hgh hh
    have hrest := (hgh.coaccessible hg hh).complete (hg.restrictStates _) (hh.restrictStates _)
    rw [hgh.size_eq] at hge
    rw [Automaton.settle.eq_1 h, if_neg (hrest.size_eq ▸ hge)]
    exact hrest

theorem trim : g.trim.IsRenamed h.trim ρ ε :=
  (hgh.accessible hg hh).coaccessible (hg.restrictStates _) (hh.restrictStates _)

theorem omegaTrim : g.omegaTrim.IsRenamed h.omegaTrim ρ ε :=
  (hgh.accessible hg hh).settle (hg.restrictStates _) (hh.restrictStates _)

end IsRenamed

/-! ## Automata with the same words
 -/

/-- A bijection between the members of two sets gives new names to all identifiers.
There are finitely many, so as many are left outside the one set as outside the
other. -/
theorem exists_perm {A B : Set StateId} {φ : StateId → StateId} (hφ : Set.BijOn φ A B) :
    ∃ ρ : Equiv.Perm StateId, (∀ x ∈ A, ρ x = φ x) ∧ ∀ x, ρ x ∈ B ↔ x ∈ A := by
  classical
  have hfinite : Finite StateId := Finite.of_injective
    (fun x : StateId => (⟨x.index, x.index_lt⟩ : Fin UInt32.size))
    fun x y h => Ident.index_inj.mp (Fin.mk.inj h)
  have : Fintype StateId := Fintype.ofFinite _
  let e : {x // x ∈ A} ≃ {y // y ∈ B} := hφ.equiv
  refine ⟨e.extendSubtype, fun x hx => e.extendSubtype_apply_of_mem x hx, fun x => ⟨fun hx => ?_,
    fun hx => e.extendSubtype_mem x hx⟩⟩
  by_contra hnot
  exact e.extendSubtype_not_mem x hnot hx

section

variable (hwords : ∀ s, s.map ε ∈ h.words ↔ s ∈ g.words)
  (hsame : ∀ {s s' x x' y y'}, g.Reaches s x → g.Reaches s' x' → h.Reaches (s.map ε) y →
    h.Reaches (s'.map ε) y' → (x = x' ↔ y = y'))
include hwords

/-- A word leads somewhere on the other side, too. -/
theorem exists_reaches_map (hx : g.Reaches s x) : ∃ y, h.Reaches (s.map ε) y :=
  mem_words_iff.mp ((hwords s).mpr hx.mem_words)

/-- Every word of the other side is a word under new names. -/
theorem exists_reaches_of_map {y : StateId} (hy : h.Reaches s y) :
    ∃ s' x, g.Reaches s' x ∧ s'.map ε = s := by
  have heq : (s.map ε.symm).map ε = s := by simp
  obtain ⟨x, hx⟩ := mem_words_iff.mp ((hwords (s.map ε.symm)).mp (heq.symm ▸ hy.mem_words))
  exact ⟨_, x, hx, heq⟩

include hsame

/-- A state goes with the one that its words lead to. -/
theorem exists_partner (hreached : g.AllReached) (hx : x ∈ g.states) :
    ∃ y, ∀ s, g.Reaches s x → h.Reaches (s.map ε) y := by
  obtain ⟨s, hs⟩ := hreached x hx
  obtain ⟨y, hy⟩ := exists_reaches_map hwords hs
  refine ⟨y, fun s' hs' => ?_⟩
  obtain ⟨y', hy'⟩ := exists_reaches_map hwords hs'
  exact (hsame hs hs' hy hy').mp rfl ▸ hy'

/-- States that are reached by the same words go together, and this gives new names
to all of them. -/
theorem exists_perm_of_words (hg : g.WellFormed) (hh : h.WellFormed) (hdet' : h.IsDeterministic)
    (hreached : g.AllReached) (hreached' : h.AllReached) : ∃ ρ : Equiv.Perm StateId,
      (∀ x, ρ x ∈ h.states ↔ x ∈ g.states) ∧ ∀ s x, h.Reaches (s.map ε) (ρ x) ↔ g.Reaches s x := by
  have hpartner : ∀ x ∈ g.states, ∃ y, ∀ s, g.Reaches s x → h.Reaches (s.map ε) y :=
    fun _ hx => exists_partner hwords hsame hreached hx
  -- words decide on a partner for each state, and partners go together one to one
  choose! φ hφ using hpartner
  have hbij : Set.BijOn φ g.states.carrier h.states.carrier := by
    refine ⟨fun x hx => ?_, fun x hx x' hx' heq => ?_, fun y hy => ?_⟩
    · obtain ⟨s, hs⟩ := hreached x hx
      exact (hφ x hx s hs).mem_states hh
    · obtain ⟨s, hs⟩ := hreached x hx
      obtain ⟨s', hs'⟩ := hreached x' hx'
      exact (hsame hs hs' (hφ x hx s hs) (hφ x' hx' s' hs')).mpr heq
    · obtain ⟨s, hs⟩ := hreached' y hy
      obtain ⟨s', x, hx, rfl⟩ := exists_reaches_of_map hwords hs
      have hstate := hx.mem_states hg
      exact ⟨x, hstate, hdet'.reaches_unique (hφ x hstate s' hx) hs⟩
  -- a bijection between finite sets of states is the trace of a permutation
  obtain ⟨ρ, hρ, hstates⟩ := exists_perm hbij
  refine ⟨ρ, hstates, fun s x => ⟨fun hy => ?_, fun hx => ?_⟩⟩
  · have hx : x ∈ g.states := (hstates x).mp (hy.mem_states hh)
    obtain ⟨s', hs'⟩ := hreached x hx
    obtain ⟨x', hx'⟩ := mem_words_iff.mp ((hwords s).mp hy.mem_words)
    rw [hρ x hx] at hy
    exact (hsame hs' hx' (hφ x hx s' hs') hy).mpr rfl ▸ hx'
  · rw [hρ x (hx.mem_states hg)]
    exact hφ x (hx.mem_states hg) s hx

end

/-- Transitions are known from the words that lead to their states. -/
theorem mem_transitions_of_reaches (hg : g.WellFormed) (hdet' : h.IsDeterministic)
    (hreached : g.AllReached) (hreaches : ∀ s x, g.Reaches s x → h.Reaches (s.map ε) (ρ x))
    {t : Transition} (ht : t ∈ g.transitions) : t.rename ρ ε ∈ h.transitions := by
  obtain ⟨s, hs⟩ := hreached t.source (hg.source_mem t ht)
  have hy := hreaches _ _ (hs.concat ht)
  rw [List.map_append] at hy
  obtain ⟨y, hy, ht⟩ := reaches_concat.mp hy
  obtain rfl := hdet'.reaches_unique hy (hreaches s t.source hs)
  exact ht

/-- **Words decide**: deterministic automata all of whose states are reached are the same up to
names if they have the same words, and if two words lead to one state of one of them whenever they
do so in the other one. -/
theorem exists_isRenamed_of_words (hg : g.WellFormed) (hh : h.WellFormed) (hdet : g.IsDeterministic)
    (hdet' : h.IsDeterministic) (hreached : g.AllReached) (hreached' : h.AllReached)
    (halphabet : g.alphabet.IsRenamed h.alphabet ε)
    (hwords : ∀ s, s.map ε ∈ h.words ↔ s ∈ g.words)
    (hsame : ∀ {s s' x x' y y'}, g.Reaches s x → g.Reaches s' x' → h.Reaches (s.map ε) y →
      h.Reaches (s'.map ε) y' → (x = x' ↔ y = y'))
    (hmarked : ∀ {s x y}, g.Reaches s x → h.Reaches (s.map ε) y → (x ∈ g.marked ↔ y ∈ h.marked)) :
    ∃ ρ, g.IsRenamed h ρ ε := by
  obtain ⟨ρ, hstates, hreaches⟩ :=
    exists_perm_of_words hwords hsame hg hh hdet' hreached hreached'
  have hback : ∀ s y, h.Reaches s y → g.Reaches (s.map ε.symm) (ρ.symm y) := fun s y hy =>
    (hreaches _ _).mp (by simpa using hy)
  refine ⟨ρ, halphabet, hstates, fun x => ?_, fun x => ?_, fun t => ⟨fun ht => ?_, fun ht => ?_⟩⟩
  · rw [← reaches_nil, ← reaches_nil, ← hreaches, List.map_nil]
  · constructor
    · intro hx
      obtain ⟨s, hs⟩ := hreached x ((hstates x).mp (hh.marked_subset _ hx))
      exact (hmarked hs ((hreaches s x).mpr hs)).mpr hx
    · intro hx
      obtain ⟨s, hs⟩ := hreached x (hg.marked_subset x hx)
      exact (hmarked hs ((hreaches s x).mpr hs)).mp hx
  · simpa [Transition.rename] using mem_transitions_of_reaches hh hdet hreached' hback ht
  · exact mem_transitions_of_reaches hg hdet' hreached (fun s x => (hreaches s x).mpr) ht

end Automaton

end OmegaControl
