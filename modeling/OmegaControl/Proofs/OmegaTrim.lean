import OmegaControl.Edit
import OmegaControl.Proofs.Reaching

/-!
# The omega-trim part

Restricting to the omega-trim part keeps the states on infinite paths that start in
an initial state and visit marked states infinitely often (`omegaTrim_spec`).

It keeps them since from each of them a path leads to a marked state through others
of them, so neither of the two restrictions that are made in turn takes any away
(`IsSustained.mem_settle`).

It keeps no others: what leads to a coaccessible state is coaccessible, and what
leads to a state that is not blocking is not blocking, so the restrictions leave
every state reached; and as soon as they take nothing away, marked states are ahead
of every state that is left. A path that goes from one marked state to the next is
an accepting one.
-/

namespace OmegaControl.Automaton

variable {g h : Automaton} {alive : Set StateId} {x : StateId} {w : ℕ → EventId}

/-- The state lies on an infinite path that starts in an initial state and visits
marked states infinitely often. Such a path shows the state to be of use, and no
finite one does. -/
def OnAcceptingPath (g : Automaton) (x : StateId) : Prop :=
  ∃ x₀ ∈ g.initial, ∃ r, g.IsInfinitePath x₀ r ∧
    (InfinitelyOften fun n => endOf x₀ (upTo r n) ∈ g.marked) ∧ ∃ n, endOf x₀ (upTo r n) = x

/-! ## What is not taken away

The two restrictions are to the coaccessible part and to the states that do not
block, until neither takes anything away. -/

/-- Each of the states goes on to a marked one through states among them. At least
one step is taken, so a marked state needs another one, or itself again. -/
def IsSustained (g : Automaton) (alive : Set StateId) : Prop :=
  ∀ x ∈ alive, ∃ us, us ≠ [] ∧ g.IsPath x us ∧ (∀ t ∈ us, t.target ∈ alive) ∧ endOf x us ∈ g.marked

namespace IsSustained

variable (hs : g.IsSustained alive)
include hs

/-- Other states are not needed. -/
theorem of_isPart (hpart : h.IsPart g) (hkept : ∀ x ∈ alive, x ∈ h.states) :
    h.IsSustained alive := by
  intro x hx
  obtain ⟨us, hne, hus, hinside, hmarked⟩ := hs x hx
  obtain ⟨t, ht, htarget⟩ := exists_target_eq_endOf hne x
  refine ⟨us, hne, (hpart.isPath_iff (hkept x hx)).mpr ⟨hus, fun u hu => hkept _ (hinside u hu)⟩,
    hinside, hpart.mem_marked.mpr ⟨hmarked, ?_⟩⟩
  exact htarget ▸ hkept _ (hinside t ht)

variable (hstates : ∀ x ∈ alive, x ∈ g.states)
include hstates

/-- They lead to marked states. -/
theorem mem_coaccessible : ∀ x ∈ alive, x ∈ g.coaccessible.states := by
  intro x hx
  obtain ⟨us, -, hus, -, hmarked⟩ := hs x hx
  exact mem_states_restrictStates.mpr ⟨hstates x hx, mem_coaccessibleSet.mpr ⟨us, hus, hmarked⟩⟩

/-- None of them blocks, since the first step leads to one of them. -/
theorem mem_complete : ∀ x ∈ alive, x ∈ g.complete.states := by
  intro x hx
  refine mem_states_deleteStates.mpr ⟨hstates x hx, not_mem_blockingSet alive (fun y hy => ?_) hx⟩
  obtain ⟨us, hne, hus, hinside, -⟩ := hs y hy
  obtain ⟨t, us, rfl⟩ := List.exists_cons_of_ne_nil hne
  exact ⟨t, hus.1, hus.2.1, hinside t List.mem_cons_self⟩

/-- Neither restriction takes one of the states away, as often as they are made:
what one leaves still has all of them, and the transitions between them. -/
theorem mem_settle (hg : g.WellFormed) : ∀ x ∈ alive, x ∈ g.settle.states := by
  fun_induction settle g with
  | case1 g rest _ ih =>
    have hwf := hg.restrictStates g.coaccessibleSet
    have hcoaccessible := hs.mem_coaccessible hstates
    have hs' := hs.of_isPart (hg.isPart_restrictStates _) hcoaccessible
    have hcomplete := hs'.mem_complete hcoaccessible
    exact ih (hs'.of_isPart (hwf.isPart_deleteStates _) hcomplete) hcomplete (hwf.deleteStates _)
  | case2 g rest _ =>
    have hcoaccessible := hs.mem_coaccessible hstates
    exact (hs.of_isPart (hg.isPart_restrictStates _) hcoaccessible).mem_complete hcoaccessible

end IsSustained

/-- An accepting path goes on to marked states. -/
theorem isSustained_onAcceptingPath : g.IsSustained {x | g.OnAcceptingPath x} := by
  rintro _ ⟨x₀, hx₀, r, hr, hoften, n, rfl⟩
  obtain ⟨m, hm, hmarked⟩ := hoften (n + 1)
  obtain ⟨k, rfl⟩ := Nat.exists_eq_add_of_le hm
  have hpath := hr (n + (1 + k))
  rw [Nat.add_assoc, upTo_add, endOf_append] at hmarked
  rw [upTo_add, isPath_append] at hpath
  refine ⟨upTo (fun i => r (n + i)) (1 + k), fun hnil => ?_, hpath.2, fun t ht => ?_, hmarked⟩
  · have hlen := congrArg List.length hnil
    rw [length_upTo, List.length_nil] at hlen
    omega
  · obtain ⟨i, -, rfl⟩ := mem_upTo.mp ht
    exact ⟨x₀, hx₀, r, hr, hoften, n + i + 1, endOf_upTo_succ x₀ r (n + i)⟩

/-- The path comes from an initial state. -/
theorem OnAcceptingPath.mem_accessible (hg : g.WellFormed) (hx : g.OnAcceptingPath x) :
    x ∈ g.accessible.states := by
  obtain ⟨x₀, hx₀, r, hr, -, n, rfl⟩ := hx
  refine mem_states_restrictStates.mpr ⟨(hr n).endOf_mem hg (hg.initial_subset x₀ hx₀), ?_⟩
  exact mem_accessibleSet.mpr ⟨x₀, hx₀, _, hr n, rfl⟩

/-- The states on accepting paths are kept. -/
theorem OnAcceptingPath.mem_omegaTrim (hg : g.WellFormed) (hx : g.OnAcceptingPath x) :
    x ∈ g.omegaTrim.states := by
  have haccessible : ∀ x ∈ {x | g.OnAcceptingPath x}, x ∈ g.accessible.states :=
    fun _ hx => OnAcceptingPath.mem_accessible hg hx
  have hs := isSustained_onAcceptingPath.of_isPart (hg.isPart_restrictStates _) haccessible
  exact hs.mem_settle haccessible (hg.restrictStates _) x hx

/-! ## What is left
 -/

/-- Taking states away in turn leaves the others reached, because nothing that leads
to a state that is left is taken away. -/
theorem AllReached.settle (hreached : g.AllReached) (hg : g.WellFormed) : g.settle.AllReached := by
  fun_induction Automaton.settle g with
  | case1 g rest _ ih =>
    have hwf := hg.restrictStates g.coaccessibleSet
    exact ih ((hreached.coaccessible hg).complete hwf) (hwf.deleteStates _)
  | case2 g rest _ => exact (hreached.coaccessible hg).complete (hg.restrictStates _)

namespace WellFormed

variable (hg : g.WellFormed)
include hg

/-- The part is accessible before the other two restrictions begin. -/
theorem allReached_omegaTrim : g.omegaTrim.AllReached :=
  hg.allReached_accessible.settle (hg.restrictStates _)

/-- Marked states are ahead of every state that is left. It has a transition, and
where that leads to is coaccessible. -/
theorem marked_ahead_omegaTrim : ∀ x ∈ g.omegaTrim.states,
    ∃ us, us ≠ [] ∧ g.omegaTrim.IsPath x us ∧ endOf x us ∈ g.omegaTrim.marked := by
  obtain ⟨hcoaccessible, hcomplete⟩ := g.accessible.settle_fixed
  exact fun x hx => marked_ahead_of_eq hg.isPart_omegaTrim.2.2 hcoaccessible hcomplete hx

/-- A state that is left is on an accepting path, which comes by on its way from an
initial state and goes from one marked state to the next. -/
theorem onAcceptingPath_of_mem_omegaTrim (hx : x ∈ g.omegaTrim.states) : g.OnAcceptingPath x := by
  obtain ⟨-, hpart, hwf⟩ := hg.isPart_omegaTrim
  obtain ⟨x₀, hx₀, ts, hts, hend⟩ := exists_reaches_iff.mp (hg.allReached_omegaTrim x hx)
  obtain ⟨r, hbegin, hr, hoften⟩ := exists_infinitePath_of_marked_ahead hwf hg.marked_ahead_omegaTrim
    (hwf.initial_subset x₀ hx₀) hts
  refine ⟨x₀, (hpart.mem_initial.mp hx₀).1, r, fun n => hpart.isPath (hr n),
    hoften.mono fun _ hm => (hpart.mem_marked.mp hm).1, ts.length, ?_⟩
  rw [hbegin, hend]

theorem mem_omegaTrim_iff : x ∈ g.omegaTrim.states ↔ g.OnAcceptingPath x :=
  ⟨hg.onAcceptingPath_of_mem_omegaTrim, OnAcceptingPath.mem_omegaTrim hg⟩

/-- No infinite word is lost, since all states on its path are kept. -/
theorem acceptedWords_omegaTrim : g.omegaTrim.acceptedWords = g.acceptedWords := by
  obtain ⟨-, hpart, -⟩ := hg.isPart_omegaTrim
  refine Set.Subset.antisymm ?_ ?_
  · rintro w ⟨xs, hinitial, hreads, hoften⟩
    exact ⟨xs, (hpart.mem_initial.mp hinitial).1, fun n => (hpart.mem_transitions.mp (hreads n)).1,
      hoften.mono fun _ hm => (hpart.mem_marked.mp hm).1⟩
  · rintro w ⟨xs, hinitial, hreads, hoften⟩
    have hkept : ∀ n, xs n ∈ g.omegaTrim.states := fun n => hg.mem_omegaTrim_iff.mpr
      ⟨xs 0, hinitial, _, hreads.isInfinitePath, hoften.mono fun n hm => (endOf_stepAt n).symm ▸ hm, n,
        endOf_stepAt n⟩
    exact ⟨xs, hpart.mem_initial.mpr ⟨hinitial, hkept 0⟩,
      fun n => hpart.mem_transitions.mpr ⟨hreads n, hkept n, hkept (n + 1)⟩,
      hoften.mono fun n hm => hpart.mem_marked.mpr ⟨hm, hkept n⟩⟩

/-- An initial and a marked state are left if any state is. So whether something is
accepted can be seen from whether something is left. -/
theorem acceptsSome_omegaTrim : g.omegaTrim.acceptsSome = !g.omegaTrim.isEmpty := by
  obtain ⟨-, -, hwf⟩ := hg.isPart_omegaTrim
  rw [Bool.eq_iff_iff, acceptsSome, hasInitial, Bool.and_eq_true, Bool.not_eq_true',
    Bool.not_eq_true', Bool.not_eq_true']
  simp only [isEmpty, IdentSet.isEmpty_eq_false_iff]
  constructor
  · rintro ⟨⟨x, hx⟩, -⟩
    exact ⟨x, hwf.initial_subset x hx⟩
  · rintro ⟨x, hx⟩
    obtain ⟨x₀, hx₀, -⟩ := exists_reaches_iff.mp (hg.allReached_omegaTrim x hx)
    obtain ⟨us, -, -, hmarked⟩ := hg.marked_ahead_omegaTrim x hx
    exact ⟨⟨x₀, hx₀⟩, _, hmarked⟩

end WellFormed

/-- **The omega-trim part** consists of the states on accepting paths, with all transitions between
them. It accepts what the whole accepts and is omega-trim, and the answer to the restriction is
whether a state is left. -/
theorem omegaTrim_spec (hg : g.WellFormed) :
    (∀ x, x ∈ g.omegaTrim.states ↔ g.OnAcceptingPath x) ∧ g.omegaTrim.IsPart g ∧
    g.omegaTrim.acceptedWords = g.acceptedWords ∧ g.omegaTrim.isOmegaTrim = true ∧
    Edit.omegaTrim.apply g = (.flag !g.omegaTrim.isEmpty, g.omegaTrim) := by
  obtain ⟨-, hpart, hwf⟩ := hg.isPart_omegaTrim
  refine ⟨fun _ => hg.mem_omegaTrim_iff, hpart, hg.acceptedWords_omegaTrim,
    hwf.isOmegaTrim hg.marked_ahead_omegaTrim hg.allReached_omegaTrim, ?_⟩
  rw [← hg.acceptsSome_omegaTrim, Edit.apply]

/-- A machine that may be scrapped after a failure. -/
def scrappableMachine : Automaton :=
  (machine.insertTransition ⟨⟨3⟩, ⟨5⟩, ⟨4⟩⟩).insertTransition ⟨⟨4⟩, ⟨6⟩, ⟨4⟩⟩

/-- A machine that is scrapped is never done with its work again. -/
theorem scrappableMachine_omegaTrim : scrappableMachine.WellFormed ∧
    scrappableMachine.OnAcceptingPath ⟨3⟩ ∧ ¬scrappableMachine.OnAcceptingPath ⟨4⟩ ∧
    Edit.omegaTrim.apply scrappableMachine = (.flag true, scrappableMachine.omegaTrim) := by
  have hwf : scrappableMachine.WellFormed :=
    (machine_wellFormed.insertTransition _).insertTransition _
  obtain ⟨hstates, -, -, -, hanswer⟩ := omegaTrim_spec hwf
  have hleft : scrappableMachine.omegaTrim.states = .ofList [⟨1⟩, ⟨2⟩, ⟨3⟩] := by decide +kernel
  have hempty : scrappableMachine.omegaTrim.isEmpty = false := by
    rw [isEmpty, hleft]
    decide +kernel
  rw [hleft] at hstates
  rw [hempty] at hanswer
  exact ⟨hwf, (hstates _).mp (by decide +kernel), (hstates _).not.mp (by decide +kernel), hanswer⟩

end OmegaControl.Automaton
