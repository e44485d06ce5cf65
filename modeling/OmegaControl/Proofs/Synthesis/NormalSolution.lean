import OmegaControl.Proofs.Normality
import OmegaControl.Proofs.Synthesis.Alphabet
import OmegaControl.Proofs.Synthesis.Attachment

/-!
# Normal solutions are admissible

What the loop for a supervisor that sees only some events ends with conforms to its
observer in every state (`ObservedProblem.NormalSolution`). The observer mirrors the
candidate that the loop starts with, so a word of the plant that looks like a word
of the solution is one (`PrunedReduct.normalWithin`).

Like every candidate whose states are as they should be, it accepts all that it
generates and plant and specification accept, and it generates no more than the
supremal solution. Nothing says that it is the largest candidate that is
controllable and normal: patterns may take more away than has to go.
-/

namespace OmegaControl

/-! ## Words of admissible candidates -/

namespace ControlProblem.Admissible

variable {c : ControlProblem} {g : Automaton} {label : StateId → ProductState}
  {plantMarking : StateSet} (hg : c.Admissible g label plantMarking) (hc : c.WellPosed)
include hg hc

/-- A word is accepted if it is generated and accepted by plant and specification.
There is one run on a word only, and it visits marked states again and again if what
is owed is met again and again. -/
theorem acceptedWords_eq (hinitial : ∀ x ∈ g.initial, ∀ y ∈ g.initial, x = y) :
    g.acceptedWords = {w | (∀ n, upTo w n ∈ g.words) ∧
      w ∈ c.plant.acceptedWords ∧ w ∈ c.spec.acceptedWords} := by
  ext w
  constructor
  · intro hw
    refine ⟨fun n => Automaton.beginnings_acceptedWords_subset (upTo_mem_beginnings hw n), ?_⟩
    obtain ⟨xs, hxs, hreads, hmarked⟩ := hw
    exact (infinitelyOften_marked_iff_mem hc hg.tracks hxs hreads.isInfinitePath).mp
      (by simpa only [Automaton.endOf_stepAt] using hmarked)
  · rintro ⟨hwords, haccepted⟩
    obtain ⟨x₀, hx₀, -⟩ := hwords 0
    obtain ⟨r, hr, hevents⟩ := hg.hasUniqueSuccessors.exists_infinitePath (fun _ hts => hts) fun n => by
      obtain ⟨x, hx, ts, hts, hn⟩ := hwords n
      exact ⟨ts, hinitial x hx x₀ hx₀ ▸ hts, hn⟩
    obtain rfl := funext hevents
    exact ⟨fun n => endOf x₀ (upTo r n), hx₀, Automaton.IsInfinitePath.reads hr,
      (infinitelyOften_marked_iff_mem hc hg.tracks hx₀ hr).mpr haccepted⟩

/-- All words are words of the supremal solution. -/
theorem words_subset {sup : Automaton} {label' : StateId → ProductState} {plantMarking' : StateSet}
    (hsup : c.Supremal sup label' plantMarking') : g.words ⊆ sup.words := by
  rw [hg.words_eq, hsup.words_eq hc]
  refine beginnings_mono fun w hw => ?_
  obtain ⟨E, hE, hmem⟩ := hg.exists_isSolution hc hw
  rw [hsup.acceptedWords_eq hc]
  exact ⟨E, hE, hmem⟩

end ControlProblem.Admissible

/-- Leaving out states and transitions leaves runs of the product. -/
theorem ControlProblem.Tracks.of_isSubautomaton {c : ControlProblem} {g h : Automaton}
    {label : StateId → ProductState} (hg : c.Tracks g label) (hsub : h.IsSubautomaton g)
    (hwf : h.WellFormed) : c.Tracks h label where
  wellFormed := hwf
  start x hx := hg.start x (hsub.mem_initial.mp hx).1
  mem_marked x := by
    rw [hsub.mem_marked, hg.mem_marked]
    exact ⟨fun ⟨⟨_, hm⟩, hx⟩ => ⟨hx, hm⟩, fun ⟨hx, hm⟩ => ⟨⟨hsub.states_subset x hx, hm⟩, hx⟩⟩
  step t ht := hg.step t (hsub.transitions_subset t ht)

namespace ObservedProblem

open NormalPart Automaton

variable {c : ObservedProblem} {o a : Automaton} {label : StateId → ProductState}
  {cls : StateId → StateId} {plantMarking : StateSet} {q : ObservedCandidate}
  {s : List EventId} {x y : StateId}

/-! ## What the loop ends with -/

/-- What pruning makes of the candidate `a` with its observer `o`. The two stay the
ones that the loop has started with, so what is known of them serves in every round. -/
structure PrunedReduct (c : ObservedProblem) (o a : Automaton) (label : StateId → ProductState)
    (cls : StateId → StateId) (q : ObservedCandidate) : Prop where
  attachment : c.Attachment o a label cls
  reduct : Reduct q ⟨o, a⟩
  pruned : c.Pruned label cls q

/-- What the loop makes of it. In its last round the patterns have left all states,
which is all that is needed to enforce the marking from each of them. -/
structure NormalSolution (c : ObservedProblem) (o a : Automaton) (label : StateId → ProductState)
    (cls : StateId → StateId) (plantMarking : StateSet) (q : ObservedCandidate) : Prop extends
    c.PrunedReduct o a label cls q where
  marking : ∀ x ∈ a.states, x ∈ plantMarking ↔ (label x).plant ∈ c.plant.marked
  /-- patterns have left all states, so each of them is enforceable -/
  enforceable : ∀ x ∈ q.cand.states, x ∈ q.cand.enforceable c.controllable plantMarking

namespace PrunedReduct

variable (h : c.PrunedReduct o a label cls q)
include h

/-- Words lead where they have led before pruning. -/
theorem reaches (hs : q.cand.Reaches s x) : a.Reaches s x := h.reduct.reaches hs

/-- No event is taken from the alphabet. -/
theorem alphabet_eq : q.cand.alphabet = c.plant.alphabet :=
  h.reduct.cand.alphabet_eq.trans h.attachment.alphabet_eq

/-- What is left out brings no choice. -/
theorem isDeterministic : q.cand.IsDeterministic :=
  h.reduct.cand.isDeterministic h.attachment.isDeterministic

/-- The states still stand for runs of the product. -/
theorem tracks : c.Tracks q.cand label :=
  h.attachment.tracks.of_isSubautomaton h.reduct.cand h.reduct.wellFormed

/-- The plant goes along. -/
theorem accompanied (hc : c.WellPosed) :
    Accompanied c.plant q.cand fun x => (label x).plant :=
  ((h.attachment.attached hc).of_reduct h.reduct).toAccompanied

/-! ## Normality -/

/-- A state that is reached conforms. -/
theorem conforms (hs : q.cand.Reaches s x) :
    Conforms c.plant c.observable (fun x => (label x).plant) cls q x :=
  h.pruned.conforms x (hs.mem_states h.reduct.wellFormed)

/-- A word of the plant that looks like a word of the solution is one. -/
theorem normalWithin (hc : c.WellPosed) : NormalWithin c.plant c.observable q.cand :=
  (h.attachment.mirrors hc).normalWithin h.reduct h.conforms

/-- A state that is attached to the same state of the observer is reached by a word of the same
look. -/
theorem exists_lookalike (hc : c.WellPosed) (hs : q.cand.Reaches s x) (hy : y ∈ a.states)
    (hcls : cls y = cls x) :
    ∃ s', q.cand.Reaches s' y ∧ seen c.observable s' = seen c.observable s :=
  (h.attachment.mirrors hc).exists_lookalike_reduct h.reduct (h.normalWithin hc) hs hy hcls

/-! ## All that is promised -/

/-- It is controllable, as all states comply. -/
theorem isControllable (hc : c.WellPosed) : isControllable c.plant c.controllable q.cand = true :=
  (h.accompanied hc).isControllable h.pruned.complies

/-- It passes the test for normality. -/
theorem isNormal (hc : c.WellPosed) : isNormal c.plant c.observable q.cand = true :=
  (h.attachment.mirrors hc).isNormal h.reduct (h.normalWithin hc) h.attachment.alphabet_eq
    h.attachment.size_lt

/-- It is omega-trim, since marked states are ahead of every state. -/
theorem isOmegaTrim : q.cand.isOmegaTrim = true :=
  h.reduct.wellFormed.isOmegaTrim h.pruned.marked_ahead h.pruned.reached

end PrunedReduct

namespace NormalSolution

variable (h : c.NormalSolution o a label cls plantMarking q)
include h

/-- Nothing more is asked of its states. -/
theorem settled : c.Settled q.cand label plantMarking :=
  ⟨h.pruned.complies, fun x hx => exists_reaches_iff.mp (h.pruned.reached x hx), h.enforceable⟩

/-- So it is as good a candidate as any, and what is known of these is known of it. -/
theorem admissible : c.Admissible q.cand label plantMarking :=
  ⟨h.tracks, h.isDeterministic.hasUniqueSuccessors,
    fun x hx => h.marking x (h.reduct.cand.states_subset x hx), h.settled⟩

/-- The name does not matter. -/
theorem setName (name : String) :
    c.NormalSolution o a label cls plantMarking { q with cand := q.cand.setName name } where
  attachment := h.attachment
  reduct := { h.reduct with
    cand := { h.reduct.cand with }
    wellFormed := h.reduct.wellFormed.setName name }
  pruned :=
    { complies := h.pruned.complies
      reached := fun x hx => by
        obtain ⟨s, hs⟩ := h.pruned.reached x hx
        exact ⟨s, Reaches.mono (h := q.cand) (fun _ hx => hx) (fun _ ht => ht) hs⟩
      conforms := fun x hx => { h.pruned.conforms x hx with }
      marked_ahead := fun x hx => by
        obtain ⟨us, hne, hus, hmarked⟩ := h.pruned.marked_ahead x hx
        exact ⟨us, hne, hus.mono fun _ ht => ht, hmarked⟩ }
  marking := h.marking
  enforceable := h.enforceable

end NormalSolution

end ObservedProblem

end OmegaControl
