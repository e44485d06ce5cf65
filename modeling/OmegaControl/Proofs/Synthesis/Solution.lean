import OmegaControl.Proofs.Synthesis.Construction
import OmegaControl.Proofs.Synthesis.Pruning

/-!
# Solutions and supervisors

A solution of a control problem is a set of infinite words, which says nothing about
states. What it has to do with the states of a candidate goes through supervisors.

* A solution gives a supervisor, which disables the controllable events that would
  lead out of the beginnings of the solution (`Supervisor.allowing`). If the
  candidate has the states that these beginnings lead to, this supervisor solves the
  control problem (`IsSolution.solves_allowing`).
* A supervisor that enforces the marking in a candidate whose states comply gives a
  solution, the words that the plant accepts under the supervisor
  (`isSolution_allowed`).

The two constructions are inverse to each other as far as it matters: the supervisor
of a solution allows the solution (`IsSolution.subset_allowed`). Candidates are only
asked to track the product here, so all this applies to supervisors that do not see
everything, too.
-/

namespace OmegaControl

/-- A set of infinite words is a solution of the control problem if plant and
specification accept them, if their beginnings go along with the uncontrollable
events of the plant, and if they are all the words that the plant accepts with these
beginnings. The last part says that a supervisor decides by what has happened so
far, and cannot wait for the end of an infinite word. -/
structure ControlProblem.IsSolution (c : ControlProblem) (E : Set (ℕ → EventId)) : Prop where
  /-- the plant accepts them -/
  subset_plant : E ⊆ c.plant.acceptedWords
  /-- so does the specification -/
  subset_spec : E ⊆ c.spec.acceptedWords
  /-- uncontrollable events are not disabled -/
  complies : ∀ s ∈ beginnings E, ∀ ev ∈ c.plant.alphabet, ev ∉ c.controllable →
    s ++ [ev] ∈ c.plant.words → s ++ [ev] ∈ beginnings E
  /-- nothing is left out that begins in the same way -/
  eq_closure : E = {w | w ∈ c.plant.acceptedWords ∧ ∀ n, upTo w n ∈ beginnings E}

/-- Disables the controllable events that lead out of `P`. It looks at the events of
a run only, and not at the states it has visited. -/
def Supervisor.allowing (controllable : EventSet) (P : Set (List EventId)) :
    Supervisor controllable where
  disabled ts := {ev | ev ∈ controllable ∧ ts.map (·.event) ++ [ev] ∉ P}
  controllable_of_mem _ _ hev := hev.1

namespace ControlProblem

/-- The words that the plant accepts, and that the supervisor allows in the
candidate: each beginning is the word of a run. -/
def allowed (c : ControlProblem) (g : Automaton) (S : Supervisor c.controllable) (x₀ : StateId) :
    Set (ℕ → EventId) :=
  {w | w ∈ c.plant.acceptedWords ∧ ∀ n, ∃ ts, S.IsRun g x₀ ts ∧ ts.map (·.event) = upTo w n}

variable {c : ControlProblem} {g : Automaton} {label : StateId → ProductState}
  {plantMarking : StateSet} {x₀ : StateId} {ts : List Transition} {s : List EventId}
  {p q : ProductState} {ev : EventId} {E : Set (ℕ → EventId)}

/-! ## Words of the product and words of its components

A run of the product determines where both components are, as they are
deterministic. So what they can do next, and what they accept, can be read off the
run. -/

/-- After a run of the product, the plant can go on as its transitions say. -/
theorem concat_mem_plant_words (hc : c.WellPosed) (hp : c.IsStart p) (hs : c.Leads p s q) :
    s ++ [ev] ∈ c.plant.words ↔ ∃ y, ⟨q.plant, ev, y⟩ ∈ c.plant.transitions := by
  obtain ⟨ts, hts, hend, rfl⟩ := hs.plant_isPath
  constructor
  · rintro ⟨x, hx, us, hus, hevents⟩
    obtain rfl := hc.plant_isDeterministic.initial_unique hp.plant_mem hx
    obtain ⟨us', us'', rfl, hus', hus''⟩ := List.map_eq_append_iff.mp hevents
    obtain ⟨u, rfl, rfl⟩ := List.map_eq_singleton_iff.mp hus''
    obtain ⟨hpath, hu, hsource⟩ := Automaton.isPath_concat.mp hus
    obtain rfl := hc.plant_isDeterministic.hasUniqueSuccessors.path_unique hpath hts hus'
    exact ⟨u.target, Automaton.mk_mem_transitions hu (hsource.trans hend)⟩
  · rintro ⟨y, hy⟩
    refine ⟨p.plant, hp.plant_mem, ts ++ [⟨q.plant, ev, y⟩], ?_, by simp⟩
    exact Automaton.isPath_concat.mpr ⟨hts, hy, hend.symm⟩

section

variable {r : ℕ → Transition} (hc : c.WellPosed) (hg : c.Tracks g label)
  (hx₀ : x₀ ∈ g.initial) (hr : g.IsInfinitePath x₀ r)
include hc hg hx₀ hr

/-- The plant accepts the word of an infinite path if its marking is visited infinitely
often. -/
theorem mem_plant_acceptedWords_iff : (fun n => (r n).event) ∈ c.plant.acceptedWords ↔
    InfinitelyOften fun n => (label (endOf x₀ (upTo r n))).plant ∈ c.plant.marked :=
  hc.plant_isDeterministic.mem_acceptedWords_iff (hg.reads hr.reads).plant_reads
    (hg.start x₀ hx₀).plant_mem

/-- The specification accepts it if its own marking is visited infinitely often. -/
theorem mem_spec_acceptedWords_iff : (fun n => (r n).event) ∈ c.spec.acceptedWords ↔
    InfinitelyOften fun n => (label (endOf x₀ (upTo r n))).spec ∈ c.spec.marked :=
  hc.spec_isDeterministic.mem_acceptedWords_iff (hg.reads hr.reads).spec_reads
    (hg.start x₀ hx₀).spec_mem

/-- Marked states are visited infinitely often on the words that plant and specification
accept. -/
theorem infinitelyOften_marked_iff_mem :
    (InfinitelyOften fun n => endOf x₀ (upTo r n) ∈ g.marked) ↔
      (fun n => (r n).event) ∈ c.plant.acceptedWords ∧
        (fun n => (r n).event) ∈ c.spec.acceptedWords := by
  rw [mem_plant_acceptedWords_iff hc hg hx₀ hr, mem_spec_acceptedWords_iff hc hg hx₀ hr]
  exact hg.infinitelyOften_marked_iff hr.reads

end

/-! ## Words that go along with the plant

What solutions and the words of candidates have in common. -/

/-- A set of words of the product that goes along with the uncontrollable events of
the plant. The beginnings of a solution are one, and so are the words of a candidate
that is settled. -/
structure Compliant (c : ControlProblem) (K : Set (List EventId)) : Prop where
  /-- beginnings are there -/
  mem_of_append : ∀ {s u}, s ++ u ∈ K → s ∈ K
  /-- they are words of the product -/
  exists_leads : ∀ {s}, s ∈ K → ∃ p q, c.IsStart p ∧ c.Leads p s q
  /-- and go along with the plant -/
  complies : ∀ s ∈ K, ∀ ev ∉ c.controllable, s ++ [ev] ∈ c.plant.words → s ++ [ev] ∈ K

namespace Compliant

variable {K : Set (List EventId)} (hK : c.Compliant K) (hc : c.WellPosed)
include hK hc

/-- Its words do not lead to states that are forced out: the events that force them
out would lead to a word that the specification refuses, and they cannot be
disabled. -/
theorem not_forced (hp : c.IsStart p) (hs : s ∈ K) (hq : c.Leads p s q) : ¬c.Forced q := by
  have hconcat : ∀ {s q ev y}, s ∈ K → c.Leads p s q → ⟨q.plant, ev, y⟩ ∈ c.plant.transitions →
      ev ∉ c.controllable → s ++ [ev] ∈ K := fun hs hq hy hev =>
    hK.complies _ hs _ hev ((concat_mem_plant_words hc hp hq).mpr ⟨_, hy⟩)
  intro hforced
  induction hforced generalizing s with
  | @refused q ev hev hrefused =>
    obtain ⟨⟨y, hy⟩, hnone⟩ := (mem_refusedEvents hc.deterministic).mp hrefused
    obtain ⟨p', q', hp', hq'⟩ := hK.exists_leads (hconcat hs hq hy hev)
    obtain rfl := hp.unique hc.deterministic hp'
    obtain ⟨q₁, hq₁, hstep⟩ := leads_concat.mp hq'
    obtain rfl := hq₁.unique hc.deterministic hq
    exact hnone _ hstep.spec_mem
  | @step q q' ev hev hstep _ ih =>
    exact ih (hconcat hs hq hstep.plant_mem hev) (leads_concat.mpr ⟨q, hq, hstep⟩)

/-- Its words are words of an automaton that has all states that are not forced out.
So the product, from which only such states are missing, has lost none of them. -/
theorem subset_words (hg : c.Represents g label)
    (hshown : ∀ p u q, c.IsStart p → (∀ v q', v <+: u → c.Leads p v q' → ¬c.Forced q') →
      c.Leads p u q → q ∈ shown g label) : K ⊆ g.words := by
  intro s hs
  obtain ⟨p, q, hp, hq⟩ := hK.exists_leads hs
  have hvisible : ∀ u q', u <+: s → c.Leads p u q' → q' ∈ shown g label := by
    rintro _ q' ⟨u', rfl⟩ hq'
    refine hshown p _ q' hp (fun v r hv hr => ?_) hq'
    obtain ⟨v', rfl⟩ := hv
    exact hK.not_forced hc hp (hK.mem_of_append (hK.mem_of_append hs)) hr
  obtain ⟨x₀, hx₀, rfl⟩ := hvisible [] p s.nil_prefix rfl
  obtain ⟨ts, hts, hevents, -⟩ := hg.exists_isPath hx₀ hvisible hq
  exact ⟨x₀, (hg.mem_initial x₀).mpr ⟨hx₀, hp⟩, ts, hts, hevents⟩

end Compliant

/-! ## From a solution to a supervisor

The supervisor disables what leads out of the solution. As the solution goes along
with the plant, no uncontrollable event does, so the supervisor can do this. -/

namespace IsSolution

section

variable (hE : c.IsSolution E)
include hE

/-- The product can read the words of a solution. -/
theorem exists_reads {w : ℕ → EventId} (hw : w ∈ E) :
    ∃ ps, c.IsStart (ps 0) ∧ c.Reads w ps ∧
      InfinitelyOften fun n => ControlledProduct.isMarked c.spec (ps n) = true :=
  mem_acceptedWords_iff.mp ⟨hE.subset_plant hw, hE.subset_spec hw⟩

variable (hc : c.WellPosed)
include hc

/-- What a solution begins with goes along with the plant, and the product can read
it. -/
theorem compliant : c.Compliant (beginnings E) where
  mem_of_append := beginnings_of_append
  exists_leads := by
    rintro _ ⟨w, hw, n, rfl⟩
    obtain ⟨ps, hstart, hreads, -⟩ := hE.exists_reads hw
    exact ⟨ps 0, ps n, hstart, hreads.leads n⟩
  complies s hs ev hev hword :=
    hE.complies s hs ev (Automaton.mem_alphabet_of_mem_words hc.plant_wellFormed hword
      (List.mem_append_right s List.mem_cons_self)) hev hword

/-- A solution goes along with uncontrollable transitions of the plant. -/
theorem concat_mem (hp : c.IsStart p) (hs : s ∈ beginnings E) (hq : c.Leads p s q) {y : StateId}
    (hy : ⟨q.plant, ev, y⟩ ∈ c.plant.transitions) (hev : ev ∉ c.controllable) :
    s ++ [ev] ∈ beginnings E :=
  (hE.compliant hc).complies s hs ev hev ((concat_mem_plant_words hc hp hq).mpr ⟨y, hy⟩)

end

/-- Without a start there is no solution, but for the empty one. -/
theorem exists_initial (hwords : beginnings E ⊆ g.words) (hne : E.Nonempty) :
    ∃ x₀, x₀ ∈ g.initial := by
  obtain ⟨x₀, hx₀, -⟩ := hwords (nil_mem_beginnings hne)
  exact ⟨x₀, hx₀⟩

section

variable (hE : c.IsSolution E) (hc : c.WellPosed) (hg : c.Tracks g label)
  (hdet : g.IsDeterministic) (hx₀ : x₀ ∈ g.initial) (hwords : beginnings E ⊆ g.words)

section

include hE hc hg hx₀

/-- A run under the supervisor has a beginning of the solution as its word:
controllable events that lead out are disabled, and uncontrollable ones do not. -/
theorem events_mem (hne : E.Nonempty)
    (hts : (Supervisor.allowing c.controllable (beginnings E)).IsRun g x₀ ts) :
    ts.map (·.event) ∈ beginnings E := by
  induction ts using List.reverseRecOn with
  | nil => exact nil_mem_beginnings hne
  | append_singleton ts t ih =>
    obtain ⟨hts, ht, hsource, hev⟩ := Supervisor.isRun_concat.mp hts
    have hmem := ih hts
    rw [List.map_append, List.map_singleton]
    by_cases hc' : t.event ∈ c.controllable
    · exact Classical.not_not.mp fun hnot => hev ⟨hc', hnot⟩
    · have hstep := hg.step t ht
      rw [hsource] at hstep
      exact hE.concat_mem hc (hg.start x₀ hx₀) hmem (hg.leads hts.1) hstep.plant_mem hc'

end

section

include hdet hx₀ hwords

/-- Each beginning of the solution is the word of a run under the supervisor. -/
theorem exists_isRun (hs : s ∈ beginnings E) :
    ∃ ts, (Supervisor.allowing c.controllable (beginnings E)).IsRun g x₀ ts ∧
      ts.map (·.event) = s := by
  obtain ⟨x, hx, ts, hts, rfl⟩ := hwords hs
  obtain rfl := hdet.initial_unique hx₀ hx
  refine ⟨ts, ?_, rfl⟩
  induction ts using List.reverseRecOn with
  | nil => exact Supervisor.isRun_nil
  | append_singleton ts t ih =>
    obtain ⟨hts, ht, hsource⟩ := Automaton.isPath_concat.mp hts
    rw [List.map_append, List.map_singleton] at hs
    refine Supervisor.isRun_concat.mpr ⟨ih (beginnings_of_append hs) hts, ht, hsource, ?_⟩
    exact fun hdisabled => hdisabled.2 hs

/-- A word that continues that of a run is the word of a run that continues it. -/
theorem exists_append_isRun
    (hts : (Supervisor.allowing c.controllable (beginnings E)).IsRun g x₀ ts) {u : List EventId}
    (hs : ts.map (·.event) ++ u ∈ beginnings E) :
    ∃ us, (Supervisor.allowing c.controllable (beginnings E)).IsRun g x₀ (ts ++ us) ∧
      us.map (·.event) = u := by
  obtain ⟨vs, hvs, hevents⟩ := exists_isRun hdet hx₀ hwords hs
  obtain ⟨us, rfl⟩ := hdet.hasUniqueSuccessors.isPrefix_of_events hts.1 hvs.1
    (hevents ▸ List.prefix_append _ u)
  rw [List.map_append] at hevents
  exact ⟨us, hvs, List.append_cancel_left hevents⟩

/-- The supervisor of a solution allows the solution, and perhaps more words with
the same beginnings. -/
theorem subset_allowed (hE : c.IsSolution E) :
    E ⊆ c.allowed g (Supervisor.allowing c.controllable (beginnings E)) x₀ := fun _ hw =>
  ⟨hE.subset_plant hw, fun n => exists_isRun hdet hx₀ hwords (upTo_mem_beginnings hw n)⟩

end

variable (hmarking : ∀ x ∈ g.states, x ∈ plantMarking ↔ (label x).plant ∈ c.plant.marked)
include hE hc hg hdet hx₀ hwords hmarking

/-- The supervisor of a solution enforces the marking. It allows what begins a word
of the solution, so every run goes on to a marked state. An infinite run that meets
the plant marking again and again is a word of the solution, since all its
beginnings are. -/
theorem enforces_allowing (hne : E.Nonempty) :
    (Supervisor.allowing c.controllable (beginnings E)).Enforces g plantMarking x₀ := by
  have hx₀' := hg.wellFormed.initial_subset x₀ hx₀
  refine ⟨fun ts hts => ?_, fun r hr hplant => ?_⟩
  · -- the run is continued by a word of the solution, along which a marked state
    -- comes up
    obtain ⟨w, hw, n, hn⟩ := hE.events_mem hc hg hx₀ hne hts
    obtain ⟨ps, hps, hreads, hoften⟩ := hE.exists_reads hw
    obtain ⟨m, hnm, hmarked⟩ := hoften (n + 1)
    obtain ⟨k, rfl⟩ := Nat.exists_eq_add_of_le (Nat.le_of_succ_le hnm)
    have hmem := upTo_mem_beginnings hw (n + k)
    rw [upTo_add, hn] at hmem
    obtain ⟨us, hus, hevents⟩ := exists_append_isRun hdet hx₀ hwords hts hmem
    refine ⟨us, fun hnil => ?_, hus, ?_⟩
    · have hlen := congrArg List.length hevents
      rw [hnil, List.map_nil, List.length_nil, length_upTo] at hlen
      omega
    · have hend := hg.leads hus.1
      rw [List.map_append, hevents, ← hn, ← upTo_add, (hg.start x₀ hx₀).unique hc.deterministic hps] at hend
      rw [hg.mem_marked, hend.unique hc.deterministic (hreads.leads (n + k))]
      exact ⟨hus.1.endOf_mem hg.wellFormed hx₀', hmarked⟩
  · -- an infinite run is a word that the plant accepts, all of whose beginnings
    -- belong to the solution
    have hpath : g.IsInfinitePath x₀ r := fun n => (hr n).1
    have haccepted : (fun n => (r n).event) ∈ c.plant.acceptedWords := by
      refine (mem_plant_acceptedWords_iff hc hg hx₀ hpath).mpr (hplant.mono fun n hn => ?_)
      exact (hmarking _ ((hpath n).endOf_mem hg.wellFormed hx₀')).mp hn
    have hmem : (fun n => (r n).event) ∈ E := by
      rw [hE.eq_closure]
      refine ⟨haccepted, fun n => ?_⟩
      rw [← map_upTo]
      exact hE.events_mem hc hg hx₀ hne (hr n)
    exact (infinitelyOften_marked_iff_mem hc hg hx₀ hpath).mpr ⟨haccepted, hE.subset_spec hmem⟩

/-- **The supervisor of a solution** solves the control problem: it enforces the
marking, and the solution goes along with every uncontrollable event of the plant. -/
theorem solves_allowing (hne : E.Nonempty) :
    (Supervisor.allowing c.controllable (beginnings E)).Solves c g label plantMarking x₀ := by
  refine ⟨hx₀, hE.enforces_allowing hc hg hdet hx₀ hwords hmarking hne, ?_⟩
  rintro x ⟨ts, hts, rfl⟩ l hl hsource hev
  have hmem : ts.map (·.event) ++ [l.event] ∈ beginnings E :=
    hE.concat_mem hc (hg.start x₀ hx₀) (hE.events_mem hc hg hx₀ hne hts)
      (hg.leads hts.1) (Automaton.mk_mem_transitions hl hsource) hev
  obtain ⟨us, hus, hevents⟩ := exists_append_isRun hdet hx₀ hwords hts hmem
  obtain ⟨t, rfl, hevent⟩ := List.map_eq_singleton_iff.mp hevents
  obtain ⟨-, ht, hsource', -⟩ := Supervisor.isRun_concat.mp hus
  exact ⟨t, ht, hsource', hevent, _, hus, endOf_concat x₀ ts t⟩

end

end IsSolution

/-! ## From a supervisor to a solution

The solution consists of the words that the plant accepts under the supervisor. That
the specification accepts them, too, is what enforcing the marking means. -/

/-- Deletions that keep what is needed do not change what the supervisor allows. -/
theorem Keeps.allowed_subset {h : Automaton} {S : Supervisor c.controllable}
    (hkeeps : c.Keeps label plantMarking g h) (hS : S.Solves c g label plantMarking x₀) :
    c.allowed g S x₀ ⊆ c.allowed h S x₀ := by
  refine fun w hw => ⟨hw.1, fun n => ?_⟩
  obtain ⟨ts, hts, hevents⟩ := hw.2 n
  have hkept := hkeeps.visited_subset S x₀ hS
  exact ⟨ts, (Supervisor.isRun_iff_of_isPart hkeeps.isPart hkept).mpr hts, hevents⟩

section

variable {S : Supervisor c.controllable} (hc : c.WellPosed) (hg : c.Tracks g label)
  (hunique : g.HasUniqueSuccessors) (hS : S.Solves c g label plantMarking x₀)
include hunique

/-- The run along an allowed word. -/
theorem exists_infiniteRun_of_mem_allowed {w : ℕ → EventId} (hw : w ∈ c.allowed g S x₀) :
    ∃ r, S.IsInfiniteRun g x₀ r ∧ (fun n => (r n).event) = w := by
  obtain ⟨r, hr, hevents⟩ :=
    hunique.exists_infinitePath (fun _ hts => hts.1) hw.2
  exact ⟨r, hr, funext hevents⟩

include hc hg hS

omit hunique in
/-- The finite words of the supervisor are the beginnings of the words it allows,
since every run can go on forever and visit marked states infinitely often. -/
theorem mem_beginnings_allowed :
    s ∈ beginnings (c.allowed g S x₀) ↔ ∃ ts, S.IsRun g x₀ ts ∧ ts.map (·.event) = s := by
  constructor
  · rintro ⟨w, hw, n, rfl⟩
    exact hw.2 n
  · rintro ⟨ts, hts, rfl⟩
    obtain ⟨r, hbegin, hr, hmarked⟩ := hS.enforces.exists_infiniteRun hts
    refine ⟨fun n => (r n).event, ⟨?_, fun n => ⟨upTo r n, hr n, map_upTo ..⟩⟩, ts.length, ?_⟩
    · exact ((infinitelyOften_marked_iff_mem hc hg hS.start fun n => (hr n).1).mp hmarked).1
    · rw [← map_upTo, hbegin]

/-- **The solution of a supervisor** that solves the control problem: the words of
the plant that it allows. The specification accepts them since the marking is
enforced, and no uncontrollable event is disabled. -/
theorem isSolution_allowed
    (hmarking : ∀ x ∈ g.states, x ∈ plantMarking ↔ (label x).plant ∈ c.plant.marked) :
    c.IsSolution (c.allowed g S x₀) := by
  have hx₀ := hg.wellFormed.initial_subset x₀ hS.start
  constructor
  · exact fun w hw => hw.1
  · intro w hw
    obtain ⟨r, hr, rfl⟩ := exists_infiniteRun_of_mem_allowed hunique hw
    have hpath : g.IsInfinitePath x₀ r := fun n => (hr n).1
    refine ((infinitelyOften_marked_iff_mem hc hg hS.start hpath).mp ?_).2
    -- the plant marking is visited infinitely often, so the supervisor enforces the marking
    refine hS.enforces.marked_again r hr ?_
    refine ((mem_plant_acceptedWords_iff hc hg hS.start hpath).mp hw.1).mono fun n hn => ?_
    exact (hmarking _ ((hpath n).endOf_mem hg.wellFormed hx₀)).mpr hn
  · -- the state at the end of the run complies, and uncontrollable events are not
    -- disabled
    intro s hs ev _ hev hword
    obtain ⟨ts, hts, rfl⟩ := (mem_beginnings_allowed hc hg hS).mp hs
    obtain ⟨y, hy⟩ := (concat_mem_plant_words hc (hg.start x₀ hS.start) (hg.leads hts.1)).mp hword
    obtain ⟨t, ht, hsource, rfl, -⟩ := hS.complies _ hts.endOf_mem_visited _ hy rfl hev
    refine (mem_beginnings_allowed hc hg hS).mpr ⟨ts ++ [t], ?_, by simp⟩
    exact hts.concat_of_not_mem ht hsource hev
  · -- the words are given by their beginnings, to begin with
    ext w
    simp only [Set.mem_ofPred_eq, mem_beginnings_allowed hc hg hS]
    rfl

end

end ControlProblem

end OmegaControl
