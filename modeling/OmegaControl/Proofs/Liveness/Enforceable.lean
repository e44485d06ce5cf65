import OmegaControl.Liveness.Rule
import OmegaControl.Proofs.Iteration

/-!
# The enforceable states as a nested fixpoint

The five loops of a rule, one inside the other, compute a fixpoint that alternates
five times: the least set `resolved`, the greatest `states`, the least `near`, the
greatest `domain` and the least `near` again, such that from each state one can be
driven in one step as the innermost function says (`drivable`).

Each loop has one lemma, which says two things at once: that the set it returns is
the fixpoint, and what it does to the records of the rule, given what its body does
to them. The first does not depend on the records (`Rule.carrier_enforceable`), so
all rules that answer the one-step question alike find the same states.

Read from the outside in, the loops ask: which states can be resolved, if those that
are resolved already may be relied on; from which of these can marked states be
visited over and over again; how can a marked state be approached; in which domain
can one stay until it is; and how does one get there, step by step, while the plant
marking is not visited?
-/

namespace OmegaControl

namespace Automaton

/-! ## The fixpoint

Each function is monotone in all its arguments, so that the fixpoints of one are
monotone in those of the next. They are written out as monotone functions one by
one, from the inside to the outside. -/

/-- The states with a transition into the target and without an uncontrollable
transition out of target and domain. A supervisor that disables what leads outside
drives such a state into the target, or lets it stay in the domain. -/
def drivable (g : Automaton) (controllable : EventSet) (target domain : Set StateId) :
    Set StateId :=
  {x | x ∈ g.states ∧ (∃ t ∈ g.transitions, t.source = x ∧ t.target ∈ target) ∧
    ∀ t ∈ g.transitions, t.source = x → t.event ∉ controllable → t.target ∈ target ∪ domain}

section

variable (g : Automaton) (controllable : EventSet) (plantMarking : StateSet)

/-- More room and more to aim at only help. -/
theorem drivable_mono {target target' domain domain' : Set StateId} (ht : target ⊆ target')
    (hd : domain ⊆ domain') :
    g.drivable controllable target domain ⊆ g.drivable controllable target' domain' := by
  rintro x ⟨hx, ⟨t, htg, hsource, htarget⟩, hall⟩
  exact ⟨hx, ⟨t, htg, hsource, ht htarget⟩,
    fun t htg hsource hev => Set.union_subset_union ht hd (hall t htg hsource hev)⟩

theorem drivable_subset (target domain : Set StateId) :
    g.drivable controllable target domain ⊆ g.states.carrier := fun _ hx => hx.1

/-- One more step along states that are not in the plant marking. Where the plant
marking is visited, the target has to be reached at once: this is progress that the
outer loops count. -/
def attractStep (target domain : Set StateId) : Set StateId →o Set StateId where
  toFun near := g.drivable controllable (target ∪ (near \ plantMarking.carrier))
    (domain \ plantMarking.carrier)
  monotone' _ _ h := g.drivable_mono controllable
    (Set.union_subset_union_right _ (Set.sdiff_subset_sdiff_left h)) subset_rfl

/-- From where in the domain, or elsewhere, can one be driven into the target? A
fixpoint is a domain that need not be left before the target is reached. -/
def stayStep (target : Set StateId) : Set StateId →o Set StateId where
  toFun domain := (g.attractStep controllable plantMarking target domain).lfp
  monotone' _ _ h := OrderHom.lfp.monotone fun _ =>
    g.drivable_mono controllable subset_rfl (Set.sdiff_subset_sdiff_left h)

/-- One more domain around the target: the states found so far are aimed at as well,
so each domain lies around the one before it. -/
def approachStep (target : Set StateId) : Set StateId →o Set StateId where
  toFun near := (g.stayStep controllable plantMarking (target ∪ near)).gfp
  monotone' _ _ h := OrderHom.gfp.monotone fun _ => OrderHom.lfp.monotone fun _ =>
    g.drivable_mono controllable
      (Set.union_subset_union_left _ (Set.union_subset_union_right _ h)) subset_rfl

/-- From where can the marked states of the given ones be approached? If these are
all of the given ones, marked states can be visited over and over again. -/
def recurStep (resolved : Set StateId) : Set StateId →o Set StateId where
  toFun states := (g.approachStep controllable plantMarking
    ((states ∩ g.marked.carrier) ∪ resolved)).lfp
  monotone' _ _ h := OrderHom.lfp.monotone fun _ => OrderHom.gfp.monotone fun _ =>
    OrderHom.lfp.monotone fun _ => g.drivable_mono controllable
      (Set.union_subset_union_left _ (Set.union_subset_union_left _
        (Set.union_subset_union_left _ (Set.inter_subset_inter_left _ h)))) subset_rfl

/-- From where can marked states be visited over and over again, or a resolved
state? -/
def resolveStep : Set StateId →o Set StateId where
  toFun resolved := (g.recurStep controllable plantMarking resolved).gfp
  monotone' _ _ h := OrderHom.gfp.monotone fun _ => OrderHom.lfp.monotone fun _ =>
    OrderHom.gfp.monotone fun _ => OrderHom.lfp.monotone fun _ => g.drivable_mono controllable
      (Set.union_subset_union_left _ (Set.union_subset_union_left _
        (Set.union_subset_union_right _ h))) subset_rfl

/-- **The enforceable states**, as a fixpoint. That a supervisor exists for these
and for no others is shown elsewhere; here they are what the loops compute. -/
def enforceable : Set StateId := (g.resolveStep controllable plantMarking).lfp

end

/-! ### Everything stays among the states

Only states are drivable, so every fixpoint consists of states. This is what lets
the loops start from all states, or stop at their number. -/

variable {g : Automaton} {controllable : EventSet} {plantMarking : StateSet}

theorem attractStep_subset (target domain near : Set StateId) :
    g.attractStep controllable plantMarking target domain near ⊆ g.states.carrier :=
  g.drivable_subset controllable _ _

theorem stayStep_subset (target domain : Set StateId) :
    g.stayStep controllable plantMarking target domain ⊆ g.states.carrier :=
  OrderHom.lfp_le _ (attractStep_subset _ _ _)

theorem approachStep_subset (target near : Set StateId) :
    g.approachStep controllable plantMarking target near ⊆ g.states.carrier :=
  OrderHom.gfp_le _ fun _ h => h.trans (stayStep_subset _ _)

theorem recurStep_subset (resolved states : Set StateId) :
    g.recurStep controllable plantMarking resolved states ⊆ g.states.carrier :=
  OrderHom.lfp_le _ (approachStep_subset _ _)

theorem resolveStep_subset (resolved : Set StateId) :
    g.resolveStep controllable plantMarking resolved ⊆ g.states.carrier :=
  OrderHom.gfp_le _ fun _ h => h.trans (recurStep_subset _ _)

variable (g controllable plantMarking) in
/-- Only states are enforceable. -/
theorem enforceable_subset : g.enforceable controllable plantMarking ⊆ g.states.carrier :=
  OrderHom.lfp_le _ (resolveStep_subset _)

end Automaton

/-! ## The loops of a rule

One lemma for each loop, from the inside to the outside. The invariant `I` is what
the body of the loop keeps, and `K` is what the records of one round, or of one
level, say about the sets at its start and at its end. -/

namespace Rule

variable {σ : Type}

/-- The rule finds the states that can be driven into a target, whatever it has
recorded. It is asked of the states only; what is recorded about them is left open. -/
def Resolves (rule : Rule σ) (g : Automaton) (controllable : EventSet) : Prop :=
  ∀ target domain s, (rule.resolve target domain s).1.carrier =
    g.drivable controllable target.carrier domain.carrier

variable {rule : Rule σ} {g : Automaton} {controllable : EventSet} {plantMarking : StateSet}

/-- The innermost loop, with what each step does to the records: the set grows by
what the rule finds, and the invariant speaks of set and records at each step. -/
theorem attract_spec (hrule : rule.Resolves g controllable) {target domain : StateSet}
    {I : StateSet → σ → Prop}
    (hstep : ∀ near s, I near s →
      I (near ∪ (rule.resolve (target ∪ (near \ plantMarking)) (domain \ plantMarking) s).1)
        (rule.resolve (target ∪ (near \ plantMarking)) (domain \ plantMarking) s).2)
    {s : σ} (h : I ∅ s) :
    ((rule.attract g plantMarking target domain).outcome s).1.carrier =
        (g.attractStep controllable plantMarking target.carrier domain.carrier).lfp ∧
      I ((rule.attract g plantMarking target domain).outcome s).1
        ((rule.attract g plantMarking target domain).outcome s).2 := by
  refine ascend_eq_lfp (fun _ => Automaton.attractStep_subset _ _ _) ?_ h
  intro near s t s' _ hI hout
  obtain ⟨rfl, rfl⟩ := Prod.mk.inj hout
  refine ⟨?_, hstep near s hI⟩
  rw [hrule, IdentSet.carrier_union, IdentSet.carrier_sdiff, IdentSet.carrier_sdiff]
  rfl

/-- The innermost loop finds its fixpoint. -/
theorem attract_carrier (hrule : rule.Resolves g controllable) (target domain : StateSet) (s : σ) :
    ((rule.attract g plantMarking target domain).outcome s).1.carrier =
      (g.attractStep controllable plantMarking target.carrier domain.carrier).lfp :=
  (attract_spec hrule (I := fun _ _ => True) (fun _ _ _ => trivial) trivial).1

/-- The fourth loop. The records at its end are those of a last round, which was
either done in the domain that is returned, or leaves none. All other rounds have
been forgotten by then. -/
theorem stay_spec (hrule : rule.Resolves g controllable) {resolved target : StateSet}
    {I : σ → Prop} {K : StateSet → StateSet → σ → Prop}
    (hstep : ∀ domain s, I s →
      I ((rule.attract g plantMarking target domain).outcome (rule.beginRound s)).2 ∧
      K domain ((rule.attract g plantMarking target domain).outcome (rule.beginRound s)).1
        ((rule.attract g plantMarking target domain).outcome (rule.beginRound s)).2)
    {s : σ} (h : I s) :
    ((rule.stay g plantMarking resolved target).outcome s).1.carrier =
        (g.stayStep controllable plantMarking target.carrier).gfp ∧
      ∃ domain s', ((rule.stay g plantMarking resolved target).outcome s).2 = rule.endRound s' ∧
        I s' ∧ K domain ((rule.stay g plantMarking resolved target).outcome s).1 s' ∧
        (domain = ((rule.stay g plantMarking resolved target).outcome s).1 ∨
          ((rule.stay g plantMarking resolved target).outcome s).1.carrier = ∅) := by
  have hloop := descend_eq_gfp (I := I) (K := K)
    (fun domain => do
      Watched.checkpoint .fixpoint resolved.size g.size
      modify rule.beginRound
      rule.attract g plantMarking target domain)
    (g.stayStep controllable plantMarking target.carrier) g.states
    (fun _ => Automaton.stayStep_subset _ _) ?_ h
  · obtain ⟨hgfp, hI, domain, hK, hlast⟩ := hloop
    simp only [stay, Recorded.outcome_bind, Recorded.outcome_modify, Recorded.outcome_pure]
    exact ⟨hgfp, domain, _, rfl, hI, hK, hlast⟩
  · intro domain s t s' _ hI hout
    simp only [Recorded.outcome_bind, Recorded.outcome_lift, Recorded.outcome_modify] at hout
    obtain ⟨rfl, rfl⟩ := Prod.mk.inj hout
    exact ⟨attract_carrier hrule target domain _, hstep domain s hI⟩

variable (plantMarking) in
/-- The fourth loop finds its fixpoint. -/
theorem stay_carrier (hrule : rule.Resolves g controllable) (resolved target : StateSet) (s : σ) :
    ((rule.stay g plantMarking resolved target).outcome s).1.carrier =
      (g.stayStep controllable plantMarking target.carrier).gfp :=
  (stay_spec hrule (I := fun _ => True) (K := fun _ _ _ => True)
    (fun _ _ _ => ⟨trivial, trivial⟩) trivial).1

/-- The third loop. Its records add up: what a domain records is joined to what the
domains before it have recorded. -/
theorem approach_spec (hrule : rule.Resolves g controllable) {resolved target : StateSet}
    {I : StateSet → σ → Prop}
    (hstep : ∀ near s, I near s →
      I (near ∪ ((rule.stay g plantMarking resolved (target ∪ near)).outcome s).1)
        ((rule.stay g plantMarking resolved (target ∪ near)).outcome s).2)
    {s : σ} (h : I ∅ s) :
    ((rule.approach g plantMarking resolved target).outcome s).1.carrier =
        (g.approachStep controllable plantMarking target.carrier).lfp ∧
      I ((rule.approach g plantMarking resolved target).outcome s).1
        ((rule.approach g plantMarking resolved target).outcome s).2 := by
  refine ascend_eq_lfp (fun _ => Automaton.approachStep_subset _ _) ?_ h
  intro near s t s' _ hI hout
  have hnear := hstep near s hI
  rw [hout] at hnear
  refine ⟨?_, hnear⟩
  have ht := stay_carrier plantMarking hrule resolved (target ∪ near) s
  rw [hout, IdentSet.carrier_union] at ht
  exact ht

variable (plantMarking) in
/-- The third loop finds its fixpoint. -/
theorem approach_carrier (hrule : rule.Resolves g controllable) (resolved target : StateSet)
    (s : σ) : ((rule.approach g plantMarking resolved target).outcome s).1.carrier =
      (g.approachStep controllable plantMarking target.carrier).lfp :=
  (approach_spec hrule (I := fun _ _ => True) (fun _ _ _ => trivial) trivial).1

/-- The second loop. The records at its end are those of a last level, which was
either done for the states that are returned, or leaves none. -/
theorem recur_spec (hrule : rule.Resolves g controllable) {resolved : StateSet}
    {I : σ → Prop} {K : StateSet → StateSet → σ → Prop}
    (hstep : ∀ states s, I s →
      I ((rule.approach g plantMarking resolved ((states ∩ g.marked) ∪ resolved)).outcome
        (rule.beginLevel s)).2 ∧
      K states ((rule.approach g plantMarking resolved ((states ∩ g.marked) ∪ resolved)).outcome
          (rule.beginLevel s)).1
        ((rule.approach g plantMarking resolved ((states ∩ g.marked) ∪ resolved)).outcome
          (rule.beginLevel s)).2)
    {s : σ} (h : I s) :
    ((rule.recur g plantMarking resolved).outcome s).1.carrier =
        (g.recurStep controllable plantMarking resolved.carrier).gfp ∧
      ∃ states s', ((rule.recur g plantMarking resolved).outcome s).2 = rule.endLevel s' ∧
        I s' ∧ K states ((rule.recur g plantMarking resolved).outcome s).1 s' ∧
        (states = ((rule.recur g plantMarking resolved).outcome s).1 ∨
          ((rule.recur g plantMarking resolved).outcome s).1.carrier = ∅) := by
  have hloop := descend_eq_gfp (I := I) (K := K)
    (fun states => do
      modify rule.beginLevel
      rule.approach g plantMarking resolved ((states ∩ g.marked) ∪ resolved))
    (g.recurStep controllable plantMarking resolved.carrier) g.states
    (fun _ => Automaton.recurStep_subset _ _) ?_ h
  · obtain ⟨hgfp, hI, states, hK, hlast⟩ := hloop
    simp only [recur, Recorded.outcome_bind, Recorded.outcome_modify, Recorded.outcome_pure]
    exact ⟨hgfp, states, _, rfl, hI, hK, hlast⟩
  · intro states s t s' _ hI hout
    simp only [Recorded.outcome_bind, Recorded.outcome_modify] at hout
    have ht := approach_carrier plantMarking hrule resolved
      ((states ∩ g.marked) ∪ resolved) (rule.beginLevel s)
    have hI' := hstep states s hI
    rw [hout] at ht hI'
    refine ⟨?_, hI'⟩
    rw [IdentSet.carrier_union, IdentSet.carrier_inter] at ht
    exact ht

variable (plantMarking) in
/-- The second loop finds its fixpoint. -/
theorem recur_carrier (hrule : rule.Resolves g controllable) (resolved : StateSet) (s : σ) :
    ((rule.recur g plantMarking resolved).outcome s).1.carrier =
      (g.recurStep controllable plantMarking resolved.carrier).gfp :=
  (recur_spec hrule (I := fun _ => True) (K := fun _ _ _ => True)
    (fun _ _ _ => ⟨trivial, trivial⟩) trivial).1

/-- The outermost loop. Here the records start from those of the rule, and what they
are in the end is what is handed over. -/
theorem enforceable_spec (hrule : rule.Resolves g controllable) {I : StateSet → σ → Prop}
    (hstep : ∀ resolved s, I resolved s →
      I (resolved ∪ ((rule.recur g plantMarking resolved).outcome s).1)
        ((rule.recur g plantMarking resolved).outcome s).2)
    (h : I ∅ rule.start) :
    (rule.enforceable g plantMarking).value.1.carrier = g.enforceable controllable plantMarking ∧
      I (rule.enforceable g plantMarking).value.1 (rule.enforceable g plantMarking).value.2 := by
  refine ascend_eq_lfp (fun _ => Automaton.resolveStep_subset _) ?_ h
  intro resolved s t s' _ hI hout
  have ht := recur_carrier plantMarking hrule resolved s
  have hI' := hstep resolved s hI
  rw [hout] at ht hI'
  exact ⟨ht, hI'⟩

/-- **The loops find the enforceable states**: what a rule records has no influence
on the states it finds. -/
theorem carrier_enforceable (hrule : rule.Resolves g controllable) :
    (rule.enforceable g plantMarking).value.1.carrier = g.enforceable controllable plantMarking :=
  (enforceable_spec hrule (I := fun _ _ => True) (fun _ _ _ => trivial) trivial).1

end Rule

end OmegaControl
