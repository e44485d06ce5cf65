import OmegaControl.Proofs.Liveness.Enforceable

/-!
# Two rules side by side

The loops decide when to stop by the sizes of sets only. So if two rules, be it on
two automata, find sets that go together, of one size each, their loops run in
lockstep: they take the same number of iterations, end with sets that go together,
and keep what every iteration keeps of the records of both.

Which sets go together is left open (`Tied`): equal ones, for two rules on one
automaton, or those that a renaming of the states carries into each other.

The lemmas follow the loops from the innermost to the outermost. Each takes what one
iteration keeps as a hypothesis, so that the loop inside it gives just this. It is
the first rule whose sets are known to be the fixpoints: of the second one nothing
is asked but that it goes along.
-/

namespace OmegaControl

/-- A relation between sets of states of two automata that is kept by all that the loops do
to sets. -/
structure Tied (g₁ g₂ : Automaton) (plantMarking₁ plantMarking₂ : StateSet)
    (Rel : StateSet → StateSet → Prop) : Prop where
  /-- what the loops look at to decide whether to go on -/
  size_eq : ∀ {s₁ s₂}, Rel s₁ s₂ → s₁.size = s₂.size
  empty : Rel ∅ ∅
  states : Rel g₁.states g₂.states
  union : ∀ {s₁ s₂ t₁ t₂}, Rel s₁ s₂ → Rel t₁ t₂ → Rel (s₁ ∪ t₁) (s₂ ∪ t₂)
  inter : ∀ {s₁ s₂ t₁ t₂}, Rel s₁ s₂ → Rel t₁ t₂ → Rel (s₁ ∩ t₁) (s₂ ∩ t₂)
  inter_marked : ∀ {s₁ s₂}, Rel s₁ s₂ → Rel (s₁ ∩ g₁.marked) (s₂ ∩ g₂.marked)
  sdiff_plantMarking : ∀ {s₁ s₂}, Rel s₁ s₂ → Rel (s₁ \ plantMarking₁) (s₂ \ plantMarking₂)

/-- The loops also ask whether a set is empty, which its size tells. -/
theorem IdentSet.isEmpty_eq_of_size_eq {s t : StateSet} (h : s.size = t.size) :
    s.isEmpty = t.isEmpty := by
  have hsize : ∀ u : StateSet, u.isEmpty = true ↔ u.size = 0 := fun u => by
    rw [isEmpty_iff, ← length_toList, List.length_eq_zero_iff, List.eq_nil_iff_forall_not_mem]
    exact forall_congr' fun x => not_congr mem_toList.symm
  rw [Bool.eq_iff_iff, hsize, hsize, h]

section

variable {σ τ : Type} {step₁ : StateSet → Recorded σ StateSet} {step₂ : StateSet → Recorded τ StateSet}
  {g₁ g₂ : Automaton} {plantMarking₁ plantMarking₂ : StateSet} {Rel : StateSet → StateSet → Prop}
  (htied : Tied g₁ g₂ plantMarking₁ plantMarking₂ Rel)
include htied

/-- Two growing sets that go together do so at the end. `full` is where a loop may
stop early, and is the same for both. -/
theorem ascend_lockstep {I : StateSet → σ → τ → Prop} {full : ℕ}
    (hstep : ∀ s₁ s₂ r₁ r₂, Rel s₁ s₂ → I s₁ r₁ r₂ →
      Rel ((step₁ s₁).outcome r₁).1 ((step₂ s₂).outcome r₂).1 ∧
        I (s₁ ∪ ((step₁ s₁).outcome r₁).1) ((step₁ s₁).outcome r₁).2 ((step₂ s₂).outcome r₂).2)
    {s₁ s₂ : StateSet} {r₁ : σ} {r₂ : τ} (hs : Rel s₁ s₂) (h : I s₁ r₁ r₂) :
    Rel ((ascend full step₁ s₁).outcome r₁).1 ((ascend full step₂ s₂).outcome r₂).1 ∧
      I ((ascend full step₁ s₁).outcome r₁).1 ((ascend full step₁ s₁).outcome r₁).2
        ((ascend full step₂ s₂).outcome r₂).2 := by
  fun_induction ascend full step₁ s₁ generalizing s₂ r₁ r₂ with
  | case1 s₁ ih =>
    rw [ascend.eq_1 full step₂, Recorded.outcome_bind, Recorded.outcome_bind]
    obtain ⟨ht, hI⟩ := hstep s₁ s₂ r₁ r₂ hs h
    have hunion := htied.union hs ht
    rw [← htied.size_eq hs, ← htied.size_eq hunion]
    split
    next hgrow => exact ih _ hgrow hunion hI
    next => exact ⟨hunion, hI⟩

variable (step₁ step₂) in
/-- Two shrinking sets that go together do so at the end. What the first step computes is a
monotone function, and in the last step it is computed from itself, unless it is empty. -/
theorem descend_lockstep (F : Set StateId →o Set StateId) {I : σ → τ → Prop}
    {K : StateSet → StateSet → σ → τ → Prop} (hF : ∀ s, F s ⊆ g₁.states.carrier)
    (hstep : ∀ s₁ s₂ r₁ r₂, Rel s₁ s₂ → I r₁ r₂ → F s₁.carrier ⊆ s₁.carrier →
      ((step₁ s₁).outcome r₁).1.carrier = F s₁.carrier ∧
        Rel ((step₁ s₁).outcome r₁).1 ((step₂ s₂).outcome r₂).1 ∧
        I ((step₁ s₁).outcome r₁).2 ((step₂ s₂).outcome r₂).2 ∧
        K s₁ ((step₁ s₁).outcome r₁).1 ((step₁ s₁).outcome r₁).2 ((step₂ s₂).outcome r₂).2)
    {r₁ : σ} {r₂ : τ} (h : I r₁ r₂) :
    let out₁ := (descend step₁ g₁.states).outcome r₁
    let out₂ := (descend step₂ g₂.states).outcome r₂
    Rel out₁.1 out₂.1 ∧ I out₁.2 out₂.2 ∧
      ∃ s, K s out₁.1 out₁.2 out₂.2 ∧ (s = out₁.1 ∨ out₁.1.carrier = ∅) := by
  -- what the first loop starts from is within its image, and this is so in each
  -- iteration
  have hloop : ∀ {s₁ s₂ : StateSet} {r₁ : σ} {r₂ : τ}, Rel s₁ s₂ → I r₁ r₂ →
      F s₁.carrier ⊆ s₁.carrier →
      Rel ((descend step₁ s₁).outcome r₁).1 ((descend step₂ s₂).outcome r₂).1 ∧
        I ((descend step₁ s₁).outcome r₁).2 ((descend step₂ s₂).outcome r₂).2 ∧
        ∃ s, K s ((descend step₁ s₁).outcome r₁).1 ((descend step₁ s₁).outcome r₁).2
            ((descend step₂ s₂).outcome r₂).2 ∧
          (s = ((descend step₁ s₁).outcome r₁).1 ∨
            ((descend step₁ s₁).outcome r₁).1.carrier = ∅) := by
    intro s₁ s₂ r₁ r₂ hs h hle
    fun_induction descend step₁ s₁ generalizing s₂ r₁ r₂ with
    | case1 s₁ ih =>
      rw [descend.eq_1 step₂, Recorded.outcome_bind, Recorded.outcome_bind]
      obtain ⟨ht, hrel, hI, hK⟩ := hstep s₁ s₂ r₁ r₂ hs h hle
      generalize (step₁ s₁).outcome r₁ = out₁ at ht hrel hI hK ⊢
      generalize (step₂ s₂).outcome r₂ = out₂ at hrel hI hK ⊢
      have hts : out₁.1.carrier ⊆ s₁.carrier := ht ▸ hle
      have hinter : s₁ ∩ out₁.1 = out₁.1 := IdentSet.carrier_injective (by
        rw [IdentSet.carrier_inter, Set.inter_eq_right.mpr hts])
      have hboth := htied.inter hs hrel
      have hle' : F (s₁ ∩ out₁.1).carrier ⊆ (s₁ ∩ out₁.1).carrier := by
        rw [hinter]
        exact (F.monotone hts).trans ht.ge
      -- the second loop decides as the first one does
      rw [← htied.size_eq hs, ← htied.size_eq hboth,
        ← IdentSet.isEmpty_eq_of_size_eq (htied.size_eq hboth)]
      split
      next hshrink => exact ih _ hshrink hboth hI hle'
      next hstop =>
        rw [hinter] at hboth hstop ⊢
        refine ⟨hboth, hI, s₁, hK, ?_⟩
        -- a loop stops because it has found all of its set, or because nothing is
        -- left
        rcases Nat.lt_or_ge out₁.1.size s₁.size with hlt | hge
        · refine .inr (Set.eq_empty_of_forall_notMem fun x => ?_)
          exact IdentSet.isEmpty_iff.mp (Bool.of_not_eq_false fun he => hstop ⟨hlt, he⟩) x
        · exact .inl (IdentSet.ext fun x =>
            ⟨fun hx => IdentSet.subset_of_size_le (fun _ hy => hts hy) hge hx, fun hx => hts hx⟩)
  exact hloop htied.states h (hF _)

end

namespace Rule

variable {σ τ : Type} {rule₁ : Rule σ} {rule₂ : Rule τ} {g₁ g₂ : Automaton} {controllable : EventSet}
  {plantMarking₁ plantMarking₂ : StateSet} {Rel : StateSet → StateSet → Prop}
  (htied : Tied g₁ g₂ plantMarking₁ plantMarking₂ Rel)
include htied

/-- The innermost loops of two rules. They gather the states that are driven into
the target, or to states gathered before. -/
theorem attract_lockstep {target₁ target₂ domain₁ domain₂ : StateSet}
    {I : StateSet → σ → τ → Prop}
    (hstep : ∀ near₁ near₂ s₁ s₂, Rel near₁ near₂ → I near₁ s₁ s₂ →
      let out₁ := rule₁.resolve (target₁ ∪ (near₁ \ plantMarking₁)) (domain₁ \ plantMarking₁) s₁
      let out₂ := rule₂.resolve (target₂ ∪ (near₂ \ plantMarking₂)) (domain₂ \ plantMarking₂) s₂
      Rel out₁.1 out₂.1 ∧ I (near₁ ∪ out₁.1) out₁.2 out₂.2)
    {s₁ : σ} {s₂ : τ} (h : I ∅ s₁ s₂) :
    let out₁ := (rule₁.attract g₁ plantMarking₁ target₁ domain₁).outcome s₁
    let out₂ := (rule₂.attract g₂ plantMarking₂ target₂ domain₂).outcome s₂
    Rel out₁.1 out₂.1 ∧ I out₁.1 out₁.2 out₂.2 := by
  have hsize : g₂.size = g₁.size := (htied.size_eq htied.states).symm
  simp only [attract, hsize]
  exact ascend_lockstep htied hstep htied.empty h

variable (hrule : rule₁.Resolves g₁ controllable)
include hrule

variable (rule₂) in
/-- The fourth loops of two rules. They shrink the domain that may not be left. `K`
is what an iteration gives, and holds at the end of the one that has found its own
domain. -/
theorem stay_lockstep (resolved₁ resolved₂ target₁ target₂ : StateSet) (s₁ : σ) (s₂ : τ)
    {I : σ → τ → Prop} {K : StateSet → StateSet → σ → τ → Prop}
    (hstep : ∀ domain₁ domain₂ s₁ s₂, Rel domain₁ domain₂ → I s₁ s₂ →
      let out₁ := (rule₁.attract g₁ plantMarking₁ target₁ domain₁).outcome (rule₁.beginRound s₁)
      let out₂ := (rule₂.attract g₂ plantMarking₂ target₂ domain₂).outcome (rule₂.beginRound s₂)
      Rel out₁.1 out₂.1 ∧ I out₁.2 out₂.2 ∧ (out₁.1.carrier ⊆ domain₁.carrier →
        K domain₁ out₁.1 out₁.2 out₂.2))
    (h : I s₁ s₂) :
    let out₁ := (rule₁.stay g₁ plantMarking₁ resolved₁ target₁).outcome s₁
    let out₂ := (rule₂.stay g₂ plantMarking₂ resolved₂ target₂).outcome s₂
    Rel out₁.1 out₂.1 ∧ ∃ domain s₁' s₂', out₁.2 = rule₁.endRound s₁' ∧
      out₂.2 = rule₂.endRound s₂' ∧ I s₁' s₂' ∧ K domain out₁.1 s₁' s₂' ∧
      (domain = out₁.1 ∨ out₁.1.carrier = ∅) := by
  have hloop := descend_lockstep
    (fun domain => do
      Watched.checkpoint .fixpoint resolved₁.size g₁.size
      modify rule₁.beginRound
      rule₁.attract g₁ plantMarking₁ target₁ domain)
    (fun domain => do
      Watched.checkpoint .fixpoint resolved₂.size g₂.size
      modify rule₂.beginRound
      rule₂.attract g₂ plantMarking₂ target₂ domain)
    htied (I := I) (K := K) (g₁.stayStep controllable plantMarking₁ target₁.carrier)
    (fun _ => Automaton.stayStep_subset _ _) ?_ h
  · obtain ⟨hrel, hI, domain, hK, hlast⟩ := hloop
    simp only [stay, Recorded.outcome_bind, Recorded.outcome_modify, Recorded.outcome_pure]
    exact ⟨hrel, domain, _, _, rfl, rfl, hI, hK, hlast⟩
  · intro domain₁ domain₂ s₁ s₂ hdomain hI hle
    simp only [Recorded.outcome_bind, Recorded.outcome_lift, Recorded.outcome_modify]
    have hcarrier : ((rule₁.attract g₁ plantMarking₁ target₁ domain₁).outcome
        (rule₁.beginRound s₁)).1.carrier = _ := attract_carrier hrule target₁ domain₁ _
    obtain ⟨hrel, hI, hK⟩ := hstep domain₁ domain₂ s₁ s₂ hdomain hI
    exact ⟨hcarrier, hrel, hI, hK (hcarrier.trans_subset hle)⟩

omit hrule in
/-- The third loops of two rules. They gather states from which the target is
approached. -/
theorem approach_lockstep {resolved₁ resolved₂ target₁ target₂ : StateSet}
    {I : StateSet → σ → τ → Prop}
    (hstep : ∀ near₁ near₂ s₁ s₂, Rel near₁ near₂ → I near₁ s₁ s₂ →
      let out₁ := (rule₁.stay g₁ plantMarking₁ resolved₁ (target₁ ∪ near₁)).outcome s₁
      let out₂ := (rule₂.stay g₂ plantMarking₂ resolved₂ (target₂ ∪ near₂)).outcome s₂
      Rel out₁.1 out₂.1 ∧ I (near₁ ∪ out₁.1) out₁.2 out₂.2)
    {s₁ : σ} {s₂ : τ} (h : I ∅ s₁ s₂) :
    let out₁ := (rule₁.approach g₁ plantMarking₁ resolved₁ target₁).outcome s₁
    let out₂ := (rule₂.approach g₂ plantMarking₂ resolved₂ target₂).outcome s₂
    Rel out₁.1 out₂.1 ∧ I out₁.1 out₁.2 out₂.2 := by
  have hsize : g₂.size = g₁.size := (htied.size_eq htied.states).symm
  simp only [approach, hsize]
  exact ascend_lockstep htied hstep htied.empty h

variable (rule₂) in
/-- The second loops of two rules. They shrink the set of states that are to be met
again and again. -/
theorem recur_lockstep (resolved₁ resolved₂ : StateSet) (s₁ : σ) (s₂ : τ) {I : σ → τ → Prop}
    {K : StateSet → StateSet → σ → τ → Prop}
    (hstep : ∀ states₁ states₂ s₁ s₂, Rel states₁ states₂ → I s₁ s₂ →
      let out₁ := (rule₁.approach g₁ plantMarking₁ resolved₁
        ((states₁ ∩ g₁.marked) ∪ resolved₁)).outcome (rule₁.beginLevel s₁)
      let out₂ := (rule₂.approach g₂ plantMarking₂ resolved₂
        ((states₂ ∩ g₂.marked) ∪ resolved₂)).outcome (rule₂.beginLevel s₂)
      Rel out₁.1 out₂.1 ∧ I out₁.2 out₂.2 ∧ K states₁ out₁.1 out₁.2 out₂.2)
    (h : I s₁ s₂) :
    let out₁ := (rule₁.recur g₁ plantMarking₁ resolved₁).outcome s₁
    let out₂ := (rule₂.recur g₂ plantMarking₂ resolved₂).outcome s₂
    Rel out₁.1 out₂.1 ∧ ∃ states s₁' s₂', out₁.2 = rule₁.endLevel s₁' ∧
      out₂.2 = rule₂.endLevel s₂' ∧ I s₁' s₂' ∧ K states out₁.1 s₁' s₂' ∧
      (states = out₁.1 ∨ out₁.1.carrier = ∅) := by
  have hloop := descend_lockstep
    (fun states => do
      modify rule₁.beginLevel
      rule₁.approach g₁ plantMarking₁ resolved₁ ((states ∩ g₁.marked) ∪ resolved₁))
    (fun states => do
      modify rule₂.beginLevel
      rule₂.approach g₂ plantMarking₂ resolved₂ ((states ∩ g₂.marked) ∪ resolved₂))
    htied (I := I) (K := K) (g₁.recurStep controllable plantMarking₁ resolved₁.carrier)
    (fun _ => Automaton.recurStep_subset _ _) ?_ h
  · obtain ⟨hrel, hI, states, hK, hlast⟩ := hloop
    simp only [recur, Recorded.outcome_bind, Recorded.outcome_modify, Recorded.outcome_pure]
    exact ⟨hrel, states, _, _, rfl, rfl, hI, hK, hlast⟩
  · intro states₁ states₂ s₁ s₂ hstates hI hle
    simp only [Recorded.outcome_bind, Recorded.outcome_modify]
    have hcarrier := approach_carrier plantMarking₁ hrule resolved₁
      ((states₁ ∩ g₁.marked) ∪ resolved₁) (rule₁.beginLevel s₁)
    rw [IdentSet.carrier_union, IdentSet.carrier_inter] at hcarrier
    exact ⟨hcarrier, hstep states₁ states₂ s₁ s₂ hstates hI⟩

omit hrule in
/-- **The loops of two rules** run in lockstep. What is found by one rule goes
together with what is found by the other, and so do the records. -/
theorem enforceable_lockstep {I : StateSet → σ → τ → Prop}
    (hstep : ∀ resolved₁ resolved₂ s₁ s₂, Rel resolved₁ resolved₂ → I resolved₁ s₁ s₂ →
      let out₁ := (rule₁.recur g₁ plantMarking₁ resolved₁).outcome s₁
      let out₂ := (rule₂.recur g₂ plantMarking₂ resolved₂).outcome s₂
      Rel out₁.1 out₂.1 ∧ I (resolved₁ ∪ out₁.1) out₁.2 out₂.2)
    (h : I ∅ rule₁.start rule₂.start) :
    let out₁ := (rule₁.enforceable g₁ plantMarking₁).value
    let out₂ := (rule₂.enforceable g₂ plantMarking₂).value
    Rel out₁.1 out₂.1 ∧ I out₁.1 out₁.2 out₂.2 := by
  have hsize : g₂.size = g₁.size := (htied.size_eq htied.states).symm
  simp only [enforceable, hsize]
  exact ascend_lockstep htied hstep htied.empty h

end Rule

end OmegaControl
