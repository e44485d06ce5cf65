import OmegaControl.Proofs.Liveness.Lockstep

/-!
# Rules that match

Nothing need be known about what two rules compute if they do the same in every
single step: from sets that go together and records that go together they find sets
and records that go together (`Rule.Matches`). Then so do the loops around them
(`Rule.Matches.enforceable`).

This is simpler than running two rules in lockstep where one is known to compute
fixpoints, and it is used for one rule on two automata that differ by a renaming
only.
-/

namespace OmegaControl

variable {σ τ : Type} {g₁ g₂ : Automaton} {plantMarking₁ plantMarking₂ : StateSet}
  {Rel : StateSet → StateSet → Prop}

/-- Two shrinking sets that go together do so at the end. They have one size each
time, so both loops stop in the same iteration. -/
theorem descend_tied (htied : Tied g₁ g₂ plantMarking₁ plantMarking₂ Rel)
    (step₁ : StateSet → Recorded σ StateSet) (step₂ : StateSet → Recorded τ StateSet)
    {I : σ → τ → Prop}
    (hstep : ∀ s₁ s₂ r₁ r₂, Rel s₁ s₂ → I r₁ r₂ →
      Rel ((step₁ s₁).outcome r₁).1 ((step₂ s₂).outcome r₂).1 ∧
        I ((step₁ s₁).outcome r₁).2 ((step₂ s₂).outcome r₂).2)
    {s₁ s₂ : StateSet} {r₁ : σ} {r₂ : τ} (hs : Rel s₁ s₂) (h : I r₁ r₂) :
    Rel ((descend step₁ s₁).outcome r₁).1 ((descend step₂ s₂).outcome r₂).1 ∧
      I ((descend step₁ s₁).outcome r₁).2 ((descend step₂ s₂).outcome r₂).2 := by
  fun_induction descend step₁ s₁ generalizing s₂ r₁ r₂ with
  | case1 s₁ ih =>
    rw [descend.eq_1 step₂, Recorded.outcome_bind, Recorded.outcome_bind]
    obtain ⟨ht, hI⟩ := hstep s₁ s₂ r₁ r₂ hs h
    have hinter := htied.inter hs ht
    rw [← htied.size_eq hs, ← htied.size_eq hinter,
      ← IdentSet.isEmpty_eq_of_size_eq (htied.size_eq hinter)]
    split
    next hshrink => exact ih _ hshrink hinter hI
    next => exact ⟨hinter, hI⟩

/-- In every step the two rules do the same: they find related sets of states and
keep related records. The relation on sets has to be kept by what the loops do with
sets, which is asked for separately. -/
structure Rule.Matches (rule₁ : Rule σ) (rule₂ : Rule τ) (Rel : StateSet → StateSet → Prop)
    (I : σ → τ → Prop) : Prop where
  start : I rule₁.start rule₂.start
  resolve : ∀ {target₁ target₂ domain₁ domain₂ s₁ s₂}, Rel target₁ target₂ → Rel domain₁ domain₂ →
    I s₁ s₂ → Rel (rule₁.resolve target₁ domain₁ s₁).1 (rule₂.resolve target₂ domain₂ s₂).1 ∧
      I (rule₁.resolve target₁ domain₁ s₁).2 (rule₂.resolve target₂ domain₂ s₂).2
  beginRound : ∀ {s₁ s₂}, I s₁ s₂ → I (rule₁.beginRound s₁) (rule₂.beginRound s₂)
  endRound : ∀ {s₁ s₂}, I s₁ s₂ → I (rule₁.endRound s₁) (rule₂.endRound s₂)
  beginLevel : ∀ {s₁ s₂}, I s₁ s₂ → I (rule₁.beginLevel s₁) (rule₂.beginLevel s₂)
  endLevel : ∀ {s₁ s₂}, I s₁ s₂ → I (rule₁.endLevel s₁) (rule₂.endLevel s₂)

namespace Rule.Matches

variable {rule₁ : Rule σ} {rule₂ : Rule τ} {I : σ → τ → Prop} {s₁ : σ} {s₂ : τ}
  {resolved₁ resolved₂ target₁ target₂ domain₁ domain₂ : StateSet}
  (hrules : rule₁.Matches rule₂ Rel I) (htied : Tied g₁ g₂ plantMarking₁ plantMarking₂ Rel)
include hrules htied

/-- The innermost loop, with whatever sets it is started. -/
theorem attract (htarget : Rel target₁ target₂) (hdomain : Rel domain₁ domain₂) (h : I s₁ s₂) :
    let out₁ := (rule₁.attract g₁ plantMarking₁ target₁ domain₁).outcome s₁
    let out₂ := (rule₂.attract g₂ plantMarking₂ target₂ domain₂).outcome s₂
    Rel out₁.1 out₂.1 ∧ I out₁.2 out₂.2 :=
  attract_lockstep htied (I := fun _ => I) (fun _ _ _ _ hnear hI =>
    hrules.resolve (htied.union htarget (htied.sdiff_plantMarking hnear))
      (htied.sdiff_plantMarking hdomain) hI) h

/-- The fourth loop, which begins and ends rounds. It goes down from all states, so
both sides start with what corresponds and narrow it in step. -/
theorem stay (htarget : Rel target₁ target₂) (h : I s₁ s₂) :
    let out₁ := (rule₁.stay g₁ plantMarking₁ resolved₁ target₁).outcome s₁
    let out₂ := (rule₂.stay g₂ plantMarking₂ resolved₂ target₂).outcome s₂
    Rel out₁.1 out₂.1 ∧ I out₁.2 out₂.2 := by
  have hloop := descend_tied htied (I := I)
    (fun domain => do
      Watched.checkpoint .fixpoint resolved₁.size g₁.size
      modify rule₁.beginRound
      rule₁.attract g₁ plantMarking₁ target₁ domain)
    (fun domain => do
      Watched.checkpoint .fixpoint resolved₂.size g₂.size
      modify rule₂.beginRound
      rule₂.attract g₂ plantMarking₂ target₂ domain) ?_ htied.states h
  · simp only [Rule.stay, Recorded.outcome_bind, Recorded.outcome_modify, Recorded.outcome_pure]
    exact ⟨hloop.1, hrules.endRound hloop.2⟩
  · intro domain₁ domain₂ r₁ r₂ hdomain hI
    simp only [Recorded.outcome_bind, Recorded.outcome_lift, Recorded.outcome_modify]
    exact hrules.attract htied htarget hdomain (hrules.beginRound hI)

/-- The third loop. -/
theorem approach (htarget : Rel target₁ target₂) (h : I s₁ s₂) :
    let out₁ := (rule₁.approach g₁ plantMarking₁ resolved₁ target₁).outcome s₁
    let out₂ := (rule₂.approach g₂ plantMarking₂ resolved₂ target₂).outcome s₂
    Rel out₁.1 out₂.1 ∧ I out₁.2 out₂.2 :=
  approach_lockstep htied (I := fun _ => I)
    (fun _ _ _ _ hnear hI => hrules.stay htied (htied.union htarget hnear) hI) h

/-- The second loop, which begins and ends levels. It goes down from all states as
the fourth one does, and a level that is begun is related to the one the other side
begins. -/
theorem recur (hresolved : Rel resolved₁ resolved₂) (h : I s₁ s₂) :
    let out₁ := (rule₁.recur g₁ plantMarking₁ resolved₁).outcome s₁
    let out₂ := (rule₂.recur g₂ plantMarking₂ resolved₂).outcome s₂
    Rel out₁.1 out₂.1 ∧ I out₁.2 out₂.2 := by
  have hloop := descend_tied htied (I := I)
    (fun states => do
      modify rule₁.beginLevel
      rule₁.approach g₁ plantMarking₁ resolved₁ ((states ∩ g₁.marked) ∪ resolved₁))
    (fun states => do
      modify rule₂.beginLevel
      rule₂.approach g₂ plantMarking₂ resolved₂ ((states ∩ g₂.marked) ∪ resolved₂)) ?_
    htied.states h
  · simp only [Rule.recur, Recorded.outcome_bind, Recorded.outcome_modify, Recorded.outcome_pure]
    exact ⟨hloop.1, hrules.endLevel hloop.2⟩
  · intro states₁ states₂ r₁ r₂ hstates hI
    simp only [Recorded.outcome_bind, Recorded.outcome_modify]
    exact hrules.approach htied (htied.union (htied.inter_marked hstates) hresolved)
      (hrules.beginLevel hI)

/-- **The loops of rules that match** find sets and records that go together. -/
theorem enforceable :
    let out₁ := (rule₁.enforceable g₁ plantMarking₁).value
    let out₂ := (rule₂.enforceable g₂ plantMarking₂).value
    Rel out₁.1 out₂.1 ∧ I out₁.2 out₂.2 :=
  enforceable_lockstep htied (I := fun _ => I)
    (fun _ _ _ _ hresolved hI => hrules.recur htied hresolved hI) hrules.start

end Rule.Matches

end OmegaControl
