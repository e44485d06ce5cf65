import OmegaControl.Liveness.InPlace
import OmegaControl.Plant
import OmegaControl.Proofs.Synthesis.Reports
import OmegaControl.Proofs.WellFormed

/-!
# Cancelled computations

An observer decides after each report whether a computation goes on, from all that
it has been told so far. If it stops after `k` reports (`Observer.StopsAfter`), it
is told the first `k + 1` reports of the computation that nobody cancels, and then
the computation is cancelled; if there are not so many, the computation goes through
to its end as if nobody had watched (`Observer.watchFrom_of_stopsAfter`).

A computation that is watched is a tree of reports, and an observer can do nothing
to it but cut it off. So this is by induction on the tree, and holds of whatever is
computed (`cutsOff_of_watch`).

A restriction in place works on an automaton that is lost if it is taken apart too
early. It finds the states before it touches the automaton, and reports nothing
after that. So it does what is done when the same is computed without touching the
automaton (`Observer.perform_restrictBy`), and a call that is cancelled has done
nothing (`cancellation_atomic`).
-/

namespace OmegaControl

variable {σ τ α β : Type}

namespace Observer

/-- Told these reports, one after another, the observer lets the computation go on. -/
def Accepts (o : Observer σ) (s : σ) (cs : List Checkpoint) : Prop := (cs.foldlM o.see s).isSome = true

/-- Told these reports, the observer accepts the first `k` and rejects the next one,
if there is one. What it would answer after that does not matter, since it is not
asked. -/
structure StopsAfter (o : Observer σ) (s : σ) (k : ℕ) (cs : List Checkpoint) : Prop where
  accepts : o.Accepts s (cs.take k)
  /-- of a run with fewer reports nothing is asked -/
  rejects : k < cs.length → ¬o.Accepts s (cs.take (k + 1))

/-- The observer that lets `n` reports pass. It shows that an observer can stop
anywhere. -/
def lettingPass (n : ℕ) : Observer ℕ := ⟨n, fun left _ => if left = 0 then none else some (left - 1)⟩

/-- Reports are told from the first one on, and each time the observer may change
its mind. -/
theorem accepts_cons {o : Observer σ} {s : σ} {c : Checkpoint} {cs : List Checkpoint} :
    o.Accepts s (c :: cs) ↔ ∃ s', o.see s c = some s' ∧ o.Accepts s' cs := by
  rw [Accepts, List.foldlM_cons]
  cases o.see s c with
  | none => simp
  | some s' => simp [Accepts]

theorem accepts_lettingPass_iff {m n : ℕ} {cs : List Checkpoint} :
    (lettingPass m).Accepts n cs ↔ cs.length ≤ n := by
  induction cs generalizing n with
  | nil => simp [Accepts]
  | cons c cs ih =>
    rw [accepts_cons]
    cases n with
    | zero => simp [lettingPass]
    | succ n => simp [lettingPass, ← ih]

/-- Whatever it is told, it stops after `n` reports. -/
theorem stopsAfter_lettingPass (n : ℕ) (cs : List Checkpoint) : (lettingPass n).StopsAfter n n cs where
  accepts := accepts_lettingPass_iff.mpr (List.length_take_le n cs)
  rejects hlt := by
    rw [accepts_lettingPass_iff, List.length_take_of_le hlt]
    exact Nat.not_succ_le_self n

/-- An observer that stops after some reports is told one more, the one that it
stops at. -/
theorem watchFrom_of_stopsAfter {o : Observer σ} {s : σ} {k : ℕ} {w : Watched α}
    (h : o.StopsAfter s k w.checkpoints) : o.watchFrom s w =
      if k < w.checkpoints.length then (w.checkpoints.take (k + 1), .error .cancelled)
      else (w.checkpoints, .ok w.value) := by
  -- along the reports: the observer is asked at each of them, and `k` counts those
  -- it still accepts
  induction w generalizing s k with
  | done a => rfl
  | report c rest ih =>
    rw [Watched.checkpoints] at h ⊢
    cases k with
    | zero =>
      have hnone : o.see s c = none := by
        rw [← Option.not_isSome_iff_eq_none]
        intro hsome
        obtain ⟨s', hs'⟩ := Option.isSome_iff_exists.mp hsome
        exact h.rejects (Nat.zero_lt_succ _) (accepts_cons.mpr ⟨s', hs', rfl⟩)
      rw [watchFrom, hnone, List.length_cons, if_pos (Nat.zero_lt_succ _)]
      rfl
    | succ k =>
      obtain ⟨s', hs', haccepts⟩ := accepts_cons.mp h.accepts
      have hrest := ih () (s := s') (k := k) ⟨haccepts, fun hlt hnext =>
        h.rejects (Nat.succ_lt_succ hlt) (accepts_cons.mpr ⟨s', hs', hnext⟩)⟩
      rw [watchFrom, hs']
      dsimp only
      rw [hrest, List.length_cons]
      simp only [Nat.succ_lt_succ_iff]
      split <;> rfl

end Observer

/-! ## Cut off
 -/

/-- `run` tells what an observer is told and how the computation ends. It can be cut off anywhere: an
observer that stops after `k` reports is told the first `k + 1` reports of the run that nobody cancels,
and the end is `cancelled`; if there are not so many reports, nothing is different. -/
def CutsOff (run : ∀ {σ : Type}, Observer σ → List Checkpoint × β) (cancelled : β) : Prop :=
  ∀ (σ : Type) (o : Observer σ) (k : ℕ), o.StopsAfter o.start k (run Observer.patient).1 →
    (k < (run Observer.patient).1.length → (run o).1.length = k + 1 ∧
      (run o).1 = (run Observer.patient).1.take (k + 1) ∧ (run o).2 = cancelled) ∧
    ((run Observer.patient).1.length ≤ k → run o = run Observer.patient)

/-- **A watched computation** can be cut off anywhere, whatever is made of its end.
The result is an answer or an error of the call; of a cancelled one it is always the
same. -/
theorem cutsOff_of_watch {run : ∀ {σ : Type}, Observer σ → List Checkpoint × β} (w : Watched α)
    (f : Except Cancelled α → β)
    (hrun : ∀ (σ : Type) (o : Observer σ), run o = ((o.watch w).1, f (o.watch w).2)) :
    CutsOff run (f (.error .cancelled)) := by
  intro σ o k h
  simp only [hrun] at h ⊢
  rw [Observer.watch_eq Observer.neverCancels_patient] at h ⊢
  rw [Observer.watch, Observer.watchFrom_of_stopsAfter h]
  refine ⟨fun hlt => ?_, fun hle => ?_⟩
  · rw [if_pos hlt]
    exact ⟨List.length_take_of_le hlt, rfl, rfl⟩
  · rw [if_neg (Nat.not_lt.mpr hle)]

theorem cutsOff_watch (w : Watched α) : CutsOff (fun o => o.watch w) (.error .cancelled) :=
  cutsOff_of_watch w id fun _ _ => rfl

/-- A call that can fail for other reasons as well is cut off before it has failed. -/
theorem cutsOff_watchChecked (w : Checked α) :
    CutsOff (fun o => o.watchChecked w) (.error .cancelled) := by
  refine cutsOff_of_watch w.run (fun | .ok result => result | .error .cancelled => .error .cancelled) ?_
  intro σ o
  rw [Observer.watchChecked]
  rcases o.watch w.run with ⟨cs, outcome | outcome⟩ <;> rfl

/-! ## In place
 -/

/-- What is left of a call on `g` when its answer and what has become of the automaton were computed
without touching it: nothing has become of it, if there is no answer. -/
def putInPlace (g : Automaton) : Except Cancelled (Automaton × α) → Except Cancelled α × Automaton
  | .ok (rest, a) => (.ok a, rest)
  | .error e => (.error e, g)

namespace Procedure

variable (w : Workplace σ)

theorem run_get_bind (f : Workplace σ → Procedure σ α) :
    (get >>= f : Procedure σ α).run.run w = (f w).run.run w := rfl

theorem run_set_bind (w' : Workplace σ) (f : PUnit → Procedure σ α) :
    (set w' >>= f : Procedure σ α).run.run w = (f ⟨⟩).run.run w' := rfl

theorem run_modify_bind (u : Workplace σ → Workplace σ) (f : PUnit → Procedure σ α) :
    (modify u >>= f : Procedure σ α).run.run w = (f ⟨⟩).run.run (u w) := rfl

end Procedure

namespace Observer

/-- Following a computation leaves the automaton alone, and adds what was told to
what had been told before, the last report first. -/
theorem run_follow (o : Observer σ) (w : Watched α) (g : Automaton) (s : σ) (cs : List Checkpoint) :
    ∃ s', (o.follow w).run.run ⟨g, s, cs⟩ =
      ((o.watchFrom s w).2, ⟨g, s', (o.watchFrom s w).1.reverse ++ cs⟩) := by
  induction w generalizing s cs with
  | done a => exact ⟨s, rfl⟩
  | report c rest ih =>
    rw [follow, Procedure.run_get_bind, Procedure.run_set_bind, watchFrom]
    dsimp only
    cases o.see s c with
    | none => exact ⟨s, rfl⟩
    | some s' =>
      obtain ⟨s'', hrest⟩ := ih () s' (c :: cs)
      refine ⟨s'', ?_⟩
      dsimp only
      rw [Procedure.run_modify_bind, hrest, List.reverse_cons, List.append_assoc]
      rfl

/-- Whatever is made of a value, an observer is told the same. -/
theorem watchFrom_map (o : Observer σ) (s : σ) (w : Watched α) (f : α → β) :
    o.watchFrom s (w >>= fun a => pure (f a)) = ((o.watchFrom s w).1, f <$> (o.watchFrom s w).2) := by
  induction w generalizing s with
  | done a => rfl
  | report c rest ih =>
    rw [Watched.report_bind, watchFrom, watchFrom]
    cases o.see s c with
    | none => rfl
    | some s' =>
      dsimp only
      rw [ih]

theorem watch_map (o : Observer σ) (w : Watched α) (f : α → β) :
    o.watch (w >>= fun a => pure (f a)) = ((o.watch w).1, f <$> (o.watch w).2) :=
  o.watchFrom_map ..

/-- **A restriction in place** does what is done when the same is computed without
touching the automaton, and if it is cancelled it leaves the automaton as it was.
The procedure is run step by step: it follows the search for the states, and only
then is the automaton replaced. -/
theorem perform_restrictBy (o : Observer σ) (rule : Automaton → Rule τ) (plantMarking : StateSet)
    (answer : Automaton → StateSet × τ → α) (g : Automaton) :
    let w : Watched (Automaton × α) := do
      let found ← (rule g).enforceable g plantMarking
      pure (g.restrictStates found.1, answer (g.restrictStates found.1) found)
    o.perform (o.restrictBy rule plantMarking answer) g =
      ((o.watch w).1, putInPlace g (o.watch w).2) := by
  obtain ⟨s, hrun⟩ := o.run_follow ((rule g).enforceable g plantMarking) g o.start []
  rw [List.append_nil] at hrun
  dsimp only
  rw [perform, restrictBy, Procedure.run_get_bind, ExceptT.run_bind, StateT.run_bind, hrun, watch_map,
    watch]
  rcases o.watchFrom o.start ((rule g).enforceable g plantMarking) with ⟨cs, e | found⟩
  all_goals
    change (cs.reverse.reverse, _) = _
    rw [List.reverse_reverse]
    rfl

/-! The three procedures do what the restrictions do that leave the automaton alone. -/

variable (o : Observer σ) (controllable : EventSet) (plantMarking : StateSet) (g : Automaton)

theorem perform_restrictInPlace : o.perform (o.restrictInPlace controllable plantMarking) g =
    let seen := o.watch (restrictToEnforceable g controllable plantMarking)
    (seen.1, putInPlace g ((·, ()) <$> seen.2)) := by
  have hmap : restrictToEnforceable g controllable plantMarking =
      (Rule.restrict g controllable).enforceable g plantMarking >>= fun found =>
        pure (g.restrictStates found.1) := rfl
  rw [restrictInPlace, perform_restrictBy, hmap, watch_map, watch_map]
  cases (o.watch _).2 <;> rfl

theorem perform_restrictWithFeedbackInPlace :
    o.perform (o.restrictWithFeedbackInPlace controllable plantMarking) g =
      let seen := o.watch (restrictWithFeedback g controllable plantMarking)
      (seen.1, putInPlace g seen.2) :=
  o.perform_restrictBy ..

theorem perform_restrictObservedInPlace (classes : ObserverMap) :
    o.perform (o.restrictObservedInPlace controllable plantMarking classes) g =
      let seen := o.watch (restrictObserved g controllable plantMarking classes)
      (seen.1, putInPlace g seen.2) :=
  o.perform_restrictBy ..

end Observer

/-! ## Cancellation
 -/

section InPlace

variable (controllable : EventSet) (plantMarking : StateSet) (g : Automaton)

/-- The restrictions in place can be cut off anywhere, and then the automaton is what it was. -/
theorem cutsOff_restrictInPlace :
    CutsOff (fun o => o.perform (o.restrictInPlace controllable plantMarking) g)
      (.error .cancelled, g) :=
  cutsOff_of_watch _ (fun outcome => putInPlace g ((·, ()) <$> outcome)) fun _ o =>
    o.perform_restrictInPlace ..

theorem cutsOff_restrictWithFeedbackInPlace :
    CutsOff (fun o => o.perform (o.restrictWithFeedbackInPlace controllable plantMarking) g)
      (.error .cancelled, g) :=
  cutsOff_of_watch _ (putInPlace g) fun _ o => o.perform_restrictWithFeedbackInPlace ..

theorem cutsOff_restrictObservedInPlace (classes : ObserverMap) :
    CutsOff (fun o => o.perform (o.restrictObservedInPlace controllable plantMarking classes) g)
      (.error .cancelled, g) :=
  cutsOff_of_watch _ (putInPlace g) fun _ o => o.perform_restrictObservedInPlace ..

end InPlace

/-- **Cancellation is atomic.** An observer that stops after `k` reports is told one more report of the
run that nobody cancels, and no others; then the call is cancelled, and the restrictions in place leave
the automaton as it was. If there are not so many reports, everything is as if nobody had watched. -/
theorem cancellation_atomic :
    (∀ (g : Automaton) (controllable : EventSet) (plantMarking : StateSet) (classes : ObserverMap),
      CutsOff (fun o => o.perform (o.restrictInPlace controllable plantMarking) g)
        (.error .cancelled, g) ∧
      CutsOff (fun o => o.perform (o.restrictWithFeedbackInPlace controllable plantMarking) g)
        (.error .cancelled, g) ∧
      CutsOff (fun o => o.perform (o.restrictObservedInPlace controllable plantMarking classes) g)
        (.error .cancelled, g)) ∧
    (∀ c : ControlProblem, CutsOff (fun o => o.watch c.controlledProduct) (.error .cancelled)) ∧
    (∀ call : SynthesisCall, CutsOff (fun o => o.watchChecked call.run) (.error .cancelled)) ∧
    (∀ (c : ControlProblem) (config : SynthesisConfig),
      CutsOff (fun o => o.watch (c.supremalUnchecked config)) (.error .cancelled)) ∧
    (∀ c : ObservedProblem, CutsOff (fun o => o.watch c.normalUnchecked) (.error .cancelled)) ∧
    (∀ (p : Plant) (spec : Automaton) (config : SynthesisConfig),
      CutsOff (fun o => o.watchChecked (p.supremal spec config)) (.error .cancelled) ∧
      CutsOff (fun o => o.watchChecked (p.closedLoop spec config)) (.error .cancelled) ∧
      CutsOff (fun o => o.watchChecked (p.normal spec)) (.error .cancelled) ∧
      CutsOff (fun o => o.watchChecked (p.normalClosedLoop spec config)) (.error .cancelled)) := by
  refine ⟨fun g controllable plantMarking classes => ⟨?_, ?_, ?_⟩, fun c => cutsOff_watch _,
    fun call => cutsOff_watchChecked _, fun c config => cutsOff_watch _, fun c => cutsOff_watch _,
    fun p spec config => ⟨cutsOff_watchChecked _, cutsOff_watchChecked _, cutsOff_watchChecked _,
      cutsOff_watchChecked _⟩⟩
  · exact cutsOff_restrictInPlace controllable plantMarking g
  · exact cutsOff_restrictWithFeedbackInPlace controllable plantMarking g
  · exact cutsOff_restrictObservedInPlace controllable plantMarking g classes

/-- Nothing comes after the machine has been scrapped (event 5), so a restriction takes that state away,
after 20 reports. Whoever stops it at the eighth is told these eight and gets the machine back as it
was; whoever lets 20 pass sees no difference. -/
theorem cancellation_atomic_machine :
    let scrappable := Automaton.machine.insertTransition ⟨⟨3⟩, ⟨5⟩, ⟨4⟩⟩
    let run {σ : Type} (o : Observer σ) :=
      o.perform (o.restrictInPlace (.ofList [⟨1⟩, ⟨4⟩, ⟨5⟩]) (.singleton ⟨2⟩)) scrappable
    (run Observer.patient).1.length = 20 ∧
      (run Observer.patient).2.2.states = .ofList [⟨1⟩, ⟨2⟩, ⟨3⟩] ∧
      (run (Observer.lettingPass 7)).1 = (run Observer.patient).1.take 8 ∧
      (run (Observer.lettingPass 7)).2 = (.error .cancelled, scrappable) ∧
      run (Observer.lettingPass 20) = run Observer.patient := by
  intro scrappable run
  have hcut := (cancellation_atomic.1 scrappable (.ofList [⟨1⟩, ⟨4⟩, ⟨5⟩]) (.singleton ⟨2⟩) ∅).1
  have hlen : (run Observer.patient).1.length = 20 := by decide +kernel
  have hcancelled := (hcut ℕ (.lettingPass 7) 7 (Observer.stopsAfter_lettingPass 7 _)).1
    (hlen ▸ (by decide : 7 < 20))
  exact ⟨hlen, by decide +kernel, hcancelled.2.1, hcancelled.2.2,
    (hcut ℕ (.lettingPass 20) 20 (Observer.stopsAfter_lettingPass 20 _)).2 hlen.le⟩

end OmegaControl
