import OmegaControl.Proofs.Observation
import OmegaControl.Synthesis.ClosedLoop

/-!
# Computations that may fail

A checked computation that nobody cancels has a result, which is a value or the
first error that was met, and reports. An observer that lets it go on sees its
result (`watchChecked_eq_result`), and what an observer gets to see is the beginning
of its reports (`watchChecked_isPrefix`).

Results and reports of a sequence of computations are put together from those of its
parts, which is what `simp` does with the lemmas below. An error ends the sequence,
so what comes after it reports nothing.
-/

namespace OmegaControl

namespace Checked

variable {σ α β : Type}

/-- The result of a computation that nobody cancels: a value, or the error that has
ended it. -/
def result (w : Checked α) : Except SynthesisError α := w.run.value

/-- Watched by an observer that never cancels, a computation returns its result. -/
theorem watchChecked_eq_result {o : Observer σ} (ho : o.NeverCancels) (w : Checked α) :
    (o.watchChecked w).2 = result w := by
  have hvalue := Observer.watch_eq_value ho w.run
  rw [Observer.watchChecked]
  rcases hout : o.watch w.run with ⟨cs, outcome⟩
  rw [hout] at hvalue
  obtain rfl : outcome = .ok w.run.value := hvalue
  rfl

/-- A value that is returned is the result, whoever watches. -/
theorem result_eq_of_watchChecked {o : Observer σ} {w : Checked α} {a : α}
    (h : (o.watchChecked w).2 = .ok a) : result w = .ok a := by
  rw [Observer.watchChecked] at h
  rcases hout : o.watch w.run with ⟨cs, outcome⟩
  rw [hout] at h
  cases outcome with
  | error e =>
    cases e
    cases h
  | ok outcome =>
    obtain rfl : outcome = .ok a := h
    exact Observer.value_eq_of_watch (congrArg Prod.snd hout)

@[simp] theorem result_pure (a : α) : result (pure a : Checked α) = .ok a := rfl

/-- An error of the first part is the result of both. -/
@[simp] theorem result_bind (w : Checked α) (f : α → Checked β) :
    result (w >>= f) = result w >>= fun a => result (f a) := by
  rw [result, ExceptT.run_bind, Watched.value_bind]
  cases h : w.run.value <;> simp only [result, h] <;> rfl

@[simp] theorem result_lift (w : Watched α) : result (liftM w : Checked α) = .ok w.value :=
  Watched.value_bind ..

@[simp] theorem result_liftExcept (e : Except SynthesisError α) :
    result (liftM e : Checked α) = e := rfl

/-! ## Reports -/

/-- The reports of a computation that nobody cancels. -/
def reports (w : Checked α) : List Checkpoint := w.run.checkpoints

/-- An observer is told the beginning of the reports. -/
theorem watchChecked_isPrefix (o : Observer σ) (w : Checked α) :
    (o.watchChecked w).1 <+: reports w := by
  have hseen := o.watch_isPrefix w.run
  rw [Observer.watchChecked]
  rcases hout : o.watch w.run with ⟨cs, outcome | outcome⟩
  all_goals
    rw [hout] at hseen
    exact hseen

@[simp] theorem reports_pure (a : α) : reports (pure a : Checked α) = [] := rfl

/-- What comes after a computation that cannot fail is reported after it. -/
@[simp] theorem reports_lift_bind (w : Watched α) (f : α → Checked β) :
    reports (liftM w >>= f) = w.checkpoints ++ reports (f w.value) :=
  (congrArg Watched.checkpoints (Watched.bind_assoc w ..)).trans (Watched.checkpoints_bind ..)

@[simp] theorem reports_ok_bind (a : α) (f : α → Checked β) :
    reports ((liftM (.ok a : Except SynthesisError α) : Checked α) >>= f) = reports (f a) := rfl

end Checked

end OmegaControl
