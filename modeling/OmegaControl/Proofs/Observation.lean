import Mathlib.Tactic.TypeStar
import OmegaControl.Liveness.Rule

/-!
# Computations that nobody cancels

An observer that never cancels sees a computation through to its value, whatever it
looks at on the way (`watch_eq_value`). So the value is all there is to say about a
computation that is not cancelled; for one that keeps records, the value and the
records it ends with (`Recorded.outcome`).

Two things hold for any observer: if it lets a computation finish, what it gets is
the value (`value_eq_of_watch`), and what it is told is the beginning of all that
there is to report (`watch_isPrefix`). So a statement about values and reports of
the computation that nobody watches carries over to every observer.
-/

namespace OmegaControl

/-- The observer lets every computation go on, in whatever state it is. -/
def Observer.NeverCancels {σ : Type} (o : Observer σ) : Prop :=
  ∀ s c, (o.see s c).isSome

/-- The observer that lets everything go on. It stands for nobody watching. -/
def Observer.patient : Observer Unit := ⟨(), fun _ _ => some ()⟩

theorem Observer.neverCancels_patient : Observer.patient.NeverCancels := fun _ _ => rfl

/-- A computation that is not cancelled makes all its reports and returns its value. -/
theorem Observer.watch_eq {σ α : Type} {o : Observer σ} (h : o.NeverCancels) (w : Watched α) :
    o.watch w = (w.checkpoints, .ok w.value) := by
  rw [Observer.watch]
  generalize o.start = s
  induction w generalizing s with
  | done a => rfl
  | report c rest ih =>
    obtain ⟨s', hs'⟩ := Option.isSome_iff_exists.mp (h s c)
    simp only [watchFrom, hs', ih () s']
    rfl

/-- The value is what is returned, if the reports do not matter. -/
theorem Observer.watch_eq_value {σ α : Type} {o : Observer σ} (h : o.NeverCancels)
    (w : Watched α) : (o.watch w).2 = .ok w.value := congrArg Prod.snd (watch_eq h w)

/-- What a computation returns is its value, whoever watches it: an observer can
stop a computation, but not change what comes out of it. -/
theorem Observer.value_eq_of_watch {σ α : Type} {o : Observer σ} {w : Watched α} {a : α}
    (h : (o.watch w).2 = .ok a) : w.value = a := by
  rw [Observer.watch] at h
  generalize o.start = s at h
  induction w generalizing s with
  | done b => exact Except.ok.inj h
  | report c rest ih =>
    rw [watchFrom] at h
    cases hs : o.see s c with
    | none =>
      rw [hs] at h
      cases h
    | some s' =>
      rw [hs] at h
      exact ih () s' h

/-- An observer that cancels a computation has seen the beginning of its reports. -/
theorem Observer.watch_isPrefix {σ α : Type} (o : Observer σ) (w : Watched α) :
    (o.watch w).1 <+: w.checkpoints := by
  rw [Observer.watch]
  generalize o.start = s
  induction w generalizing s with
  | done a => exact List.prefix_rfl
  | report c rest ih =>
    rw [watchFrom]
    cases o.see s c with
    | none => exact List.prefix_append [c] _
    | some s' => exact (List.prefix_cons_inj c).mpr (ih () s')

/-! ## Computations with records

The loops of a rule keep records in a state of their own. Their outcome is looked at
from given records on, so that a lemma about one loop can be used at any point of
the loop around it. -/

/-- The value of a computation that starts with the records `s`, and the records at its
end. -/
def Recorded.outcome {σ α : Type} (m : Recorded σ α) (s : σ) : α × σ := (m.run s).value

namespace Recorded

variable {σ α β : Type} (s : σ)

@[simp] theorem outcome_pure (a : α) : outcome (pure a : Recorded σ α) s = (a, s) := rfl

/-- The second part starts with the records that the first one ends with. -/
@[simp] theorem outcome_bind (m : Recorded σ α) (f : α → Recorded σ β) :
    outcome (m >>= f) s = outcome (f (outcome m s).1) (outcome m s).2 :=
  Watched.value_bind ..

@[simp] theorem outcome_modify (f : σ → σ) : outcome (modify f : Recorded σ Unit) s = ((), f s) :=
  rfl

/-- Reports leave the records alone. -/
@[simp] theorem outcome_lift (w : Watched α) :
    outcome (liftM w : Recorded σ α) s = (w.value, s) :=
  Watched.value_bind ..

/-- A report changes nothing. -/
@[simp] theorem value_checkpoint (stage : Stage) (current total : Nat) :
    (Watched.checkpoint stage current total).value = () := rfl

end Recorded

end OmegaControl
