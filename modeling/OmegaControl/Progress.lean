/-!
# Progress reports and cancellation

A long computation reports checkpoints on its way, and whoever watches it may
cancel it at any of them. `Watched α` is such a computation: it has a value, or it
reports a checkpoint and goes on once it is told to. What it reports and returns
does not depend on the observer, who can only let it go on or stop it; the report
at which it is stopped is the last one made.
-/

namespace OmegaControl

/-- Where a checkpoint lies. -/
inductive Stage where
  /-- a state of the product is taken up: of those met, how many were taken up -/
  | product
  /-- an iteration of the inner greatest fixpoint: of all states, how many are resolved -/
  | fixpoint
  /-- an iteration of the synthesis loop: of the first candidate, how many states are gone -/
  | driver
  deriving DecidableEq

/-- All stages. -/
def Stage.all : List Stage := [.product, .fixpoint, .driver]

/-- How a stage is written. -/
def Stage.text : Stage → String
  | .product => "product"
  | .fixpoint => "fixpoint"
  | .driver => "driver"

/-- A report of progress: `current` of `total`. -/
structure Checkpoint where
  stage : Stage
  current : Nat
  total : Nat
  deriving DecidableEq

/-- A computation that was cancelled by its observer. -/
inductive Cancelled where
  | cancelled
  deriving DecidableEq

/-- What is reported for a cancelled computation. -/
def Cancelled.message : Cancelled → String
  | .cancelled => "cancelled"

/-- A computation that reports its progress. -/
inductive Watched (α : Type) : Type where
  /-- the value is there -/
  | done (value : α)
  /-- a checkpoint is reported before the computation goes on -/
  | report (checkpoint : Checkpoint) (rest : Unit → Watched α)

namespace Watched

variable {α β : Type}

/-- Goes on with the value of a computation. -/
def bind (w : Watched α) (f : α → Watched β) : Watched β :=
  match w with
  | done a => f a
  | report c rest => report c fun u => bind (rest u) f

instance : Monad Watched where
  pure := done
  bind := bind

@[simp] theorem pure_eq (a : α) : (pure a : Watched α) = done a := rfl

@[simp] theorem done_bind (a : α) (f : α → Watched β) : (done a >>= f) = f a := rfl

@[simp] theorem report_bind (c : Checkpoint) (rest : Unit → Watched α) (f : α → Watched β) :
    (report c rest >>= f) = report c fun u => rest u >>= f := rfl

theorem bind_done (w : Watched α) : (w >>= done) = w := by
  induction w with
  | done a => rfl
  | report c rest ih => rw [report_bind, funext ih]

/-- Reports of three computations in a row come in the same order, however they are
grouped. -/
theorem bind_assoc {γ : Type} (w : Watched α) (f : α → Watched β) (k : β → Watched γ) :
    (w >>= f >>= k) = w >>= fun a => f a >>= k := by
  induction w with
  | done a => rfl
  | report c rest ih => rw [report_bind, report_bind, report_bind, funext ih]

instance : LawfulMonad Watched := LawfulMonad.mk' Watched
  bind_done (fun _ _ => rfl) bind_assoc

/-- Reports a checkpoint. -/
def checkpoint (stage : Stage) (current total : Nat) : Watched Unit :=
  report ⟨stage, current, total⟩ fun _ => done ()

/-- The value of a computation that nobody cancels. -/
def value : Watched α → α
  | done a => a
  | report _ rest => value (rest ())

/-- The checkpoints that a computation reports if nobody cancels it. -/
def checkpoints : Watched α → List Checkpoint
  | done _ => []
  | report c rest => c :: checkpoints (rest ())

@[simp] theorem value_bind (w : Watched α) (f : α → Watched β) :
    (w >>= f).value = (f w.value).value := by
  induction w with
  | done a => rfl
  | report c rest ih => exact ih ()

@[simp] theorem checkpoints_bind (w : Watched α) (f : α → Watched β) :
    (w >>= f).checkpoints = w.checkpoints ++ (f w.value).checkpoints := by
  induction w with
  | done a => rfl
  | report c rest ih => exact congrArg (c :: ·) (ih ())

end Watched

/-- Somebody who watches a computation, in a state of type `σ`. -/
structure Observer (σ : Type) where
  start : σ
  /-- the next state after a checkpoint, or nothing to cancel -/
  see : σ → Checkpoint → Option σ

/-- Runs a computation from a state of its observer: the checkpoints that were
reported, and the value unless the computation was cancelled. -/
def Observer.watchFrom {σ α : Type} (o : Observer σ) (s : σ) :
    Watched α → List Checkpoint × Except Cancelled α
  | .done a => ([], .ok a)
  | .report c rest =>
    match o.see s c with
    | none => ([c], .error .cancelled)
    | some s =>
      let (cs, result) := o.watchFrom s (rest ())
      (c :: cs, result)

/-- Runs a computation under an observer. -/
def Observer.watch {σ α : Type} (o : Observer σ) (w : Watched α) :
    List Checkpoint × Except Cancelled α :=
  o.watchFrom o.start w

end OmegaControl
