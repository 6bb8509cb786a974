import CancelableEffects.Failure

/-!
# Exits and outcomes — how a computation finished

* `ExitCase`: what a release action is told about the use of its resource.
* `Outcome`: the three-way result a fiber publishes; cancellation is no error there.
* `Outcome.ofResult`, `Outcome.toResult`: the passage from and to results.
-/

namespace CancelableEffects

/-- How the use of a resource finished. -/
inductive ExitCase where
  | completed
  | error (e : Error)
  | cancelled
  deriving Repr, BEq

namespace ExitCase

/-- Whether the use produced a value. -/
def isCompleted : ExitCase → Bool
  | completed => true
  | error _ | cancelled => false

/-- Whether the use raised an error. -/
def isError : ExitCase → Bool
  | error _ => true
  | completed | cancelled => false

/-- Whether the use was cancelled. -/
def isCancelled : ExitCase → Bool
  | cancelled => true
  | completed | error _ => false

/-- The debug form. -/
def debug : ExitCase → String
  | completed => "Completed"
  | error e => "Error(" ++ e.debug ++ ")"
  | cancelled => "Cancelled"

/-- The exit case that matches a result: an error is an error, whatever its cause. -/
def ofResult {α : Type} : Except Error α → ExitCase
  | .ok _ => completed
  | .error e => error e

end ExitCase

/-- The final result of an execution of its own. -/
inductive Outcome (α : Type) where
  | completed (a : α)
  | errored (e : Error)
  | cancelled
  deriving Repr, BEq

namespace Outcome

variable {α β : Type}

/-- Classifies a result: an error of cancellation becomes `cancelled`. -/
def ofResult : Except Error α → Outcome α
  | .ok a => completed a
  | .error e => if e.isCancelled then cancelled else errored e

/-- The result an outcome stands for; cancellation becomes an error. -/
def toResult : Outcome α → Except Error α
  | completed a => .ok a
  | errored e => .error e
  | cancelled => .error .cancelled

/-- Applies a function with effects to a completed value. -/
def mapM {m : Type → Type} [Monad m] (f : α → m β) : Outcome α → m (Outcome β)
  | completed a => completed <$> f a
  | errored e => pure (errored e)
  | cancelled => pure cancelled

/-- Whether the execution was cancelled. -/
def isCancelled : Outcome α → Bool
  | cancelled => true
  | completed _ | errored _ => false

/-- Whether the execution produced a value. -/
def isCompleted : Outcome α → Bool
  | completed _ => true
  | errored _ | cancelled => false

@[simp] theorem toResult_completed (a : α) : (completed a).toResult = .ok a := rfl

@[simp] theorem ofResult_ok (a : α) : ofResult (.ok a) = completed a := rfl

theorem mapM_pure {m : Type → Type} [Monad m] [LawfulMonad m] (o : Outcome α) :
    o.mapM (fun a => (pure a : m α)) = pure o := by cases o <;> simp [mapM]

end Outcome

end CancelableEffects
