import CancelableEffects.Handle

/-!
# Connections — the clean-up actions of an execution

* `Cleanup`: what is left to clean up after the registration of a step.
* `Token`: a clean-up action, known by the object it cleans up.
* `Connection`: active with its tokens, newest first, or cancelled for good.
* `Connection.push`, `Connection.pop`, `Connection.cancel`: what can happen to the tokens.
* `Connection.cancel_cancel`: the second cancellation takes nothing.
-/

namespace CancelableEffects

/-- What is left to clean up after the registration of a step. -/
inductive Cleanup where
  /-- Nothing to do. -/
  | idle
  /-- Runs a stored program. -/
  | program (p : ProgramId)
  /-- Stops listening to a fiber. -/
  | unlisten (f : FiberId) (listener : Nat)
  /-- Gives up a job of the outside world. -/
  | abandon (j : JobId)
  deriving DecidableEq, Repr

/-- A clean-up action. -/
inductive Token where
  | cleanup (c : Cleanup)
  /-- Interrupts a step. -/
  | step (s : StepId)
  /-- Releases the resource of a bracket. -/
  | bracket (g : BracketId)
  /-- Cancels a connection. -/
  | connection (link : Link)
  /-- Cancels two connections, one after the other. -/
  | connections (left right : Link)
  /-- Cancels a fiber. -/
  | fiber (f : FiberId)
  /-- Cancels two fibers, one after the other. -/
  | fibers (left right : FiberId)
  deriving DecidableEq, Repr

/-- The clean-up actions of one execution: a stack while it is active, nothing once it was
cancelled. -/
inductive Connection where
  | active (tokens : List Token)
  | cancelled
  deriving DecidableEq, Repr

namespace Connection

/-- An active connection without tokens. -/
def fresh : Connection := active []

/-- Whether the connection was cancelled. -/
def isCancelled : Connection → Bool
  | active _ => false
  | cancelled => true

/-- The stored tokens, newest first. -/
def tokens : Connection → List Token
  | active ts => ts
  | cancelled => []

/-- Stores a token, or refuses it on a cancelled connection. -/
def push (t : Token) : Connection → Option Connection
  | active ts => some (active (t :: ts))
  | cancelled => none

/-- Removes the newest token; there is none on an empty or cancelled connection. -/
def pop : Connection → Connection × Option Token
  | active (t :: ts) => (active ts, some t)
  | active [] => (active [], none)
  | cancelled => (cancelled, none)

/-- Cancels the connection: the stored tokens come back newest first, or nothing at all if the
connection was cancelled before. -/
def cancel : Connection → Connection × Option (List Token)
  | active ts => (cancelled, some ts)
  | cancelled => (cancelled, none)

@[simp] theorem isCancelled_cancel (c : Connection) : c.cancel.1.isCancelled = true := by
  cases c <;> rfl

/-- A connection can be cancelled once. -/
theorem cancel_cancel (c : Connection) : c.cancel.1.cancel = (cancelled, none) := by
  cases c <;> rfl

/-- A push is undone by a pop. -/
theorem pop_push {c c' : Connection} {t : Token} (h : c.push t = some c') :
    c'.pop = (c, some t) := by
  cases c with
  | active ts => simp only [push, Option.some.injEq] at h; subst h; rfl
  | cancelled => simp [push] at h

/-- A push is refused exactly on a cancelled connection. -/
theorem push_eq_none_iff {c : Connection} {t : Token} : c.push t = none ↔ c.isCancelled = true := by
  cases c <;> simp [push, isCancelled]

end Connection

end CancelableEffects
