/-!
# Handles — references to the objects of a machine

Every object a machine creates is known by the index under which it was created.

* `Link`: the connection an execution runs under, or none inside an uncancelable region.
* `Handle`: a reference to an object, as programs keep it.
* `Name`: the name of a variable shared by all programs of a session.
-/

namespace CancelableEffects

/-- The index of an execution. -/
abbrev ExecutionId := Nat

/-- The index of a connection. -/
abbrev ConnectionId := Nat

/-- The index of a boundary, where an execution waits for a completion. -/
abbrev BoundaryId := Nat

/-- The index of an interruptible step: that of its boundary. -/
abbrev StepId := BoundaryId

/-- The index of a callback handed to user code. -/
abbrev CallbackId := Nat

/-- The index of a bracket: that of the boundary of its acquisition. -/
abbrev BracketId := BoundaryId

/-- The index of a fiber. -/
abbrev FiberId := Nat

/-- The index of a scope. -/
abbrev ScopeId := Nat

/-- The index of a semaphore. -/
abbrev SemaphoreId := Nat

/-- The index of a fork into two sides: that of its boundary. -/
abbrev ForkId := BoundaryId

/-- The index of a duel of two fibers: that of its boundary. -/
abbrev DuelId := BoundaryId

/-- The index of an observed run. -/
abbrev RunId := Nat

/-- The index of a future. -/
abbrev FutureId := Nat

/-- The index of a stored program. -/
abbrev ProgramId := Nat

/-- The index of a job of the world outside the machine. -/
abbrev JobId := Nat

/-- The connection an execution runs under; `none` where it cannot be cancelled. -/
abbrev Link := Option ConnectionId

/-- A reference to an object of the machine. -/
inductive Handle where
  | callback (c : CallbackId)
  | connection (link : Link)
  | fiber (f : FiberId)
  | future (f : FutureId)
  | program (p : ProgramId)
  /-- An observed run and the connection through which it can be cancelled. -/
  | run (r : RunId) (link : Link)
  | scope (s : ScopeId)
  | semaphore (s : SemaphoreId)
  | task (f : FiberId) (s : ScopeId)
  deriving DecidableEq, Repr

namespace Handle

/-- The connection referred to. -/
def connection? : Handle → Option Link
  | connection link => some link
  | _ => none

/-- The fiber referred to. -/
def fiber? : Handle → Option FiberId
  | fiber f => some f
  | _ => none

/-- The future referred to. -/
def future? : Handle → Option FutureId
  | future f => some f
  | _ => none

/-- The stored program referred to. -/
def program? : Handle → Option ProgramId
  | program p => some p
  | _ => none

/-- The observed run referred to. -/
def run? : Handle → Option RunId
  | run r _ => some r
  | _ => none

/-- The connection of the run referred to, if the run can be cancelled. -/
def cancelableRun? : Handle → Option ConnectionId
  | run _ link => link
  | _ => none

/-- The scope referred to. -/
def scope? : Handle → Option ScopeId
  | scope s => some s
  | _ => none

/-- The semaphore referred to. -/
def semaphore? : Handle → Option SemaphoreId
  | semaphore s => some s
  | _ => none

/-- The task referred to: its fiber and its scope. -/
def task? : Handle → Option (FiberId × ScopeId)
  | task f s => some (f, s)
  | _ => none

end Handle

/-- The kinds of named objects; each kind has names of its own. -/
inductive Kind where
  | callback
  | connection
  | fiber
  | future
  | program
  | run
  | scope
  | semaphore
  | task
  deriving DecidableEq, Repr

/-- The name of a shared variable. -/
structure Name where
  kind : Kind
  text : String
  deriving DecidableEq, Repr

end CancelableEffects
