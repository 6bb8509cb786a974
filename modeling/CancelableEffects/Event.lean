import CancelableEffects.Exit
import CancelableEffects.Handle

/-!
# Events — the history of a machine

* `Event`: what is recorded while programs run; each event names the object it is about.
* `Event.line?`: the line a program logged, if the event is one.
* `Event.trace`: the written form, with the level, the message and its fields.
-/

namespace CancelableEffects

/-- Failures that nobody is left to receive. -/
inductive Warning where
  /-- A token registered on a cancelled connection failed. -/
  | pushedToken
  /-- The token of a step that was cancelled during its registration failed. -/
  | stepToken
  /-- Cancelling the run of a future that was dropped failed. -/
  | droppedFuture
  deriving DecidableEq, Repr

/-- Something that happened. -/
inductive Event where
  /-- A program logged a line. -/
  | line (text : String)
  /-- A loop stopped at a boundary to wait. -/
  | parked (b : BoundaryId)
  /-- A loop went on from a boundary. -/
  | resumed (b : BoundaryId)
  /-- A boundary was completed once more. -/
  | completedAgain (b : BoundaryId)
  /-- A connection was cancelled while it held so many tokens. -/
  | cancelling (c : ConnectionId) (tokens : Nat)
  /-- A failure was reported and dropped. -/
  | warned (w : Warning) (e : Error)
  /-- A token failed after another one of the same cancellation. -/
  | failedAgain (e : Error)
  /-- A cancelled run ended without telling anybody. -/
  | silent (r : RunId)
  /-- The release of a bracket was taken. -/
  | releasing (g : BracketId) (x : ExitCase)
  /-- The release failed that followed an acquisition during which the execution was cancelled. -/
  | lateReleaseFailed (g : BracketId) (e : Error)
  | fiberStarted (f : FiberId)
  | fiberFinished (f : FiberId) (completed : Bool)
  /-- A fiber ended because its connection was cancelled. -/
  | fiberStopped (f : FiberId)
  | fiberCancelling (f : FiberId)
  | scopeJoining (s : ScopeId) (tasks : Nat)
  | scopeCancelling (s : ScopeId) (tasks : Nat)
  /-- A release ended so many waits for permits. -/
  | permitsGranted (s : SemaphoreId) (waiters : Nat)
  /-- A future was dropped before its run had ended. -/
  | futureDropped (f : FutureId)
  deriving Repr, BEq

/-- The number under which a fiber is known outside: the first one is 1. -/
def FiberId.number (f : FiberId) : Nat := f + 1

/-- The text under which a fiber is known outside. -/
def FiberId.text (f : FiberId) : String := "fiber-" ++ toString (FiberId.number f)

/-- The sentence of a warning. -/
def Warning.message : Warning → String
  | .pushedToken => "cancel token pushed after cancellation failed"
  | .stepToken => "cancel token failed"
  | .droppedFuture => "cancelling a dropped io future failed"

namespace Event

/-- The logged line, if the event is one. -/
def line? : Event → Option String
  | line s => some s
  | _ => none

/-- The written form: level, message and fields. -/
def trace : Event → String
  | line s => "LOG " ++ s
  | parked _ => "TRACE run loop parked at async boundary"
  | resumed _ => "TRACE run loop resumed from async boundary"
  | completedAgain _ => "WARN async step completed more than once; result dropped"
  | cancelling _ n => "TRACE cancelling connection tokens=" ++ toString n
  | warned w e => "WARN " ++ w.message ++ " error=" ++ e.message
  | failedAgain e =>
    "WARN cancel token failed while another failure is pending error=" ++ e.message
  | silent _ => "TRACE cancelled execution finished silently"
  | releasing _ x => "DEBUG releasing bracket resource exit=" ++ x.debug
  | lateReleaseFailed _ e => "WARN release after cancelled acquire failed error=" ++ e.message
  | fiberStarted f => "TRACE fiber started fiber=" ++ FiberId.text f
  | fiberFinished f completed =>
    "TRACE fiber finished fiber=" ++ FiberId.text f ++ " completed=" ++ toString completed
  | fiberStopped f => "TRACE fiber stopped after cancellation fiber=" ++ FiberId.text f
  | fiberCancelling f => "DEBUG cancelling fiber fiber=" ++ FiberId.text f
  | scopeJoining _ n => "DEBUG joining scope tasks tasks=" ++ toString n
  | scopeCancelling _ n => "DEBUG cancelling scope tasks tasks=" ++ toString n
  | permitsGranted _ n => "TRACE semaphore permits granted waiters=" ++ toString n
  | futureDropped _ => "TRACE io future dropped before completion; cancelling"

end Event

end CancelableEffects
