import CancelableEffects.Text.Duration
import CancelableEffects.Text.Integer
import CancelableEffects.Text.Quoted

/-!
# Failures — what goes wrong in an effect

* `Failure`: an error value raised by user code.
* `Cause`: the primary reason of an error — a failure, a message, a panic, cancellation, a timeout.
* `Error`: a cause with the errors suppressed while it was under way, oldest first.
* `Error.message`, `Error.debug`: the two written forms.
* `Error.suppress`: attaches a later error to an earlier one, which stays the primary one.
-/

namespace CancelableEffects

/-- An error value raised by user code. -/
inductive Failure where
  /-- A plain failure with the messages of its chain of sources, nearest first. -/
  | boom (message : String) (sources : List String)
  /-- A failure of the outside world. -/
  | custom (message : String)
  /-- A text that is no integer. -/
  | integer (fault : IntegerFault)
  /-- A timeout raised as an ordinary failure. -/
  | timeout (after : Duration)
  deriving DecidableEq, Repr

namespace Failure

/-- The sentence that reports a timeout. -/
def timeoutMessage (after : Duration) : String := "computation timed out after " ++ after.text

/-- The debug form of a timeout. -/
def timeoutDebug (after : Duration) : String :=
  "TimeoutError \x7b after: " ++ after.text ++ " \x7d"

/-- The sentence that reports the failure. -/
def message : Failure → String
  | boom m _ => m
  | custom m => m
  | integer fault => fault.message
  | timeout after => timeoutMessage after

/-- The messages of the chain of sources, nearest first. -/
def sources : Failure → List String
  | boom _ s => s
  | custom _ | integer _ | timeout _ => []

/-- The debug form of a failure with a chain of sources. -/
def boomDebug (message : String) : List String → String
  | [] => "Boom \x7b message: " ++ Text.quoted message ++ ", source: None \x7d"
  | s :: ss =>
    "Boom \x7b message: " ++ Text.quoted message ++ ", source: Some(" ++ boomDebug s ss ++ ") \x7d"

/-- The debug form. -/
def debug : Failure → String
  | boom m s => boomDebug m s
  | custom m => "Custom \x7b kind: Other, error: " ++ Text.quoted m ++ " \x7d"
  | integer fault => "ParseIntError \x7b kind: " ++ fault.name ++ " \x7d"
  | timeout after => timeoutDebug after

end Failure

/-- The primary reason of an error. -/
inductive Cause where
  | failure (f : Failure)
  | message (text : String)
  | panic (text : String)
  | cancelled
  | timeout (after : Duration)
  deriving DecidableEq, Repr

namespace Cause

/-- The sentence that reports the cause. -/
def text : Cause → String
  | failure f => f.message
  | message s => s
  | panic s => "panicked: " ++ s
  | cancelled => "execution was cancelled"
  | timeout after => Failure.timeoutMessage after

/-- The debug form. -/
def debug : Cause → String
  | failure f => "Failure(" ++ f.debug ++ ")"
  | message s => "Message(" ++ Text.quoted s ++ ")"
  | panic s => "Panic(" ++ Text.quoted s ++ ")"
  | cancelled => "Cancelled"
  | timeout after => "Timeout(" ++ Failure.timeoutDebug after ++ ")"

/-- The one-word kind of the cause. -/
def kind : Cause → String
  | failure _ => "failure"
  | message _ => "message"
  | panic _ => "panic"
  | cancelled => "cancelled"
  | timeout _ => "timeout"

end Cause

/-- An error: its primary cause and the errors suppressed while it was under way, oldest first. -/
structure Error where
  cause : Cause
  suppressed : List Error := []
  deriving Repr, BEq

namespace Error

/-- The error with a plain message. -/
def msg (s : String) : Error := ⟨.message s, []⟩

/-- The error of a panic in user code. -/
def panic (s : String) : Error := ⟨.panic s, []⟩

/-- The error that reports a cancelled execution. -/
def cancelled : Error := ⟨.cancelled, []⟩

/-- The error of a computation that did not finish in time. -/
def timeout (after : Duration) : Error := ⟨.timeout after, []⟩

/-- The error of a failure raised by user code. -/
def failure (f : Failure) : Error := ⟨.failure f, []⟩

/-- Records a later error; the receiver stays the primary one. -/
def suppress (e later : Error) : Error := { e with suppressed := e.suppressed ++ [later] }

/-- Whether the error reports a cancelled execution. -/
def isCancelled (e : Error) : Bool :=
  match e.cause with
  | .cancelled => true
  | _ => false

/-- Whether the error reports a panic. -/
def isPanic (e : Error) : Bool :=
  match e.cause with
  | .panic _ => true
  | _ => false

/-- Whether the error was raised by a timeout. -/
def isTimeout (e : Error) : Bool :=
  match e.cause with
  | .timeout _ => true
  | _ => false

/-- The message: the cause, then the suppressed errors in parentheses. -/
def message : Error → String
  | ⟨cause, suppressed⟩ =>
    match messages suppressed with
    | [] => cause.text
    | ms => cause.text ++ " (suppressed: " ++ "; ".intercalate ms ++ ")"
where
  /-- The messages of several errors. -/
  messages : List Error → List String
    | [] => []
    | e :: es => e.message :: messages es

/-- The debug form. -/
def debug : Error → String
  | ⟨cause, suppressed⟩ =>
    "Error \x7b cause: " ++ cause.debug ++ ", suppressed: [" ++
      ", ".intercalate (debugs suppressed) ++ "] \x7d"
where
  /-- The debug forms of several errors. -/
  debugs : List Error → List String
    | [] => []
    | e :: es => e.debug :: debugs es

/-- The message of a plain failure, if the cause is one. -/
def boom? (e : Error) : Option String :=
  match e.cause with
  | .failure (.boom m _) => some m
  | _ => none

/-- The message of a failure of the outside world, if the cause is one. -/
def custom? (e : Error) : Option String :=
  match e.cause with
  | .failure (.custom m) => some m
  | _ => none

/-- The time limit that was missed, if the cause is a timeout, raised as one or as a failure. -/
def timeout? (e : Error) : Option Duration :=
  match e.cause with
  | .timeout d => some d
  | .failure (.timeout d) => some d
  | _ => none

/-- The messages of the sources of the primary cause, nearest first. -/
def sources (e : Error) : List String :=
  match e.cause with
  | .failure f => f.sources
  | _ => []

@[simp] theorem cause_suppress (e later : Error) : (e.suppress later).cause = e.cause := rfl

@[simp] theorem suppressed_suppress (e later : Error) :
    (e.suppress later).suppressed = e.suppressed ++ [later] := rfl

@[simp] theorem isCancelled_suppress (e later : Error) :
    (e.suppress later).isCancelled = e.isCancelled := rfl

end Error

end CancelableEffects
