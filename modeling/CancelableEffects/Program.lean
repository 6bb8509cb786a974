import CancelableEffects.Value

/-!
# Programs — descriptions of cancelable effects

* `Code P α`: what a user's closure does when it is called, step by step: it returns an `α`, panics,
  logs, uses the shared variables, launches programs, answers callbacks or registers clean-up.
* `Release`: how a bracket releases its resource.
* `Prog`: a program. Building one runs nothing.
* `Code.handle`, `Code.bind`: going on after code, with the panics caught or not.
* `Prog.map`: transforms the result; up to `maxFusion + 1` functions are fused into one layer.
-/

namespace CancelableEffects

/-- Where forked programs run. -/
inductive Executor where
  /-- At once, before the fork returns. -/
  | immediate
  /-- When somebody takes the task from the named queue. -/
  | queue (name : String)
  /-- On a pool of threads. -/
  | threads
  deriving DecidableEq, Repr

/-- What a call of a user's closure does: `P` is the type of programs it may start or build, `α`
that of what it returns. -/
inductive Code (P α : Type) where
  /-- Returns. -/
  | ret (a : α)
  /-- Panics. -/
  | panic (message : String)
  /-- Appends a line to the log. -/
  | log (line : String) (next : Code P α)
  /-- Reads a shared variable. -/
  | read (x : Name) (next : Option Value → Code P α)
  /-- Sets a shared variable, or clears it. -/
  | write (x : Name) (v : Option Value) (next : Code P α)
  /-- Runs a program on its own, ignoring its result, until it ends or waits. -/
  | launch (p : P) (next : Code P α)
  /-- Completes the step a callback belongs to. -/
  | answer (c : CallbackId) (r : Result) (next : Code P α)
  /-- Registers a clean-up program on a connection. -/
  | push (link : Link) (p : P) (next : Code P α)
  /-- Stores a program. -/
  | keep (p : P) (next : ProgramId → Code P α)

namespace Code

variable {P α β γ : Type}

/-- Goes on with `onReturn` or `onPanic` when the code ends. -/
def handle (onReturn : α → Code P β) (onPanic : String → Code P β) : Code P α → Code P β
  | ret a => onReturn a
  | panic m => onPanic m
  | log l next => log l (next.handle onReturn onPanic)
  | read x next => read x fun v => (next v).handle onReturn onPanic
  | write x v next => write x v (next.handle onReturn onPanic)
  | launch p next => launch p (next.handle onReturn onPanic)
  | answer c r next => answer c r (next.handle onReturn onPanic)
  | push link p next => push link p (next.handle onReturn onPanic)
  | keep p next => keep p fun i => (next i).handle onReturn onPanic

/-- Goes on with what was returned; a panic ends everything. -/
protected def bind (c : Code P α) (k : α → Code P β) : Code P β := c.handle k panic

instance : Monad (Code P) where
  pure := ret
  bind := Code.bind

/-- Appends a line to the log. -/
def say (line : String) : Code P Unit := log line (ret ())

/-- The value of a shared variable. -/
def get (x : Name) : Code P (Option Value) := read x ret

/-- Sets a shared variable. -/
def set (x : Name) (v : Value) : Code P Unit := write x (some v) (ret ())

/-- Clears a shared variable. -/
def clear (x : Name) : Code P Unit := write x none (ret ())

@[simp] theorem ret_bind (a : α) (k : α → Code P β) : (ret a : Code P α).bind k = k a := rfl

@[simp] theorem panic_bind (m : String) (k : α → Code P β) :
    (panic m : Code P α).bind k = panic m := rfl

theorem bind_ret (c : Code P α) : c.bind ret = c := by
  induction c with
  | ret a => rfl
  | panic m => rfl
  | log l next ih => exact congrArg (log l) ih
  | read x next ih => exact congrArg (read x) (funext ih)
  | write x v next ih => exact congrArg (write x v) ih
  | launch p next ih => exact congrArg (launch p) ih
  | answer c r next ih => exact congrArg (answer c r) ih
  | push link p next ih => exact congrArg (push link p) ih
  | keep p next ih => exact congrArg (keep p) (funext ih)

theorem bind_assoc (c : Code P α) (f : α → Code P β) (g : β → Code P γ) :
    (c.bind f).bind g = c.bind fun a => (f a).bind g := by
  induction c with
  | ret a => rfl
  | panic m => rfl
  | log l next ih => exact congrArg (log l) ih
  | read x next ih => exact congrArg (read x) (funext ih)
  | write x v next ih => exact congrArg (write x v) ih
  | launch p next ih => exact congrArg (launch p) ih
  | answer c r next ih => exact congrArg (answer c r) ih
  | push link p next ih => exact congrArg (push link p) ih
  | keep p next ih => exact congrArg (keep p) (funext ih)

end Code

/-- What can be done at once with a semaphore or a scope. -/
inductive Instant where
  | tryAcquire (s : SemaphoreId) (n : Nat)
  | release (s : SemaphoreId) (n : Nat)
  | available (s : SemaphoreId)
  | count (s : SemaphoreId)
  | scopeSize (s : ScopeId)
  deriving DecidableEq, Repr

/-- How a bracket releases its resource; `P` is the type of programs. -/
inductive Release (P : Type) where
  /-- Calls a closure with the resource and the way the use ended. -/
  | call (f : Value → ExitCase → Code P P)
  /-- Returns one permit. -/
  | permit (s : SemaphoreId)
  /-- Ends a scope. -/
  | scope (s : ScopeId)

/-- A program: a description of a computation that may have effects, fail, wait and be cancelled. -/
inductive Prog where
  /-- Gives a value. -/
  | pure (v : Value)
  /-- Fails. -/
  | raise (e : Error)
  /-- Calls a closure for its value or error. -/
  | delay (thunk : Code Prog (Except Error Value))
  /-- Calls a closure for the program to go on with. -/
  | suspend (thunk : Code Prog Prog)
  /-- Waits for a callback, with access to the connection. -/
  | connected (register : Link → CallbackId → Code Prog Unit)
  /-- Waits for a callback; the registration returns the clean-up of the wait. -/
  | cancelable (register : CallbackId → Code Prog Prog)
  /-- Goes on with the value. -/
  | bind (source : Prog) (f : Value → Code Prog Prog)
  /-- Transforms the value; `fused` functions were added to the layer's first one. -/
  | mapped (source : Prog) (f : Value → Code Prog Value) (fused : Nat)
  /-- Goes on after an error. -/
  | recover (source : Prog) (handler : Error → Code Prog Prog)
  /-- Goes on after either. -/
  | fold (source : Prog) (onError : Error → Code Prog Prog) (onValue : Value → Code Prog Prog)
  /-- Runs with cancellation disabled. -/
  | uncancelable (source : Prog)
  /-- Runs `step` on the seed, again on each left value, until a right one. -/
  | iterate (seed : Value) (step : Value → Code Prog Prog)
  /-- Acquires a resource, uses it, and releases it however the use finished. -/
  | bracket (acquire : Prog) (use : Value → Code Prog Prog) (release : Release Prog)
  /-- Runs both sides; the first to finish decides and the other is cancelled. -/
  | race (left right : Prog) (on : Executor)
  /-- Runs both sides and combines their values; a failure cancels the other side. -/
  | both (left right : Prog) (on : Executor) (f : Value → Value → Code Prog Value)
  /-- Runs both sides as fibers; the first to finish decides and the other keeps running. -/
  | racePair (left right : Prog) (on : Executor)
  /-- Starts a fiber. -/
  | start (p : Prog) (on : Executor)
  /-- Starts a fiber that belongs to a scope. -/
  | spawn (s : ScopeId) (p : Prog)
  /-- Runs a body with a scope of its own, whose fibers do not outlive it. -/
  | scoped (on : Executor) (body : ScopeId → Code Prog Prog)
  /-- Waits for the outcomes of fibers in turn; the first error among them ends the wait. -/
  | joinEach (fs : List FiberId)
  /-- Waits for every fiber of the scope but `own`, in the order they were started. -/
  | joinScope (s : ScopeId) (own : Option FiberId)
  /-- Cancels every fiber of the scope, the last first. -/
  | cancelScope (s : ScopeId)
  /-- Waits for the other fibers of the scope, and then for the value of the fiber. -/
  | awaitTask (f : FiberId) (s : ScopeId)
  /-- Waits for the outcome of a fiber. -/
  | outcome (f : FiberId)
  /-- Cancels a fiber. -/
  | cancelFiber (f : FiberId)
  /-- Waits for permits, and can be interrupted while it does. -/
  | permits (s : SemaphoreId) (n : Nat)
  /-- Acts at once on a semaphore or a scope. -/
  | instant (a : Instant)
  /-- Goes on where the executor says. -/
  | shift (on : Executor)
  /-- Waits for a span of time. -/
  | sleep (d : Duration)
  /-- Calls a closure in the outside world and waits for its value. -/
  | remote (thunk : Code Prog Value)
  /-- Runs a program in the outside world, as a run of its own, and waits for its result. -/
  | awaited (p : Prog)
  /-- Cancels a connection. -/
  | cancel (link : Link)
  /-- Takes the newest token from a connection and runs it. -/
  | pop (link : Link)
  /-- Runs a stored program. -/
  | stored (p : ProgramId)

/-- What a release does with the resource, when the use ended as `x` tells. A scope whose body
completed waits for its fibers; any other cancels them. -/
def Release.code : Release Prog → Value → ExitCase → Code Prog Prog
  | .call f, v, x => f v x
  | .permit s, _, _ => .ret (.instant (.release s 1))
  | .scope s, _, x => .ret (if x.isCompleted then .joinScope s none else .cancelScope s)

/-- How many functions can be added to the first one of a layer. -/
def maxFusion : Nat := 31

namespace Prog

/-- Transforms the value of a program, in the top layer while that has room. -/
def map (p : Prog) (f : Value → Code Prog Value) : Prog :=
  match p with
  | mapped source g fused =>
    if fused < maxFusion then mapped source (fun v => (g v).bind f) (fused + 1)
    else mapped (mapped source g fused) f 0
  | p => mapped p f 0

/-- The program that ends with a result. -/
def ofResult : Result → Prog
  | .ok v => pure v
  | .error e => raise e

/-- The number of functions added to the first one of the top layer, if that is a layer of maps. -/
def fused? : Prog → Option Nat
  | mapped _ _ n => some n
  | _ => none

end Prog

end CancelableEffects
