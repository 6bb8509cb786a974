import CancelableEffects.Connection
import CancelableEffects.Event
import CancelableEffects.Program
import CancelableEffects.Promise
import CancelableEffects.Semaphore

/-!
# Machine states — what exists while programs run

* `Frame`: a continuation on the stack of a loop.
* `Loop`: an execution without the program it is about to interpret: its index, its connection, its
  stack and its sink, which receives the result.
* `Node`: what a loop interprets next.
* `Stage`: what a loop at hand is busy with.
* `Step`, `Bracket`, `Fork`, `Duel`: the objects that complete boundaries.
* `Boundaries`: the boundaries, each with its keeper.
* `Fiber`, `Scope`, `Run`, `Future`, `Job`: the other objects a machine creates.
* `Store`: all objects, the shared variables, the queues, the clock and the history.
* `Activity`: one pending call; a machine works on a stack of them, the innermost call first.
* `Turn`: how a loop goes on after a step.
-/

namespace CancelableEffects

/-- One of two sides. -/
inductive Side where
  | left
  | right
  deriving DecidableEq, Repr

/-- A pending continuation on the stack of a loop. -/
inductive Frame where
  /-- Transforms a value. -/
  | map (f : Value → Code Prog Value)
  /-- Goes on after a value. -/
  | bind (f : Value → Code Prog Prog)
  /-- Goes on after an error. -/
  | recover (handler : Error → Code Prog Prog)
  /-- Goes on after either. -/
  | fold (onError : Error → Code Prog Prog) (onValue : Value → Code Prog Prog)
  /-- Goes round again after a left value. -/
  | iterate (step : Value → Code Prog Prog)
  /-- Ends an uncancelable region. -/
  | restore (link : Link)
  /-- Turns the result into a value. -/
  | attempt
  /-- Combines the values of two sides. -/
  | combine (f : Value → Value → Code Prog Value)
  /-- Uses the resource of a bracket. -/
  | use (g : BracketId) (f : Value → Code Prog Prog)
  /-- Asks for the release of a bracket once its use has ended. -/
  | release (g : BracketId)
  /-- Opens the gate of a bracket once its release has ended. -/
  | openGate (g : BracketId)
  /-- Ends a bracket whose use ended with `r`. -/
  | endBracket (g : BracketId) (r : Result)
  /-- Runs the remaining tokens of a cancellation, the one of the connection `of` if that is set;
  `current` is at work, and `first` is the first failure so far. -/
  | sweep (of : Link) (current : Token) (rest : List Token) (first : Option Error)
  /-- Ends a step whose clean-up has been run. -/
  | endStep (s : StepId)
  /-- Publishes the cancellation of a fiber. -/
  | publishCancelled (f : FiberId)
  /-- Enters a fiber that was just started into a scope. -/
  | track (s : ScopeId)
  /-- Looks at the outcome of a fiber and waits for the remaining ones. -/
  | join (rest : List FiberId)
  /-- Waits for the value of a fiber. -/
  | thenJoin (f : FiberId)

/-- Who receives the result of a loop. -/
inductive Sink where
  | discard
  /-- Reports an error as a warning. -/
  | warn (w : Warning)
  /-- An observed run. -/
  | observer (r : RunId)
  /-- A fiber publishes its outcome. -/
  | fiber (f : FiberId)
  /-- A bracket whose acquisition has ended. -/
  | acquired (g : BracketId)
  /-- A bracket whose resource was released because the execution was cancelled meanwhile. -/
  | lateRelease (g : BracketId)
  /-- One side of a fork. -/
  | side (k : ForkId) (s : Side)
  /-- A fork that ends with `r` now that its other side is cancelled. -/
  | settle (k : ForkId) (r : Result)
  /-- A duel that ends with a failure now that its other fiber is cancelled; `none` stands for
  cancellation. -/
  | fail (k : DuelId) (cause : Option Error)

/-- An execution, apart from what it interprets next. -/
structure Loop where
  id : ExecutionId
  link : Link
  stack : List Frame
  sink : Sink

/-- What a loop interprets next. -/
inductive Node where
  | program (p : Prog)
  | result (r : Result)
  | token (t : Token)
  /-- Runs tokens in order, uncancelably: those taken from the connection `of`, if that is set. -/
  | sweep (of : Link) (ts : List Token)
  /-- Runs the release action of a bracket, uncancelably. -/
  | release (g : BracketId) (resource : Value) (x : ExitCase)
  /-- Waits until the release of a bracket is over. -/
  | gate (g : BracketId)

/-- What a loop at hand is busy with. -/
inductive Stage where
  /-- It looks at what comes next. -/
  | looking (n : Node)
  /-- It hands a result to its frames. -/
  | handing (r : Result)
  /-- A closure computes a result. -/
  | delaying (c : Code Prog (Except Error Value))
  /-- A closure computes the next program. -/
  | suspending (c : Code Prog Prog)
  /-- A closure transforms a value. -/
  | mapping (c : Code Prog Value)
  /-- The registration of a boundary is over. -/
  | leaving (b : BoundaryId)

/-- Where a loop waits for a completion. -/
inductive Boundary where
  /-- The step is being registered. -/
  | registering
  /-- The step was completed before its registration was over. -/
  | ready (r : Result)
  /-- The loop waits here. -/
  | parked (l : Loop)
  /-- The loop went on. -/
  | resumed

/-- The clean-up of an interruptible step. -/
inductive Slot where
  /-- The registration has not returned it yet. -/
  | pending
  | filled (c : Cleanup)
  /-- The step was cancelled. -/
  | cancelRequested
  deriving DecidableEq, Repr

/-- Where the completion of a step comes from. -/
inductive Source where
  /-- User code: a callback, or a registration that panics. -/
  | user
  /-- The outcome of a fiber. -/
  | outcome (f : FiberId)
  /-- The permits of a semaphore. -/
  | permits (s : SemaphoreId)
  /-- The gate of a bracket. -/
  | gate (g : BracketId)
  | executor
  /-- A job of the outside world. -/
  | job
  deriving DecidableEq, Repr

/-- An interruptible step; `live` until the first completion. -/
structure Step where
  source : Source
  link : Link
  live : Bool := true
  slot : Slot := .pending
  deriving DecidableEq, Repr

/-- The resource of a bracket. -/
inductive Resource where
  | acquiring
  | held (v : Value)
  /-- A path has taken the release. -/
  | taken

/-- The gate that opens when the release of a bracket is over. -/
inductive Gate where
  | closed (waiters : List StepId)
  | opened
  deriving DecidableEq, Repr

/-- An open bracket. -/
structure Bracket where
  /-- The execution that opened it. -/
  owner : ExecutionId
  link : Link
  release : Release Prog
  resource : Resource := .acquiring
  gate : Gate := .closed []

/-- The bracket once a step waits at its gate. -/
def Bracket.await (s : StepId) (br : Bracket) : Bracket :=
  match br.gate with
  | .closed waiters => { br with gate := .closed (waiters ++ [s]) }
  | .opened => br

/-- The bracket after a path has asked for its release: a resource that is there is taken. -/
def Bracket.take (br : Bracket) : Bracket :=
  match br.resource with
  | .held _ => { br with resource := .taken }
  | _ => br

/-- How a fork ends. -/
inductive ForkKind where
  /-- With the first result. -/
  | first
  /-- With both values, or the first error. -/
  | both
  deriving DecidableEq, Repr

/-- Two sides that run under connections of their own. -/
structure Fork where
  kind : ForkKind
  parent : Link
  left : ConnectionId
  right : ConnectionId
  settled : Bool := false
  leftValue : Option Value := none
  rightValue : Option Value := none

/-- Two fibers of which the first to finish decides. -/
structure Duel where
  parent : Link
  left : FiberId
  right : FiberId
  settled : Bool := false
  deriving DecidableEq, Repr

/-! ## Boundaries and their keepers -/

/-- What completes a boundary. -/
inductive Keeper where
  /-- A callback, or the registration that panics. -/
  | callback
  | step (s : Step)
  | bracket (br : Bracket)
  | fork (f : Fork)
  /-- A duel, once both of its fibers are there. -/
  | duel (d : Option Duel)

namespace Keeper

/-- Changes the step. -/
def mapStep (f : Step → Step) : Keeper → Keeper
  | step s => step (f s)
  | x => x

/-- Changes the bracket. -/
def mapBracket (f : Bracket → Bracket) : Keeper → Keeper
  | bracket br => bracket (f br)
  | x => x

/-- Changes the fork. -/
def mapFork (f : Fork → Fork) : Keeper → Keeper
  | fork k => fork (f k)
  | x => x

/-- Changes the duel. -/
def mapDuel (f : Option Duel → Option Duel) : Keeper → Keeper
  | duel d => duel (f d)
  | x => x

end Keeper

theorem size_keepers_empty : (#[] : Array Keeper).size = (#[] : Array Boundary).size := rfl

/-- All boundaries, each with its keeper under the same index. -/
structure Boundaries where
  cells : Array Boundary := #[]
  keepers : Array Keeper := #[]
  aligned : keepers.size = cells.size := by exact size_keepers_empty

namespace Boundaries

/-- How many there are, which is the index of the next one. -/
def size (bs : Boundaries) : Nat := bs.cells.size

/-- Opens a boundary whose step is being registered. -/
def push (x : Keeper) (bs : Boundaries) : Boundaries where
  cells := bs.cells.push .registering
  keepers := bs.keepers.push x
  aligned := by rw [Array.size_push, Array.size_push, bs.aligned]

/-- Replaces the state of a boundary. -/
def set (b : BoundaryId) (x : Boundary) (bs : Boundaries) : Boundaries where
  cells := bs.cells.setIfInBounds b x
  keepers := bs.keepers
  aligned := by rw [Array.size_setIfInBounds, bs.aligned]

/-- Changes the keeper of a boundary. -/
def modify (b : BoundaryId) (f : Keeper → Keeper) (bs : Boundaries) : Boundaries where
  cells := bs.cells
  keepers := bs.keepers.modify b f
  aligned := by rw [Array.size_modify, bs.aligned]

end Boundaries

/-! ## Other objects -/

/-- Who is told the outcome of a fiber. -/
inductive Listener where
  | step (s : StepId)
  | duel (k : DuelId) (s : Side)
  deriving DecidableEq, Repr

/-- An execution of its own, with the outcome it publishes. -/
structure Fiber where
  connection : ConnectionId
  promise : Promise Listener (Outcome Value) := .empty

/-- The fibers started together, oldest first, and where they run. -/
structure Scope where
  executor : Executor
  fibers : List FiberId := []
  deriving DecidableEq, Repr

/-- A run that somebody observes. -/
structure Run where
  /-- The name under which the delivery of the result is logged. -/
  label : Option String := none
  /-- The connection through which the run can be cancelled. -/
  link : Link := none
  results : List Result := []
  /-- The run was cancelled and has ended without a result. -/
  silent : Bool := false
  /-- The job to wake when the result arrives. -/
  waker : Option JobId := none

/-- A run that starts when it is first polled. -/
structure Future where
  program : ProgramId
  run : Option RunId := none
  finished : Bool := false
  deriving DecidableEq, Repr

/-- Work of the outside world that ends a step. -/
inductive Job where
  /-- Waits for a moment. -/
  | timer (due : Nat) (s : StepId)
  /-- Calls a closure. -/
  | call (thunk : Code Prog Value) (s : StepId)
  /-- Polls a future. -/
  | poll (f : FutureId) (s : StepId)
  /-- Drops a future. -/
  | drop (f : FutureId)
  | over

/-- What is left of a job that is given up. -/
def Job.abandoned : Job → Job
  | .poll f _ => .drop f
  | _ => .over

/-- Work handed to an executor. -/
inductive Task where
  /-- Runs one side of a fork. -/
  | side (p : Prog) (c : ConnectionId) (k : ForkId) (s : Side)
  /-- Runs the program of a fiber. -/
  | fiber (p : Prog) (c : ConnectionId) (f : FiberId)
  /-- Completes a step. -/
  | resume (s : StepId)
  /-- Goes on with a job. -/
  | job (j : JobId)

/-- What user code completes with a callback. -/
inductive Callback where
  | boundary (b : BoundaryId)
  | step (s : StepId)
  deriving DecidableEq, Repr

/-- What is completed. -/
inductive Completer where
  | boundary (b : BoundaryId)
  /-- A boundary, by user code. -/
  | callback (b : BoundaryId)
  /-- A step, from where its completion comes. -/
  | step (s : StepId) (source : Source)
  deriving DecidableEq, Repr

/-- Everything that exists. Objects are known by their index and are never removed. -/
structure Store where
  /-- How many executions have begun. -/
  executions : Nat := 0
  connections : Array Connection := #[]
  boundaries : Boundaries := {}
  callbacks : Array (Option Callback) := #[]
  fibers : Array Fiber := #[]
  scopes : Array Scope := #[]
  semaphores : Array (Semaphore StepId) := #[]
  programs : Array Prog := #[]
  runs : Array Run := #[]
  futures : Array Future := #[]
  jobs : Array Job := #[]
  /-- The shared variables that are set. -/
  shared : List (Name × Value) := []
  /-- The tasks of the named queues, oldest first. -/
  queues : List (String × List Task) := []
  /-- The tasks of the pool of threads, oldest first. -/
  ready : List Task := []
  /-- The time, in milliseconds. -/
  now : Nat := 0
  /-- The connection of a run that the command in progress may cancel. -/
  inHand : Link := none
  /-- What happened so far. -/
  history : Array Event := #[]

/-- One pending call. -/
inductive Activity where
  /-- An execution begins. -/
  | start (n : Node) (link : Link) (k : Sink)
  /-- A loop is at work. -/
  | work (s : Stage) (l : Loop)
  /-- A closure registers a boundary. -/
  | registering (c : Code Prog Unit) (b : BoundaryId)
  /-- A closure registers a step and computes its clean-up. -/
  | registeringStep (c : Code Prog Prog) (s : StepId)
  /-- The registration of a step returned its clean-up. -/
  | fillSlot (s : StepId) (c : Cleanup)
  /-- An execution has ended, and its sink receives the result. -/
  | deliver (e : ExecutionId) (k : Sink) (r : Result)
  /-- A boundary or step is completed. -/
  | complete (c : Completer) (r : Result)
  /-- A listener is told the outcome of a fiber. -/
  | notify (f : FiberId) (l : Listener) (o : Outcome Value)
  /-- A listener is registered at a fiber. -/
  | listen (f : FiberId) (l : Listener)
  /-- A task is handed to an executor. -/
  | execute (on : Executor) (t : Task)
  /-- The right fiber of a duel is started. -/
  | startRight (left : FiberId) (right : Prog) (on : Executor) (parent : Link) (k : DuelId)
  /-- The fibers of a duel are tied together. -/
  | tie (left right : FiberId) (parent : Link) (k : DuelId)
  /-- A closure of the outside world computes the value of a step. -/
  | calling (c : Code Prog Value) (s : StepId)
  /-- A future is polled for a job. -/
  | polling (j : JobId)

/-- The calls that follow a step, innermost first, and the store they find. -/
abbrev Next := Store × List Activity

/-- How a loop goes on: the store it leaves and the calls it makes first, and then its next stage,
its connection, and the frames it puts on top of its stack. -/
structure Turn where
  store : Store
  calls : List Activity := []
  stage : Stage
  link : Link
  frames : List Frame := []

/-- The loop goes on. -/
def Turn.on (t : Turn) (l : Loop) : Next :=
  (t.store, t.calls ++ [.work t.stage { l with link := t.link, stack := t.frames ++ l.stack }])

end CancelableEffects
