import CancelableEffects.Either
import CancelableEffects.Scenario.Command
import CancelableEffects.Threads

/-!
# Questions — scenarios of one step that need no machine

* `Question`: asks for all that can be seen of an error, an alternative, an outcome, an exit or a
  configuration of threads.
* `Question.answer`: the answer.
-/

namespace CancelableEffects.Scenario

/-- A written exit case. -/
inductive ExitTerm where
  | completed
  | cancelled
  | error (x : Fault)
  deriving Repr

/-- Something to ask about a value. -/
inductive Question where
  | error (x : Fault)
  | either (x other : Either Int Int) (k : Int)
  /-- The outcome of a result, or cancellation where there is none, and its image under an
  expression in `x`. -/
  | outcome (o : Option Answer) (image : Expr)
  | exit (x : ExitTerm)
  /-- The configuration that variables and settings give, the name of a worker if wanted, and the
  threads of so many tasks. -/
  | threads (environment : List (String × String)) (settings : List Setting) (worker : Bool)
    (tasks : Option Nat)
  deriving Repr

/-- All that can be seen of an error. -/
def describeError (e : Error) : Form :=
  .obj [("value", e.form), ("debug", .str e.debug), ("cause", .str e.cause.text),
    ("is_cancelled", .bool e.isCancelled), ("is_panic", .bool e.isPanic),
    ("is_timeout", .bool e.isTimeout), ("sources", .strings e.sources),
    ("boom", Form.ofOption .str e.boom?),
    ("timeout_nanos", Form.ofOption (fun d => .str (toString d.nanos)) e.timeout?),
    ("io", Form.ofOption .str e.custom?), ("clone_kind", .str e.cause.kind),
    ("raised", Result.form (.error e)), ("outcome", (Outcome.ofResult (.error e)).form)]

/-- The outer shape of an alternative of integers. -/
def eitherForm : Either Int Int → Form
  | .left n => .obj [("left", .int n)]
  | .right n => .obj [("right", .int n)]

/-- The name of a comparison's result. -/
def orderName : Ordering → String
  | .lt => "Less"
  | .eq => "Equal"
  | .gt => "Greater"

/-- All that can be seen of an alternative beside another one. -/
def describeEither (x other : Either Int Int) (k : Int) : Form :=
  let shift (n : Int) : Int := Integer.wrap (n + k)
  .obj [("debug", .str (x.text toString toString)), ("is_left", .bool x.isLeft),
    ("is_right", .bool x.isRight), ("left", Form.ofOption .int x.left?),
    ("right", Form.ofOption .int x.right?), ("map_left", eitherForm (x.mapLeft shift)),
    ("map_right", eitherForm (x.mapRight shift)),
    ("fold", .str (x.fold (fun n => "l" ++ toString n) fun n => "r" ++ toString n)),
    ("swap", eitherForm x.swap), ("inner", .int x.inner), ("eq", .bool (x == other)),
    ("cmp", .str (orderName (x.compare other)))]

/-- All that can be seen of an outcome and its image. -/
def describeOutcome (o image : Outcome Value) : Form :=
  .obj [("value", o.form), ("is_completed", .bool o.isCompleted),
    ("is_cancelled", .bool o.isCancelled), ("mapped", image.form),
    ("result", Result.form o.toResult)]

/-- All that can be seen of an exit case. -/
def describeExit (x : ExitCase) : Form :=
  .obj [("value", x.form),
    ("is", .arr [.bool x.isCompleted, .bool x.isError, .bool x.isCancelled]),
    ("debug", .str x.debug)]

/-- All that can be seen of a configuration. -/
def describeThreads (c : ThreadConfig) (worker : Bool) (tasks : Option Nat) : Form :=
  let used : List (String × Form) := match tasks with
    | none => []
    | some n =>
      let (pool, names) := c.pool.spawnMany n
      [("threads", .strings names), ("executor", .str pool.debug)]
  .obj ([("worker_threads", match c.workers with
      | none => .str "default"
      | some n => .nat n),
    ("max_blocking_threads", .nat c.maxBlocking), ("thread_name", .str c.name),
    ("thread_stack_size", Form.ofOption .nat c.stackSize),
    ("default", Form.ofOption .bool c.isDefault?)] ++
    (if worker then [("runs_on", .str c.name)] else []) ++ used)

/-- All that can be seen of a refused configuration. -/
def describeConfigError (e : ConfigError) : Form :=
  .obj [("error", .str e.kind), ("message", .str e.message), ("fields", .strings e.fields)]

/-- The exit case that is written. -/
def ExitTerm.eval : ExitTerm → Code Prog ExitCase
  | completed => .ret .completed
  | cancelled => .ret .cancelled
  | error x => do return .error (← x.eval [])

/-- The outcome of the written result, or cancellation. -/
def evalOutcome : Option Answer → Code Prog (Outcome Value)
  | none => .ret .cancelled
  | some o => do return .ofResult (← o.eval [])

/-- What is done to find the answer. -/
def Question.code : Question → Code Prog Form
  | error x => do return describeError (← x.eval [])
  | either x other k => .ret (describeEither x other k)
  | outcome o image => do
    let o ← evalOutcome o
    return describeOutcome o (← o.mapM fun v => image.eval [("x", v)])
  | exit x => do return describeExit (← x.eval)
  | threads environment settings worker tasks =>
    match ThreadConfig.ofVariables (List.lookup · environment) with
    | .ok c =>
      let c := settings.foldl ThreadConfig.set c
      match c.startFault? worker (tasks.getD 0) with
      | some fault => .panic fault
      | none => .ret (describeThreads c worker tasks)
    | .error e => .ret (describeConfigError e)

/-- The answer to a question; a panic is an answer, too. -/
def Question.answer (limits : Limits) (q : Question) : Form := (Store.reply limits q.code {}).2

end CancelableEffects.Scenario
