import CancelableEffects.Machine.Run
import CancelableEffects.Scenario.Term

/-!
# Commands — the steps of a scenario

* `Command`: what a scenario can ask of a machine.
* `Command.perform`: carries a command out and gives the reply.
* `Scenario.run`: carries commands out in turn, and gives each reply with what was recorded
  meanwhile.

A command about an unknown name changes nothing, and a panic that leaves a command is its reply. An
object that takes over a name lets go of the one that had it; a future is dropped by that.
-/

namespace CancelableEffects.Scenario

/-- How a program is run. -/
inductive Via where
  /-- Without a way to cancel it; the reply does not wait. -/
  | async
  /-- With a way to cancel it; the reply does not wait. -/
  | cancelable
  /-- The reply waits for the result. -/
  | sync
  /-- The reply waits for the result, for a limited time, and then cancels the run. -/
  | timed (limit : Duration)
  /-- The reply waits for the result; an error is a panic. -/
  | forced
  /-- The program is polled as a future until it has a result. -/
  | future
  deriving DecidableEq, Repr

/-- What can be shown in its debug form. -/
inductive Shown where
  | connection
  | semaphore
  | fiber
  | scope
  | task
  | run
  | callback
  | program
  deriving DecidableEq, Repr

/-- A step of a scenario. -/
inductive Command where
  | run (p : Term) (via : Via) (name : Option String)
  | get (run : String)
  | dispose (run : String)
  | isDisposed (run : String)
  | make (name : String) (p : Term)
  | dropProgram (name : String)
  | connection (name : String) (cancelable : Bool)
  | pushPair (connection left right : String)
  | dropToken (connection : String)
  | connectionState (connection : String)
  | semaphore (name : String) (permits : Nat)
  | complete (callback : String) (o : Answer)
  | dropCallback (callback : String)
  /-- Runs up to `n` tasks of a queue, each taken from the same place. -/
  | tick (queue : String) (n place : Nat)
  | fiber (fiber : String)
  | task (task : String)
  | future (name : String) (p : Term)
  | poll (future : String)
  | dropFuture (future : String)
  | debug (kind : Shown) (name : String)
  deriving Repr

/-- How long a machine may work: the steps in one turn, and the turns of the outside world. -/
structure Limits where
  steps : Nat
  turns : Nat
  deriving DecidableEq, Repr

/-- The reply to a command about an unknown name. -/
def unknown : Form := .str "unknown name"

/-- The reply to a command that panics. -/
def panicked (message : String) : Form :=
  .obj [("error", .str "panic"), ("message", .str message)]

end Scenario

open Scenario

namespace Store

/-! ## Reading objects -/

/-- The object of the wanted kind that goes by a name. -/
def find {α : Type} (kind : Kind) (pick : Handle → Option α) (x : String) (σ : Store) : Option α :=
  (σ.getVariable ⟨kind, x⟩).bind Value.handle? |>.bind pick

/-- Answers a command about an object, if there is one of that name. -/
def withObject {α : Type} (kind : Kind) (pick : Handle → Option α) (x : String)
    (f : α → Store → Store × Form) (σ : Store) : Store × Form :=
  match σ.find kind pick x with
  | some a => f a σ
  | none => (σ, unknown)

/-- The reply that shows the results of an observed run. -/
def status (r : RunId) (σ : Store) : Form :=
  match (σ.runs[r]?.map Run.results).getD [] with
  | [] => .str "pending"
  | [x] => Result.form x
  | xs => .obj [("calls", .arr (xs.map Result.form))]

/-- Whether an observed run has a result. -/
def hasResult (r : RunId) (σ : Store) : Bool := (σ.runs[r]?.map Run.results).getD [] ≠ []

/-- The first result of an observed run. -/
def result? (r : RunId) (σ : Store) : Option Result := (σ.runs[r]?.map Run.results).getD [] |>.head?

/-- What can be seen of a fiber: whether it was cancelled, and its outcome. -/
def fiberFields (f : FiberId) (σ : Store) : List (String × Form) :=
  [("cancelled", .bool (σ.isCancelled (σ.fiberLink f))),
    ("outcome", Form.ofOption Outcome.form (σ.outcome? f))]

/-- The debug form of a connection. -/
def connectionDebug (link : Link) (σ : Store) : String :=
  "Connection \x7b cancelable: " ++ toString link.isSome ++ ", cancelled: " ++
    toString (σ.isCancelled link) ++ " \x7d"

/-- The debug form of a fiber. -/
def fiberDebug (f : FiberId) (σ : Store) : String :=
  "Fiber \x7b id: FiberId(" ++ toString (FiberId.number f) ++ "), connection: " ++
    σ.connectionDebug (σ.fiberLink f) ++ ", .. \x7d"

/-- The debug form of the object that goes by a name. -/
def debug (kind : Shown) (x : String) (σ : Store) : Option String :=
  match kind with
  | .connection => (σ.find .connection Handle.connection? x).map σ.connectionDebug
  | .semaphore =>
    (σ.find .semaphore Handle.semaphore? x).bind fun s => σ.semaphores[s]?.map Semaphore.debug
  | .fiber => (σ.find .fiber Handle.fiber? x).map σ.fiberDebug
  | .scope =>
    (σ.find .scope Handle.scope? x).bind fun s => σ.scopes[s]?.map fun sc =>
      "Scope \x7b tasks: " ++ toString sc.fibers.length ++ ", .. \x7d"
  | .task =>
    (σ.find .task Handle.task? x).map fun t =>
      "Deferred \x7b fiber: " ++ σ.fiberDebug t.1 ++ ", .. \x7d"
  | .run =>
    (σ.find .run Handle.cancelableRun? x).map fun c =>
      "Disposable \x7b connection: " ++ σ.connectionDebug (some c) ++ " \x7d"
  | .callback => (σ.getVariable ⟨.callback, x⟩).map fun _ => "Callback(..)"
  | .program => (σ.find .program Handle.program? x).map fun _ => "IO(<deferred>)"

/-! ## Running programs -/

/-- Carries out a closure that gives a reply; a panic is the reply, too. -/
def reply (limits : Limits) (c : Code Prog Form) (σ : Store) : Store × Form :=
  match c.perform limits.steps σ with
  | (σ, .ok x) => (σ, x)
  | (σ, .error m) => (σ, panicked m)

/-- Builds a program and goes on with it; a panic is the reply. -/
def withProgram (limits : Limits) (p : Term) (f : Prog → Store → Store × Form) (σ : Store) :
    Store × Form :=
  match (p.build []).perform limits.steps σ with
  | (σ, .ok p) => f p σ
  | (σ, .error m) => (σ, panicked m)

/-- Starts an observed run of a program and lets it work until it ends or waits. -/
def startRun (limits : Limits) (label : Option String) (link : Link) (p : Prog) (σ : Store) :
    Store × RunId :=
  let (σ, r) := σ.newRun label link none
  (σ.exec limits.steps [.start (.program p) link (.observer r)], r)

/-- Runs a program that nobody can cancel, and waits for its result. -/
def runSync (limits : Limits) (p : Prog) (σ : Store) : Store × RunId :=
  let (σ, r) := σ.startRun limits none none p
  (σ.await limits.steps (·.hasResult r) none limits.turns, r)

/-- Cancels a connection and waits for its tokens. -/
def disposeSync (limits : Limits) (link : Link) (σ : Store) : Store × RunId :=
  σ.runSync limits (.cancel link)

/-- Runs a program as told and gives the reply. -/
def runVia (limits : Limits) (name : Option String) (p : Prog) (σ : Store) : Via → Store × Form
  | .async =>
    let (σ, r) := σ.startRun limits name none p
    (match name with
      | some x => σ.setVariable ⟨.run, x⟩ (some (.handle (.run r none)))
      | none => σ, σ.status r)
  | .cancelable =>
    let (σ, c) := σ.newConnection
    let (σ, r) := σ.startRun limits name (some c) p
    (match name with
      | some x => σ.setVariable ⟨.run, x⟩ (some (.handle (.run r (some c))))
      | none => σ, σ.status r)
  | .sync =>
    let (σ, r) := σ.runSync limits p
    (σ, σ.status r)
  | .forced =>
    let (σ, r) := σ.runSync limits p
    match σ.result? r with
    | some (.error e) => (σ, panicked ("IO::run_unsafe failed: " ++ e.message))
    | _ => (σ, σ.status r)
  | .timed limit =>
    let deadline := σ.now + limit.nanos / 1000000
    let (σ, c) := σ.newConnection
    let (σ, r) := { σ with inHand := some c }.startRun limits none (some c) p
    let σ := σ.await limits.steps (·.hasResult r) (some deadline) limits.turns
    if σ.hasResult r then ({ σ with inHand := none }, σ.status r)
    else
      let (σ, d) := { σ with now := max σ.now deadline }.disposeSync limits (some c)
      let σ := { σ with inHand := none }
      match σ.result? d with
      | some (.error e) => (σ, Result.form (.error e))
      | _ => (σ, .str "gave up")
  | .future =>
    let (σ, f) := σ.newFuture p
    let (σ, calls) := σ.startFuture f none
    let σ := (σ.exec limits.steps calls).await limits.steps
      (fun σ => (σ.futureResult f).isSome) none limits.turns
    match σ.futureResult f with
    | some r => (σ.finishFuture f, Result.form r)
    | none => (σ, .str "pending")

/-- Takes a task out of a queue and runs it. -/
def tickOnce (limits : Limits) (queue : String) (place : Nat) (σ : Store) : Option Store :=
  let ts := σ.queue queue
  ts[place]?.map fun t =>
    (σ.setQueue queue (ts.eraseIdx place)).exec limits.steps [.execute .immediate t]

/-- Runs up to `n` tasks of a queue: the store, and how many there were. -/
def tick (limits : Limits) (queue : String) (place : Nat) : Nat → Store → Store × Nat
  | 0, σ => (σ, 0)
  | n + 1, σ =>
    match σ.tickOnce limits queue place with
    | none => (σ, 0)
    | some σ =>
      let (σ, ran) := tick limits queue place n σ
      (σ, ran + 1)

end Store

/-! ## Commands -/

/-- Carries a command out and gives the reply. -/
def Scenario.Command.perform (limits : Limits) (c : Command) (σ : Store) : Store × Form :=
  match c with
  | .run p via name => σ.withProgram limits p fun p σ => σ.runVia limits name p via
  | .get x => σ.withObject .run Handle.run? x fun r σ => (σ, σ.status r)
  | .dispose x => σ.withObject .run Handle.cancelableRun? x fun c σ =>
    let (σ, d) := σ.disposeSync limits (some c)
    (σ, .arr [σ.status d, .bool (σ.isCancelled (some c))])
  | .isDisposed x => σ.withObject .run Handle.cancelableRun? x fun c σ =>
    (σ, .bool (σ.isCancelled (some c)))
  | .make x p => σ.withProgram limits p fun p σ =>
    let (σ, i) := σ.keep p
    (σ.setVariable ⟨.program, x⟩ (some (.handle (.program i))), .null)
  | .dropProgram x => σ.reply limits do return .bool (← Code.takeProgram x).isSome
  | .connection x cancelable =>
    let (σ, link) := if cancelable then σ.newConnection.map id some else (σ, none)
    (σ.setVariable ⟨.connection, x⟩ (some (.handle (.connection link))), .null)
  | .pushPair x left right =>
    match σ.find .connection Handle.connection? x, σ.find .connection Handle.connection? left,
      σ.find .connection Handle.connection? right with
    | some link, some l, some r =>
      let (σ, calls) := σ.push link (.connections l r)
      (σ.exec limits.steps calls, .null)
    | _, _, _ => (σ, unknown)
  | .dropToken x => σ.withObject .connection Handle.connection? x fun link σ =>
    (σ.dropToken link, .null)
  | .connectionState x => σ.withObject .connection Handle.connection? x fun link σ =>
    (σ, .obj [("cancelable", .bool link.isSome), ("cancelled", .bool (σ.isCancelled link))])
  | .semaphore x permits =>
    let i := σ.semaphores.size
    ({ σ with semaphores := σ.semaphores.push { available := permits } }.setVariable
      ⟨.semaphore, x⟩ (some (.handle (.semaphore i))), .null)
  | .complete x o => σ.reply limits do
    match ← Code.takeCallback x with
    | some c => Code.answer c (← o.eval []) (.ret .null)
    | none => return unknown
  | .dropCallback x => σ.reply limits do return .bool (← Code.takeCallback x).isSome
  | .tick q n place =>
    let (σ, ran) := σ.tick limits q place n
    (σ, .obj [("ran", .nat ran), ("queued", .nat (σ.queue q).length)])
  | .fiber x => σ.withObject .fiber Handle.fiber? x fun f σ =>
    (σ, .obj (σ.fiberFields f ++
      [("id", .str (FiberId.text f)), ("raw", .nat (FiberId.number f))]))
  | .task x => σ.withObject .task Handle.task? x fun t σ => (σ, .obj (σ.fiberFields t.1))
  | .future x p => σ.withProgram limits p fun p σ =>
    let replaced := σ.find .future Handle.future? x
    let (σ, f) := σ.newFuture p
    let σ := σ.setVariable ⟨.future, x⟩ (some (.handle (.future f)))
    match replaced with
    | some f =>
      let (σ, calls) := σ.dropFuture f
      (σ.exec limits.steps calls, .null)
    | none => (σ, .null)
  | .poll x => σ.withObject .future Handle.future? x fun f σ =>
    let (σ, calls) := σ.startFuture f none
    let σ := σ.exec limits.steps calls
    match σ.futureResult f with
    | some r => (σ.finishFuture f, Result.form r)
    | none => (σ, .str "pending")
  | .dropFuture x =>
    match σ.find .future Handle.future? x with
    | some f =>
      let (σ, calls) := (σ.setVariable ⟨.future, x⟩ none).dropFuture f
      (σ.exec limits.steps calls, .bool true)
    | none => (σ, .bool false)
  | .debug kind x =>
    match σ.debug kind x with
    | some s => (σ, .str s)
    | none => (σ, unknown)

namespace Scenario

/-- The reply to a command, with what was recorded while it was carried out. -/
structure Record where
  reply : Form
  events : List Event
  deriving Repr

/-- The lines logged while the command was carried out. -/
def Record.log (r : Record) : List String := r.events.filterMap Event.line?

/-- The trace of the command. -/
def Record.trace (r : Record) : List String := r.events.map Event.trace

/-- Carries commands out in turn. -/
def run (limits : Limits) : List Command → Store → List Record
  | [], _ => []
  | c :: cs, σ =>
    let (σ', reply) := c.perform limits σ
    ⟨reply, (σ'.history.extract σ.history.size σ'.history.size).toList⟩ :: run limits cs σ'

end Scenario

end CancelableEffects
