import CancelableEffects.Machine.State

/-!
# The store — creating, reading and changing objects

* `Store.emit`: records an event.
* `Store.isCancelled`, `Store.push`, `Store.popToken`, `Store.cancel`: connections.
* `Store.getVariable`, `Store.setVariable`, `Store.enqueue`: shared variables and queues.
* `Store.takeRelease`, `Store.openGate`: the two ways to a bracket's release.
* `Store.publish`: the outcome of a fiber.

A function that calls back into programs gives the calls as activities, in the order of the calls.
-/

namespace CancelableEffects

namespace Store

/-- Records an event. -/
def emit (e : Event) (σ : Store) : Store := { σ with history := σ.history.push e }

/-- Records an event, if there is one. -/
def emit? (e : Option Event) (σ : Store) : Store :=
  { σ with history := σ.history ++ e.toList }

/-! ## Connections -/

/-- Whether the linked connection was cancelled. -/
def isCancelled (link : Link) (σ : Store) : Bool :=
  match link with
  | none => false
  | some c => (σ.connections[c]?.map Connection.isCancelled).getD false

/-- Creates an active connection. -/
def newConnection (σ : Store) : Store × ConnectionId :=
  let i := σ.connections.size
  ({ σ with connections := σ.connections.push .fresh }, i)

/-- Changes the linked connection. -/
def modifyConnection (link : Link) (f : Connection → Connection) (σ : Store) : Store :=
  { σ with connections := match link with
      | none => σ.connections
      | some c => σ.connections.modify c f }

/-- The linked connection. -/
def connection? (link : Link) (σ : Store) : Option Connection := link.bind (σ.connections[·]?)

/-- Registers a token. Without a connection it is dropped; on a cancelled one it runs at once. -/
def push (link : Link) (t : Token) (σ : Store) : Next :=
  (σ.modifyConnection link fun conn => (conn.push t).getD conn,
    if σ.isCancelled link then [.start (.token t) none (.warn .pushedToken)] else [])

/-- Removes the newest token of the linked connection. -/
def popToken (link : Link) (σ : Store) : Store × Option Token :=
  (σ.modifyConnection link fun conn => conn.pop.1, (σ.connection? link).bind (·.pop.2))

/-- Removes the newest token of the linked connection and forgets it. -/
def dropToken (link : Link) (σ : Store) : Store := (σ.popToken link).1

/-- Cancels the linked connection and takes its tokens, newest first. -/
def cancel (link : Link) (σ : Store) : Store × Option (List Token) :=
  let taken := (σ.connection? link).bind (·.cancel.2)
  ((σ.modifyConnection link fun conn => conn.cancel.1).emit?
    (link.bind fun c => taken.map fun ts => .cancelling c ts.length), taken)

/-! ## Executions, programs, callbacks, variables and queues -/

/-- Begins an execution: its loop has no frames yet. -/
def begin (link : Link) (k : Sink) (σ : Store) : Store × Loop :=
  let e := σ.executions
  ({ σ with executions := e + 1 }, ⟨e, link, [], k⟩)

/-- Stores a program. -/
def keep (p : Prog) (σ : Store) : Store × ProgramId :=
  let i := σ.programs.size
  ({ σ with programs := σ.programs.push p }, i)

/-- Hands a callback to user code. -/
def newCallback (c : Callback) (σ : Store) : Store × CallbackId :=
  let i := σ.callbacks.size
  ({ σ with callbacks := σ.callbacks.push (some c) }, i)

/-- Uses a callback up. -/
def takeCallback (c : CallbackId) (σ : Store) : Store × Option Callback :=
  let k := σ.callbacks[c]?.join
  ({ σ with callbacks := σ.callbacks.setIfInBounds c none }, k)

/-- Registers a clean-up program on the linked connection. -/
def pushProgram (link : Link) (p : Prog) (σ : Store) : Next :=
  let (σ, i) := σ.keep p
  σ.push link (.cleanup (.program i))

/-- User code answers a callback, which is used up. -/
def answer (c : CallbackId) (r : Result) (σ : Store) : Next :=
  let (σ, k) := σ.takeCallback c
  (σ, match k with
    | some (.boundary b) => [.complete (.callback b) r]
    | some (.step s) => [.complete (.step s .user) r]
    | none => [])

/-- The value of a shared variable. -/
def getVariable (x : Name) (σ : Store) : Option Value := σ.shared.lookup x

/-- Sets or clears a shared variable. -/
def setVariable (x : Name) (v : Option Value) (σ : Store) : Store :=
  let others := σ.shared.filter (·.1 ≠ x)
  { σ with shared := match v with
      | none => others
      | some v => (x, v) :: others }

/-- The tasks of a named queue, oldest first. -/
def queue (name : String) (σ : Store) : List Task := (σ.queues.lookup name).getD []

/-- Replaces the tasks of a named queue. -/
def setQueue (name : String) (ts : List Task) (σ : Store) : Store :=
  { σ with queues := (name, ts) :: σ.queues.filter (·.1 ≠ name) }

/-- Appends a task to a named queue. -/
def enqueue (name : String) (t : Task) (σ : Store) : Store := σ.setQueue name (σ.queue name ++ [t])

/-- Creates a job of the outside world. -/
def newJob (j : Job) (σ : Store) : Store × JobId :=
  let i := σ.jobs.size
  ({ σ with jobs := σ.jobs.push j }, i)

/-- Replaces a job. -/
def setJob (i : JobId) (j : Job) (σ : Store) : Store := { σ with jobs := σ.jobs.setIfInBounds i j }

/-- Makes a job ready to go on. -/
def wake (i : JobId) (σ : Store) : Store := { σ with ready := σ.ready ++ [.job i] }

/-- Gives up a job. One that polls a future still has to drop it. -/
def abandon (i : JobId) (σ : Store) : Store :=
  { σ with
    jobs := σ.jobs.modify i Job.abandoned
    ready := σ.ready ++ match σ.jobs[i]? with
      | some (.poll _ _) => [.job i]
      | _ => [] }

/-- Creates a future that runs a program. -/
def newFuture (p : Prog) (σ : Store) : Store × FutureId :=
  let (σ, i) := σ.keep p
  let f := σ.futures.size
  ({ σ with futures := σ.futures.push { program := i } }, f)

/-! ## Boundaries and steps -/

/-- The state of a boundary. -/
def boundary? (b : BoundaryId) (σ : Store) : Option Boundary := σ.boundaries.cells[b]?

/-- What completes a boundary. -/
def keeper? (b : BoundaryId) (σ : Store) : Option Keeper := σ.boundaries.keepers[b]?

/-- Creates a boundary whose step is being registered. -/
def newBoundary (x : Keeper) (σ : Store) : Store × BoundaryId :=
  let i := σ.boundaries.size
  ({ σ with boundaries := σ.boundaries.push x }, i)

/-- Replaces the state of a boundary. -/
def setBoundary (b : BoundaryId) (x : Boundary) (σ : Store) : Store :=
  { σ with boundaries := σ.boundaries.set b x }

/-- Changes what completes a boundary. -/
def modifyKeeper (b : BoundaryId) (f : Keeper → Keeper) (σ : Store) : Store :=
  { σ with boundaries := σ.boundaries.modify b f }

/-- The interruptible step with the index. -/
def step? (s : StepId) (σ : Store) : Option Step :=
  match σ.keeper? s with
  | some (.step x) => some x
  | _ => none

/-- Changes a step. -/
def modifyStep (s : StepId) (f : Step → Step) (σ : Store) : Store :=
  σ.modifyKeeper s (Keeper.mapStep f)

/-- Ends the wait of steps: the calls that complete them with the unit value. -/
def completeSteps (source : Source) (ss : List StepId) : List Activity :=
  ss.map fun s => .complete (.step s source) (.ok .unit)

/-! ## Brackets -/

/-- The bracket with the index. -/
def bracket? (g : BracketId) (σ : Store) : Option Bracket :=
  match σ.keeper? g with
  | some (.bracket br) => some br
  | _ => none

/-- Changes a bracket. -/
def modifyBracket (g : BracketId) (f : Bracket → Bracket) (σ : Store) : Store :=
  σ.modifyKeeper g (Keeper.mapBracket f)

/-- The connection under which a bracket was opened. -/
def bracketLink (g : BracketId) (σ : Store) : Link := (σ.bracket? g).bind Bracket.link

/-- The resource of a bracket, while nobody has taken its release. -/
def held? (g : BracketId) (σ : Store) : Option Value :=
  match (σ.bracket? g).map Bracket.resource with
  | some (.held v) => some v
  | _ => none

/-- Takes the release of a bracket. Who comes too late, or before the resource is there, waits at
the gate. -/
def takeRelease (g : BracketId) (x : ExitCase) (σ : Store) : Store × Node :=
  ((σ.modifyBracket g Bracket.take).emit? ((σ.held? g).map fun _ => .releasing g x),
    match σ.held? g with
    | some v => .release g v x
    | none => .gate g)

/-- Opens the gate of a bracket and resumes those who wait there. -/
def openGate (g : BracketId) (σ : Store) : Next :=
  let waiters := match (σ.bracket? g).map Bracket.gate with
    | some (.closed ws) => ws
    | _ => []
  (σ.modifyBracket g fun br => { br with gate := .opened }, completeSteps (.gate g) waiters)

/-! ## Fibers and forks -/

/-- Creates a fiber with a connection of its own. -/
def newFiber (σ : Store) : Store × FiberId :=
  let (σ, c) := σ.newConnection
  let f := σ.fibers.size
  ({ σ with fibers := σ.fibers.push { connection := c } }.emit (.fiberStarted f), f)

/-- The connection of a fiber. -/
def fiberLink (f : FiberId) (σ : Store) : Link := σ.fibers[f]?.map Fiber.connection

/-- The outcome of a fiber, once it is published. -/
def outcome? (f : FiberId) (σ : Store) : Option (Outcome Value) :=
  σ.fibers[f]?.bind (·.promise.get)

/-- Changes the promise of a fiber. -/
def modifyPromise (f : FiberId)
    (change : Promise Listener (Outcome Value) → Promise Listener (Outcome Value)) (σ : Store) :
    Store :=
  { σ with
    fibers := σ.fibers.modify f fun fiber => { fiber with promise := change fiber.promise } }

/-- Publishes the outcome of a fiber, unless there is one, and tells the listeners. -/
def publish (f : FiberId) (o : Outcome Value) (σ : Store) : Next :=
  let listeners := (σ.fibers[f]?.map fun fiber => (fiber.promise.fulfil o).2).getD []
  (σ.modifyPromise f fun p => (p.fulfil o).1, listeners.map (.notify f · o))

/-- Registers a listener at a fiber: its number, or the outcome that is known. -/
def listen (f : FiberId) (l : Listener) (σ : Store) : Store × Option (Nat ⊕ Outcome Value) :=
  (σ.modifyPromise f fun p => (p.listen l).1,
    σ.fibers[f]?.map fun fiber => (fiber.promise.listen l).2)

/-- Takes a listener out. -/
def unlisten (f : FiberId) (n : Nat) (σ : Store) : Store := σ.modifyPromise f (·.remove n)

/-- The fork with the index. -/
def fork? (k : ForkId) (σ : Store) : Option Fork :=
  match σ.keeper? k with
  | some (.fork f) => some f
  | _ => none

/-- Changes a fork. -/
def modifyFork (k : ForkId) (f : Fork → Fork) (σ : Store) : Store :=
  σ.modifyKeeper k (Keeper.mapFork f)

/-- The duel with the index, once both of its fibers are there. -/
def duel? (k : DuelId) (σ : Store) : Option Duel :=
  match σ.keeper? k with
  | some (.duel d) => d
  | _ => none

/-- Changes a duel. -/
def modifyDuel (k : DuelId) (f : Option Duel → Option Duel) (σ : Store) : Store :=
  σ.modifyKeeper k (Keeper.mapDuel f)

/-- Starts a fiber: creates it and hands its program to the executor. -/
def startFiber (p : Prog) (on : Executor) (σ : Store) : Next × FiberId :=
  let (σ, f) := σ.newFiber
  ((σ, [.execute on (.fiber p (σ.fibers[f]?.map (·.connection) |>.getD 0) f)]), f)

end Store

end CancelableEffects
