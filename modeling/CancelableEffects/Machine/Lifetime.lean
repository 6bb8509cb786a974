import CancelableEffects.Holding
import CancelableEffects.Machine.Store

/-!
# Lifetimes — which waiting loops can still go on

A loop that waits goes on when its boundary is completed, and only what holds the boundary can lead
to that. An object lasts as long as something outside the machine or another object that lasts
holds it; objects that hold each other last for ever.

* `Object`: what can be held.
* `Token.holds`, `Frame.holds`, `Store.sinkHolds`, `Store.holds`: what an object holds.
* `Store.outside`: what is held from outside the machine.
* `Store.lasting`: the objects that last.
* `Store.canDeliver`: whether an observed run can still deliver a result.
-/

namespace CancelableEffects

/-- What can be held. -/
inductive Object where
  /-- A boundary, with the loop that waits there. -/
  | boundary (b : BoundaryId)
  /-- The right to complete a step. -/
  | completion (s : StepId)
  /-- The clean-up of a step. -/
  | slot (s : StepId)
  | connection (c : ConnectionId)
  | bracket (g : BracketId)
  /-- The gate of a bracket, with those who wait there. -/
  | gate (g : BracketId)
  | fiber (f : FiberId)
  /-- The promise of a fiber, with its listeners. -/
  | promise (f : FiberId)
  | scope (s : ScopeId)
  | semaphore (s : SemaphoreId)
  deriving DecidableEq, Hashable, Repr

/-! ## Actions, frames and sinks -/

/-- The connection of a link. -/
def Link.objects (link : Link) : List Object := (link.map Object.connection).toList

/-- What the clean-up of a step holds. -/
def Cleanup.holds : Cleanup → List Object
  | .idle | .program _ | .abandon _ => []
  | .unlisten f _ => [.promise f]

/-- What a clean-up action holds. -/
def Token.holds : Token → List Object
  | .cleanup c => c.holds
  | .step s => [.completion s, .slot s]
  | .bracket g => [.bracket g]
  | .connection link => Link.objects link
  | .connections a b => Link.objects a ++ Link.objects b
  | .fiber f => [.fiber f]
  | .fibers a b => [.fiber a, .fiber b]

/-- What a release action holds. -/
def Release.holds {P : Type} : Release P → List Object
  | .call _ => []
  | .permit s => [.semaphore s]
  | .scope s => [.scope s]

/-- What a frame holds. -/
def Frame.holds : Frame → List Object
  | .restore link => Link.objects link
  | .release g | .endBracket g _ => [.bracket g]
  | .openGate g => [.gate g]
  | .sweep _ _ ts _ => ts.flatMap Token.holds
  | .endStep s => [.completion s]
  | .publishCancelled f | .thenJoin f => [.promise f]
  | .track s => [.scope s]
  | .join fs => fs.map .fiber
  | .map _ | .bind _ | .recover _ | .fold _ _ | .iterate _ | .attempt | .combine _ | .use _ _ => []

namespace Store

/-- What one holds who may complete a step: the completion takes the step's token off its
connection. -/
def stepHolds (s : StepId) (σ : Store) : List Object :=
  .completion s :: Link.objects ((σ.step? s).bind Step.link)

/-- What one of two sides holds: the boundary until they are settled, the connection of the parent,
and the other side. -/
def sideHolds (settled : Bool) (b : BoundaryId) (parent : Link) (other : Object) : List Object :=
  (if settled then [] else [.boundary b]) ++ Link.objects parent ++ [other]

/-- What a listener holds. -/
def listenerHolds (σ : Store) : Listener → List Object
  | .step s => σ.stepHolds s
  | .duel k side =>
    match σ.duel? k with
    | none => []
    | some d =>
      sideHolds d.settled k d.parent (.fiber (match side with
        | .left => d.right
        | .right => d.left))

/-- What a sink holds. -/
def sinkHolds (σ : Store) : Sink → List Object
  | .discard | .warn _ => []
  | .observer r => Link.objects (σ.runs[r]?.bind Run.link)
  | .fiber f => [.fiber f]
  | .acquired g =>
    match σ.bracket? g with
    | none => []
    | some br => .bracket g :: .boundary g :: br.release.holds
  | .lateRelease g => [.boundary g]
  | .side k side =>
    match σ.fork? k with
    | none => []
    | some f =>
      sideHolds f.settled k f.parent (.connection (match side with
        | .left => f.right
        | .right => f.left))
  | .settle k _ | .fail k _ => [.boundary k]

/-- What a loop holds. -/
def loopHolds (l : Loop) (σ : Store) : List Object :=
  Link.objects l.link ++ l.stack.flatMap Frame.holds ++ σ.sinkHolds l.sink

/-! ## Objects -/

/-- What an object holds. -/
def holds (σ : Store) : Object → List Object
  | .boundary b =>
    match σ.boundary? b with
    | some (.parked l) => σ.loopHolds l
    | _ => []
  | .completion s =>
    match σ.step? s with
    | some { live := true, .. } => [.boundary s]
    | _ => []
  | .slot s =>
    match (σ.step? s).map Step.slot with
    | some (.filled c) => c.holds
    | _ => []
  | .connection c => ((σ.connections[c]?.map Connection.tokens).getD []).flatMap Token.holds
  | .bracket g =>
    match σ.bracket? g with
    | none => []
    | some br => .gate g :: Link.objects br.link ++ match br.resource with
      | .held _ => br.release.holds
      | .acquiring | .taken => []
  | .gate g =>
    match (σ.bracket? g).map Bracket.gate with
    | some (.closed waiters) => waiters.flatMap σ.stepHolds
    | _ => []
  | .fiber f => .promise f :: Link.objects (σ.fiberLink f)
  | .promise f =>
    match σ.fibers[f]?.map Fiber.promise with
    | some (.pending listeners _) => listeners.flatMap fun l => σ.listenerHolds l.2
    | _ => []
  | .scope s => ((σ.scopes[s]?.map Scope.fibers).getD []).map .fiber
  | .semaphore s =>
    ((σ.semaphores[s]?.map Semaphore.waiting).getD []).flatMap fun w => σ.stepHolds w.ticket

/-- All objects there have been. -/
def objects (σ : Store) : List Object :=
  (List.range σ.boundaries.size).flatMap (fun b => .boundary b :: match σ.keeper? b with
      | some (.step _) => [.completion b, .slot b]
      | some (.bracket _) => [.bracket b, .gate b]
      | _ => []) ++
    (List.range σ.connections.size).map .connection ++
    (List.range σ.fibers.size).flatMap (fun f => [.fiber f, .promise f]) ++
    (List.range σ.scopes.size).map .scope ++
    (List.range σ.semaphores.size).map .semaphore

/-! ## The outside -/

/-- The connection through which a future can be cancelled, once it was started. -/
def futureLink (x : Future) (σ : Store) : Link := x.run.bind fun r => σ.runs[r]?.bind Run.link

/-- What a handle holds. -/
def handleHolds (σ : Store) : Handle → List Object
  | .callback c =>
    match σ.callbacks[c]?.join with
    | some (.boundary b) => [.boundary b]
    | some (.step s) => σ.stepHolds s
    | none => []
  | .connection link | .run _ link => Link.objects link
  | .fiber f => [.fiber f]
  | .future f => Link.objects (σ.futures[f]?.bind σ.futureLink)
  | .program _ => []
  | .scope s => [.scope s]
  | .semaphore s => [.semaphore s]
  | .task f s => [.fiber f, .scope s]

/-- What a shared variable holds. -/
def valueHolds (σ : Store) : Value → List Object
  | .handle h => σ.handleHolds h
  | .list vs => (vs.filterMap Value.handle?).flatMap σ.handleHolds
  | _ => []

/-- What a task holds. -/
def taskHolds (σ : Store) : Task → List Object
  | .side _ c k s => .connection c :: σ.sinkHolds (.side k s)
  | .fiber _ c f => .connection c :: σ.sinkHolds (.fiber f)
  | .resume s => σ.stepHolds s
  | .job _ => []

/-- What a job holds, apart from its future. -/
def jobHolds (σ : Store) : Job → List Object
  | .timer _ s | .call _ s | .poll _ s => σ.stepHolds s
  | .drop _ | .over => []

/-- What is held from outside the machine: by the variables, the tasks, the jobs, the futures that
are not over, and the command in progress. -/
def outside (σ : Store) : List Object :=
  σ.shared.flatMap (fun x => σ.valueHolds x.2) ++
    (σ.queues.flatMap (·.2) ++ σ.ready).flatMap σ.taskHolds ++
    σ.jobs.toList.flatMap σ.jobHolds ++
    σ.futures.toList.flatMap (fun x => if x.finished then [] else Link.objects (σ.futureLink x)) ++
    Link.objects σ.inHand

/-! ## What lasts -/

/-- Who holds what. -/
def holdings (σ : Store) : List (Holding Object) :=
  σ.outside.map (⟨none, ·⟩) ++ σ.objects.flatMap fun x => (σ.holds x).map (⟨some x, ·⟩)

/-- The objects that last, while nothing is being called. -/
def lasting (σ : Store) : Std.HashSet Object := Holding.objects (Holding.lasting σ.holdings)

/-- The boundary at which the loop of an observed run waits. -/
def waitsAt (r : RunId) (σ : Store) : Option BoundaryId :=
  σ.boundaries.cells.findIdx? fun
    | .parked ⟨_, _, _, .observer r'⟩ => r' == r
    | _ => false

/-- Whether an observed run that has reported nothing can still deliver a result, given the objects that
last. A loop that does not wait is at work, unless it was cancelled. -/
def canDeliver (σ : Store) (lasting : Std.HashSet Object) (r : RunId) : Bool :=
  match σ.waitsAt r with
  | some b => lasting.contains (.boundary b)
  | none => σ.runs[r]?.any fun run => !run.silent

end Store

end CancelableEffects
