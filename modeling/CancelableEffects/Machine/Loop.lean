import CancelableEffects.Machine.Boundary
import CancelableEffects.Program.Combinators

/-!
# Loops — how programs are interpreted

* `Cleanup.begin`, `Token.begin`: a clean-up action begins.
* `Prog.step`: a loop takes a program apart.
* `Frame.resume`: a frame receives a result.
* `Node.step`: a loop interprets what comes next.

None of them sees what lies below on the stack of the loop, or its sink.
-/

namespace CancelableEffects

/-! ## Instants -/

/-- Acts at once on a semaphore or a scope: the value, and the calls made before it is returned. -/
def Instant.perform (σ : Store) : Instant → Next × Value
  | .tryAcquire i n =>
    (({ σ with semaphores := σ.semaphores.modify i fun x => (x.tryAcquire n).1 }, []),
      .bool ((σ.semaphores[i]?.map fun x => (x.tryAcquire n).2).getD false))
  | .release i n =>
    let served := (σ.semaphores[i]?.map fun x => (x.release n).2).getD []
    let σ := { σ with semaphores := σ.semaphores.modify i fun x => (x.release n).1 }
    ((σ.emit? (if served.isEmpty then none else some (.permitsGranted i served.length)),
      Store.completeSteps (.permits i) served), .unit)
  | .available i => ((σ, []), .int ((σ.semaphores[i]?.map Semaphore.available).getD 0))
  | .count i => ((σ, []), .int ((σ.semaphores[i]?.map Semaphore.count).getD 0))
  | .scopeSize i =>
    let n := (σ.scopes[i]?.map fun s => s.fibers.length).getD 0
    ((σ, []), .list [.int n, .bool (n == 0)])

/-! ## Tokens -/

/-- Cleans up after the registration of a step. -/
def Cleanup.begin (c : Cleanup) (link : Link) (σ : Store) : Turn :=
  match c with
  | .idle => { store := σ, stage := .handing (.ok .unit), link }
  | .program i =>
    match σ.programs[i]? with
    | some p => { store := σ, stage := .looking (.program p), link }
    | none => { store := σ, stage := .handing (.ok .unit), link }
  | .unlisten f n => { store := σ.unlisten f n, stage := .handing (.ok .unit), link }
  | .abandon j => { store := σ.abandon j, stage := .handing (.ok .unit), link }

/-- Begins a clean-up action in a loop that may go on. -/
def Token.begin (t : Token) (link : Link) (σ : Store) : Turn :=
  match t with
  | .cleanup c => c.begin link σ
  | .step s =>
    let c := match (σ.step? s).map Step.slot with
      | some (.filled c) => c
      | _ => .idle
    { store := σ.modifyStep s fun st => { st with slot := .cancelRequested },
      stage := .looking (.token (.cleanup c)), link, frames := [.attempt, .endStep s] }
  | .bracket g =>
    let (σ, n) := σ.takeRelease g .cancelled
    { store := σ, stage := .looking n, link }
  | .connection c =>
    match σ.cancel c with
    | (σ, some ts) => { store := σ, stage := .looking (.sweep c ts), link }
    | (σ, none) => { store := σ, stage := .looking (.result (.ok .unit)), link }
  | .connections a b =>
    { store := σ, stage := .looking (.sweep none [.connection a, .connection b]), link }
  | .fiber f =>
    let frames := [.attempt, .publishCancelled f]
    match σ.fiberLink f with
    | some c =>
      { store := σ.emit (.fiberCancelling f), stage := .looking (.token (.connection (some c))),
        link, frames }
    | none => { store := σ, stage := .looking (.token (.cleanup .idle)), link, frames }
  | .fibers a b => { store := σ, stage := .looking (.sweep none [.fiber a, .fiber b]), link }

/-- Runs the next token of a cancellation, or ends it with the first failure; the frames `below`
come first. -/
def Store.sweep (of : Link) (first : Option Error) (link : Link) (below : List Frame) (σ : Store) :
    List Token → Turn
  | [] =>
    let r := match first with
      | none => .ok .unit
      | some e => .error e
    { store := σ, stage := .looking (.result r), link, frames := below }
  | t :: ts => { store := σ, stage := .looking (.token t), link, frames := .sweep of t ts first :: below }

/-! ## Programs -/

/-- Forks two sides under connections of their own. -/
def Store.fork (kind : ForkKind) (p q : Prog) (on : Executor) (link : Link) (σ : Store) : Turn :=
  let (σ, left) := σ.newConnection
  let (σ, right) := σ.newConnection
  let (σ, k) := σ.newBoundary (.fork { kind, parent := link, left, right })
  let (σ, pushed) := σ.push link (.connections (some left) (some right))
  { store := σ,
    calls := pushed ++ [.execute on (.side p left k .left), .execute on (.side q right k .right)],
    stage := .leaving k, link }

/-- Takes a program apart in the execution `e`, which may go on. -/
def Prog.step (p : Prog) (e : ExecutionId) (link : Link) (σ : Store) : Turn :=
  match p with
  | .pure v => { store := σ, stage := .handing (.ok v), link }
  | .raise e => { store := σ, stage := .handing (.error e), link }
  | .delay c => { store := σ, stage := .delaying c, link }
  | .suspend c => { store := σ, stage := .suspending c, link }
  | .connected register =>
    let (σ, b) := σ.newBoundary .callback
    let (σ, c) := σ.newCallback (.boundary b)
    { store := σ, calls := [.registering (register link c) b], stage := .leaving b, link }
  | .cancelable register =>
    let s := σ.boundaries.size
    let (σ, pushed) := σ.openStep .user link
    let (σ, c) := σ.newCallback (.step s)
    { store := σ, calls := pushed ++ [.registeringStep (register c) s], stage := .leaving s, link }
  | .bind q f => { store := σ, stage := .looking (.program q), link, frames := [.bind f] }
  | .mapped q f _ => { store := σ, stage := .looking (.program q), link, frames := [.map f] }
  | .recover q h => { store := σ, stage := .looking (.program q), link, frames := [.recover h] }
  | .fold q h f => { store := σ, stage := .looking (.program q), link, frames := [.fold h f] }
  | .uncancelable q =>
    { store := σ, stage := .looking (.program q), link := none, frames := [.restore link] }
  | .iterate seed f => { store := σ, stage := .suspending (f seed), link, frames := [.iterate f] }
  | .bracket acquire use release =>
    let (σ, g) := σ.newBoundary (.bracket { owner := e, link, release })
    let (σ, pushed) := σ.push link (.bracket g)
    { store := σ, calls := pushed ++ [.start (.program acquire) none (.acquired g)],
      stage := .leaving g, link, frames := [.use g use] }
  | .race p q on => σ.fork .first p q on link
  | .both p q on f => { σ.fork .both p q on link with frames := [.combine f] }
  | .racePair p q on =>
    let (σ, k) := σ.newBoundary (.duel none)
    let ((σ, calls), f) := σ.startFiber p on
    { store := σ, calls := calls ++ [.startRight f q on link k], stage := .leaving k, link }
  | .start p on =>
    let ((σ, calls), f) := σ.startFiber p on
    { store := σ, calls, stage := .handing (.ok (.handle (.fiber f))), link }
  | .spawn s p =>
    let ((σ, calls), f) := σ.startFiber p ((σ.scopes[s]?.map Scope.executor).getD .immediate)
    { store := σ, calls, stage := .handing (.ok (.handle (.fiber f))), link,
      frames := [.track s] }
  | .scoped on body =>
    let s := σ.scopes.size
    let p := .bracket .unit (fun _ => .ret (.suspend (body s))) (.scope s)
    { store := { σ with scopes := σ.scopes.push { executor := on } },
      stage := .looking (.program p), link }
  | .joinEach [] => { store := σ, stage := .handing (.ok .unit), link }
  | .joinEach (f :: fs) =>
    { store := σ, stage := .looking (.program (.outcome f)), link, frames := [.join fs] }
  | .joinScope s own =>
    let fs := ((σ.scopes[s]?.map Scope.fibers).getD []).filter fun f => own ≠ some f
    { store := σ.emit (.scopeJoining s fs.length), stage := .looking (.program (.joinEach fs)),
      link }
  | .cancelScope s =>
    let fs := (σ.scopes[s]?.map Scope.fibers).getD []
    { store := σ.emit (.scopeCancelling s fs.length),
      stage := .looking (.sweep none (fs.reverse.map .fiber)), link }
  | .awaitTask f s =>
    { store := σ, stage := .looking (.program (.joinScope s (some f))), link,
      frames := [.thenJoin f] }
  | .outcome f => σ.awaitOutcome f link
  | .cancelFiber f => { store := σ, stage := .looking (.token (.fiber f)), link }
  | .permits s n => σ.awaitPermits s n link
  | .instant a =>
    let ((σ, calls), v) := a.perform σ
    { store := σ, calls, stage := .handing (.ok v), link }
  | .shift on => σ.wait .executor link fun s σ => ((σ, [.execute on (.resume s)]), .idle)
  | .sleep d => σ.awaitJob (fun s σ => .timer (σ.now + d.nanos / 1000000) s) false link
  | .remote c => σ.awaitJob (fun s _ => .call c s) true link
  | .awaited p =>
    let (σ, f) := σ.newFuture p
    σ.awaitJob (fun s _ => .poll f s) true link
  | .cancel c => { store := σ, stage := .looking (.token (.connection c)), link }
  | .pop c =>
    match σ.popToken c with
    | (σ, some t) => { store := σ, stage := .looking (.token t), link }
    | (σ, none) => { store := σ, stage := .looking (.result (.ok .unit)), link }
  | .stored i =>
    match σ.programs[i]? with
    | some p => { store := σ, stage := .looking (.program p), link }
    | none => { store := σ, stage := .looking (.result (.ok .unit)), link }

/-! ## Frames -/

/-- How a bracket ends whose use ended with `r` and whose release ended with `released`. -/
def Result.afterRelease (r released : Result) : Result :=
  match r, released with
  | .ok v, .ok _ => .ok v
  | .ok _, .error e => .error e
  | .error e, .ok _ => .error e
  | .error e, .error later => .error (e.suppress later)

/-- The first failure of a cancellation after one more token ended with `r`. -/
def Store.collect (first : Option Error) (r : Result) (σ : Store) : Store × Option Error :=
  (σ.emit? (match first, r with
    | some _, .error later => some (.failedAgain later)
    | _, _ => none),
    match first, r with
    | first, .ok _ => first
    | none, .error e => some e
    | some e, .error later => some (e.suppress later))

/-- A frame receives a result; `link` is the connection of the loop. A frame that does not care for
the result passes it on. -/
def Frame.resume (f : Frame) (r : Result) (link : Link) (σ : Store) : Turn :=
  let passed : Turn := { store := σ, stage := .handing r, link }
  match f with
  | .map f =>
    match r with
    | .ok v => { store := σ, stage := .mapping (f v), link }
    | .error _ => passed
  | .bind f =>
    match r with
    | .ok v => { store := σ, stage := .suspending (f v), link }
    | .error _ => passed
  | .recover h =>
    match r with
    | .ok _ => passed
    | .error e => { store := σ, stage := .suspending (h e), link }
  | .fold h f =>
    match r with
    | .ok v => { store := σ, stage := .suspending (f v), link }
    | .error e => { store := σ, stage := .suspending (h e), link }
  | .iterate f =>
    match r with
    | .ok (.left v) => { store := σ, stage := .suspending (f v), link, frames := [.iterate f] }
    | .ok (.right v) => { store := σ, stage := .looking (.result (.ok v)), link }
    | _ => passed
  | .restore enclosing => { store := σ, stage := .looking (.result r), link := enclosing }
  | .attempt => { store := σ, stage := .looking (.result (.ok r.toValue)), link }
  | .combine f =>
    match r with
    | .ok (.pair a b) => { store := σ, stage := .mapping (f a b), link }
    | _ => passed
  | .use g f =>
    match r with
    | .ok v =>
      { store := σ, stage := .looking (.program (.suspend (f v))), link, frames := [.release g] }
    | .error _ => passed
  | .release g =>
    let (σ, n) := σ.takeRelease g (.ofResult r)
    { store := σ, stage := .looking n, link, frames := [.attempt, .endBracket g r] }
  | .openGate g =>
    match r with
    | .ok v =>
      let (σ, calls) := σ.openGate g
      { store := σ, calls, stage := .looking (.result v.toResult), link }
    | .error _ => passed
  | .endBracket g used =>
    match r with
    | .ok v =>
      { store := σ.dropToken (σ.bracketLink g),
        stage := .looking (.result (used.afterRelease v.toResult)), link }
    | .error _ => passed
  | .sweep of _ ts first =>
    let (σ, first) := σ.collect first r
    σ.sweep of first link [] ts
  | .endStep s =>
    match r with
    | .ok v =>
      match σ.step? s with
      | some { live := true, .. } =>
        { store := σ.modifyStep s fun st => { st with live := false },
          calls := [.complete (.boundary s) (.error .cancelled)],
          stage := .looking (.result v.toResult), link }
      | _ => { store := σ, stage := .looking (.result v.toResult), link }
    | .error _ => passed
  | .publishCancelled f =>
    match r with
    | .ok v =>
      let (σ, calls) := σ.publish f .cancelled
      { store := σ, calls, stage := .looking (.result v.toResult), link }
    | .error _ => passed
  | .track s =>
    match r with
    | .ok (.handle (.fiber f)) =>
      { store := { σ with
          scopes := σ.scopes.modify s fun x => { x with fibers := x.fibers ++ [f] } },
        stage := .handing (.ok (.handle (.task f s))), link }
    | _ => passed
  | .join fs =>
    match r with
    | .ok (.outcome (.errored e)) => { store := σ, stage := .looking (.result (.error e)), link }
    | .ok _ => { store := σ, stage := .looking (.program (.joinEach fs)), link }
    | .error _ => passed
  | .thenJoin f =>
    match r with
    | .ok _ => { store := σ, stage := .looking (.program (.join f)), link }
    | .error _ => passed

/-! ## Nodes -/

/-- What comes next is interpreted in the execution `e`, which may go on. -/
def Node.step (n : Node) (e : ExecutionId) (link : Link) (σ : Store) : Turn :=
  match n with
  | .program p => p.step e link σ
  | .result r => { store := σ, stage := .handing r, link }
  | .token t => t.begin link σ
  | .sweep of ts => σ.sweep of none none [.restore link] ts
  | .release g v x =>
    match σ.bracket? g with
    | some br =>
      { store := σ, stage := .suspending (br.release.code v x), link := none,
        frames := [.attempt, .openGate g, .restore link] }
    | none => { store := σ, stage := .looking (.result (.ok .unit)), link }
  | .gate g => σ.awaitGate g link

end CancelableEffects
