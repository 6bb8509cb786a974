import CancelableEffects.Machine.Boundary

/-!
# Sinks — where the result of a loop goes

* `Store.endSide`, `Store.endDuel`: one of two sides has ended; the first one decides, and the other
  is cancelled unless its fiber is handed out.
* `Store.report`, `Store.endFiber`, `Store.endAcquire`: a run, a fiber or an acquisition has ended.
* `Sink.receive`: the result of a loop arrives.
-/

namespace CancelableEffects

/-! ## Forks -/

/-- The value that tells which side a value came from. -/
def Side.tag : Side → Value → Value
  | .left, v => .left v
  | .right, v => .right v

/-- A fork is settled with `r`: it leaves its parent and cancels the other side first. -/
def Store.settle (k : ForkId) (f : Fork) (loser : ConnectionId) (r : Result) (σ : Store) : Next :=
  ((σ.modifyFork k fun f => { f with settled := true }).dropToken f.parent,
    [.start (.token (.connection (some loser))) none (.settle k r)])

/-- A fork is settled with both values. -/
def Store.settleBoth (k : ForkId) (f : Fork) (a b : Value) (σ : Store) : Next :=
  ((σ.modifyFork k fun f => { f with settled := true }).dropToken f.parent,
    [.complete (.boundary k) (.ok (.pair a b))])

/-- One side of a fork has ended. -/
def Store.endSide (k : ForkId) (side : Side) (r : Result) (σ : Store) : Next :=
  match σ.fork? k with
  | none => (σ, [])
  | some f =>
    if f.settled then (σ, [])
    else
      let loser := match side with
        | .left => f.right
        | .right => f.left
      match f.kind, r with
      | .first, r => σ.settle k f loser (r.map side.tag)
      | .both, .error e => σ.settle k f loser (.error e)
      | .both, .ok v =>
        match side, f.leftValue, f.rightValue with
        | .left, _, some w => σ.settleBoth k f v w
        | .right, some w, _ => σ.settleBoth k f w v
        | .left, _, none => (σ.modifyFork k fun f => { f with leftValue := some v }, [])
        | .right, none, _ => (σ.modifyFork k fun f => { f with rightValue := some v }, [])

/-- The result of a fork after the other side was cancelled. -/
def Result.afterCancel (r cancelled : Result) : Result :=
  match r, cancelled with
  | r, .ok _ => r
  | .error e, .error later => .error (e.suppress later)
  | .ok _, .error e => .error e

/-- The failure of a duel after the other fiber was cancelled. -/
def Error.afterCancel (cause : Option Error) (cancelled : Result) : Error :=
  match cause, cancelled with
  | none, _ => .cancelled
  | some e, .ok _ => e
  | some e, .error later => e.suppress later

/-- One fiber of a duel has published its outcome. -/
def Store.endDuel (k : DuelId) (side : Side) (o : Outcome Value) (σ : Store) : Next :=
  match σ.duel? k with
  | none => (σ, [])
  | some d =>
    if d.settled then (σ, [])
    else
      let σ := σ.modifyDuel k (Option.map fun d => { d with settled := true })
      let σ := σ.dropToken d.parent
      let loser := match side with
        | .left => d.right
        | .right => d.left
      match o with
      | .completed v =>
        let v := match side with
          | .left => Value.left (.pair v (.handle (.fiber loser)))
          | .right => Value.right (.pair v (.handle (.fiber loser)))
        (σ, [.complete (.boundary k) (.ok v)])
      | .errored e => (σ, [.start (.token (.fiber loser)) none (.fail k (some e))])
      | .cancelled => (σ, [.start (.token (.fiber loser)) none (.fail k none)])

/-! ## Sinks -/

/-- Whether an observed run that ends with the result is silent: it was cancelled. -/
def Store.silences (run : Run) (x : Result) (σ : Store) : Bool :=
  match x with
  | .error e => e.isCancelled && σ.isCancelled run.link
  | .ok _ => false

/-- An observed run ends: silently if it was cancelled, and else with a report. -/
def Store.report (r : RunId) (x : Result) (σ : Store) : Next :=
  match σ.runs[r]? with
  | none => (σ, [])
  | some run =>
    if σ.silences run x then
      ({ σ with runs := σ.runs.modify r fun run => { run with silent := true } }.emit (.silent r), [])
    else
      let σ := σ.emit? (run.label.map fun name => .line ("callback " ++ name))
      ({ σ with
          runs := σ.runs.modify r fun run => { run with results := run.results ++ [x] }
          ready := σ.ready ++ (run.waker.map Task.job).toList }, [])

/-- A fiber's loop ends: it publishes its outcome unless the fiber's own cancellation stopped it,
which publishes by itself. -/
def Store.endFiber (f : FiberId) (r : Result) (σ : Store) : Next :=
  match r with
  | .ok v => (σ.emit (.fiberFinished f true)).publish f (.completed v)
  | .error e =>
    if e.isCancelled && σ.isCancelled (σ.fiberLink f) then (σ.emit (.fiberStopped f), [])
    else (σ.emit (.fiberFinished f false)).publish f (.errored e)

/-- The acquisition of a bracket ends. A resource that comes after the execution was cancelled is
released at once. -/
def Store.endAcquire (g : BracketId) (r : Result) (σ : Store) : Next :=
  match σ.bracket? g with
  | none => (σ, [])
  | some br =>
    match r with
    | .error e =>
      let (σ, calls) := (σ.dropToken br.link).openGate g
      (σ, calls ++ [.complete (.boundary g) (.error e)])
    | .ok v =>
      let σ := σ.modifyBracket g fun br => { br with resource := .held v }
      if σ.isCancelled br.link then
        let (σ, n) := σ.takeRelease g .cancelled
        (σ, [.start n none (.lateRelease g)])
      else (σ, [.complete (.boundary g) (.ok v)])

/-- The result of a loop arrives. -/
def Sink.receive (k : Sink) (r : Result) (σ : Store) : Next :=
  match k with
  | .discard => (σ, [])
  | .warn w =>
    (σ.emit? (match r with
      | .ok _ => none
      | .error e => some (.warned w e)), [])
  | .observer i => σ.report i r
  | .fiber f => σ.endFiber f r
  | .acquired g => σ.endAcquire g r
  | .lateRelease g =>
    let σ := σ.emit? (match r with
      | .ok _ => none
      | .error e => some (.lateReleaseFailed g e))
    match σ.bracket? g with
    | some _ => (σ, [.complete (.boundary g) (.error .cancelled)])
    | none => (σ, [])
  | .side k x => σ.endSide k x r
  | .settle k x =>
    match σ.fork? k with
    | some _ => (σ, [.complete (.boundary k) (x.afterCancel r)])
    | none => (σ, [])
  | .fail k cause =>
    match σ.duel? k with
    | some _ => (σ, [.complete (.boundary k) (.error (.afterCancel cause r))])
    | none => (σ, [])

end CancelableEffects
