import CancelableEffects.Machine.Lifetime

/-!
# Futures — runs that the outside world asks for, and its other work

* `Store.newRun`, `Store.startFuture`, `Store.futureResult`, `Store.dropFuture`: the life of a
  future. It starts with the first poll, gives its result once, or cancellation as soon as no result
  can come any more, and is cancelled if it is dropped before.
* `Job.step`, `Task.step`, `Executor.submit`: work outside the machine and on executors.
-/

namespace CancelableEffects

/-! ## Futures -/

/-- A future is over: it has given its result or was dropped. -/
def Store.finishFuture (f : FutureId) (σ : Store) : Store :=
  { σ with futures := σ.futures.modify f fun x => { x with finished := true } }

/-- Drops a future: a run that was started and has not ended is cancelled. -/
def Store.dropFuture (f : FutureId) (σ : Store) : Next :=
  match σ.futures[f]? with
  | none => (σ, [])
  | some x =>
    match x.finished, σ.futureLink x with
    | false, some c =>
      ((σ.finishFuture f).emit (.futureDropped f),
        [.start (.token (.connection (some c))) none (.warn .droppedFuture)])
    | _, _ => (σ.finishFuture f, [])

/-- Creates an observed run under the linked connection. -/
def Store.newRun (label : Option String) (link : Link) (waker : Option JobId) (σ : Store) :
    Store × RunId :=
  let r := σ.runs.size
  ({ σ with runs := σ.runs.push { label, link, waker } }, r)

/-- Starts the run of a future that was not polled before. -/
def Store.startFuture (f : FutureId) (waker : Option JobId) (σ : Store) : Next :=
  match σ.futures[f]? with
  | some { program := p, run := none, finished := false } =>
    let (σ, c) := σ.newConnection
    let (σ, r) := σ.newRun none (some c) waker
    ({ σ with futures := σ.futures.modify f fun x => { x with run := some r } },
      [.start (.token (.cleanup (.program p))) (some c) (.observer r)])
  | _ => (σ, [])

/-- What a future has to give: the result of its run, or cancellation if no result can come or the
result was given before. `delivers` tells which runs can still deliver. -/
def Store.futureResultIf (delivers : RunId → Bool) (f : FutureId) (σ : Store) : Option Result :=
  match σ.futures[f]? with
  | some { finished := true, .. } => some (.error .cancelled)
  | some { run := some r, .. } =>
    match (σ.runs[r]?.map Run.results).getD [] with
    | x :: _ => some x
    | [] => if delivers r then none else some (.error .cancelled)
  | _ => none

/-- What a future has to give, while nothing is being called. -/
def Store.futureResult (f : FutureId) (σ : Store) : Option Result :=
  σ.futureResultIf (fun r => σ.canDeliver σ.lasting r) f

/-! ## Jobs and tasks -/

/-- Goes on with a job. -/
def Job.step (j : JobId) (job : Job) (σ : Store) : Next :=
  match job with
  | .timer _ s => (σ.setJob j .over, Store.completeSteps .job [s])
  | .call c s => (σ.setJob j .over, [.calling c s])
  | .poll f _ =>
    let (σ, calls) := σ.startFuture f (some j)
    (σ, calls ++ [.polling j])
  | .drop f => (σ.setJob j .over).dropFuture f
  | .over => (σ, [])

/-- Ends a job whose future has a result. -/
def Store.poll (j : JobId) (σ : Store) : Next :=
  match σ.jobs[j]? with
  | some (.poll f s) =>
    match σ.futureResult f with
    | some r =>
      ((σ.setJob j .over).finishFuture f, [.complete (.step s .job) (.ok r.toValue)])
    | none => (σ, [])
  | _ => (σ, [])

/-- Runs a task. -/
def Task.step (t : Task) (σ : Store) : Next :=
  match t with
  | .side p c k s => (σ, [.start (.program p) (some c) (.side k s)])
  | .fiber p c f => (σ, [.start (.program p) (some c) (.fiber f)])
  | .resume s => (σ, Store.completeSteps .executor [s])
  | .job j =>
    match σ.jobs[j]? with
    | some x => x.step j σ
    | none => (σ, [])

/-- Hands a task to an executor. -/
def Executor.submit (on : Executor) (t : Task) (σ : Store) : Next :=
  match on with
  | .immediate => t.step σ
  | .queue name => (σ.enqueue name t, [])
  | .threads => ({ σ with ready := σ.ready ++ [t] }, [])

end CancelableEffects
