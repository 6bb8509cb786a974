import CancelableEffects.Machine.Store

/-!
# Boundaries — where a loop waits and how it goes on

* `Store.openStep`, `Store.wait`: a loop opens a boundary and an interruptible step.
* `Store.awaitOutcome`, `Store.awaitPermits`, `Store.awaitGate`, `Store.awaitJob`: what it waits
  for.
* `Store.fillSlot`, `Store.leave`: the registration of the step is over.
* `Completer.complete`: a boundary or a step is completed; only the first completion counts.
-/

namespace CancelableEffects

/-! ## Waiting -/

/-- Opens an interruptible step, which the linked connection can cancel. -/
def Store.openStep (source : Source) (link : Link) (σ : Store) : Next :=
  let (σ, s) := σ.newBoundary (.step { source, link })
  σ.push link (.step s)

/-- The loop opens an interruptible step. The registration gives the calls it makes and the clean-up
of the step. -/
def Store.wait (source : Source) (link : Link) (register : StepId → Store → Next × Cleanup)
    (σ : Store) : Turn :=
  let s := σ.boundaries.size
  let (σ, pushed) := σ.openStep source link
  let ((σ, calls), c) := register s σ
  { store := σ, calls := pushed ++ calls ++ [.fillSlot s c], stage := .leaving s, link }

/-- Waits for the outcome of a fiber. -/
def Store.awaitOutcome (f : FiberId) (link : Link) (σ : Store) : Turn :=
  σ.wait (.outcome f) link fun s σ =>
    let (σ, answer) := σ.listen f (.step s)
    match answer with
    | some (.inl n) => ((σ, []), .unlisten f n)
    | some (.inr o) => ((σ, [.complete (.step s (.outcome f)) (.ok (.outcome o))]), .idle)
    | none => ((σ, []), .idle)

/-- Waits for permits. -/
def Store.awaitPermits (i : SemaphoreId) (n : Nat) (link : Link) (σ : Store) : Turn :=
  σ.wait (.permits i) link fun s σ =>
    let granted := (σ.semaphores[i]?.map fun x => (x.acquire n s).2).getD false
    (({ σ with semaphores := σ.semaphores.modify i fun x => (x.acquire n s).1 },
      if granted then Store.completeSteps (.permits i) [s] else []), .idle)

/-- Waits for the gate of a bracket. -/
def Store.awaitGate (g : BracketId) (link : Link) (σ : Store) : Turn :=
  σ.wait (.gate g) link fun s σ =>
    ((σ.modifyBracket g (Bracket.await s),
      match (σ.bracket? g).map Bracket.gate with
      | some (.closed _) => []
      | _ => Store.completeSteps (.gate g) [s]), .idle)

/-- Waits for a job of the outside world. -/
def Store.awaitJob (job : StepId → Store → Job) (started : Bool) (link : Link) (σ : Store) : Turn :=
  σ.wait .job link fun s σ =>
    let (σ, j) := σ.newJob (job s σ)
    (({ σ with ready := σ.ready ++ if started then [.job j] else [] }, []), .abandon j)

/-! ## Completions -/

/-- A boundary is completed: the first result counts, and a loop that waits goes on at once. -/
def Store.completeBoundary (b : BoundaryId) (r : Result) (σ : Store) : Next :=
  match σ.boundary? b with
  | some .registering => (σ.setBoundary b (.ready r), [])
  | some (.parked l) => ((σ.setBoundary b .resumed).emit (.resumed b), [.work (.looking (.result r)) l])
  | _ => (σ.emit (.completedAgain b), [])

/-- User code completes a boundary. -/
def Store.completeCallback (b : BoundaryId) (r : Result) (σ : Store) : Next :=
  match σ.keeper? b with
  | some .callback => (σ, [.complete (.boundary b) r])
  | _ => (σ, [])

/-- A step is completed: while it is live, its token is popped and its boundary completed. -/
def Store.completeStep (s : StepId) (source : Source) (r : Result) (σ : Store) : Next :=
  match σ.step? s with
  | some st =>
    if st.live ∧ st.source = source then
      ((σ.modifyStep s fun st => { st with live := false }).dropToken st.link,
        [.complete (.boundary s) r])
    else (σ, [])
  | none => (σ, [])

/-- A boundary or a step is completed. -/
def Completer.complete (c : Completer) (r : Result) (σ : Store) : Next :=
  match c with
  | .boundary b => σ.completeBoundary b r
  | .callback b => σ.completeCallback b r
  | .step s source => σ.completeStep s source r

/-- The registration of a boundary is over: the loop goes on if the step was completed meanwhile,
and waits otherwise. -/
def Store.leave (b : BoundaryId) (l : Loop) (σ : Store) : Next :=
  match σ.boundary? b with
  | some (.ready r) => (σ.setBoundary b .resumed, [.work (.looking (.result r)) l])
  | some .registering => ((σ.setBoundary b (.parked l)).emit (.parked b), [])
  | _ => (σ, [])

/-- The registration of a step returned its clean-up, which is run at once if the step was
cancelled meanwhile. -/
def Store.fillSlot (s : StepId) (c : Cleanup) (σ : Store) : Next :=
  match (σ.step? s).map Step.slot with
  | some .cancelRequested => (σ, [.start (.token (.cleanup c)) none (.warn .stepToken)])
  | _ => (σ.modifyStep s fun st => { st with slot := .filled c }, [])

end CancelableEffects
