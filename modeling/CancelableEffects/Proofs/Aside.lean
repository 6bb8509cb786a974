import CancelableEffects.Machine.Step

/-!
# Asides — steps that leave executions and boundaries alone

* `Activity.Apart`: a call in which no loop is at work and no result is delivered.
* `Next.Aside`: a step that begins no execution, touches no boundary and makes only such calls.
* **`Activity.step_aside`**: every call takes such a step unless it begins an execution, works on a
  loop, or completes a boundary.
-/

namespace CancelableEffects

/-- No loop is at work in the call, and it delivers no result. -/
def Activity.Apart : Activity → Prop
  | .work _ _ | .deliver _ _ _ => False
  | _ => True

/-- The step begins no execution, touches no boundary, and calls neither a loop nor a delivery. -/
structure Next.Aside (σ : Store) (next : Next) : Prop where
  executions : next.1.executions = σ.executions
  cells : next.1.boundaries.cells = σ.boundaries.cells
  apart : ∀ a ∈ next.2, a.Apart

theorem Next.Aside.boundary? {σ : Store} {next : Next} (h : next.Aside σ) (b : BoundaryId) :
    next.1.boundary? b = σ.boundary? b := by
  rw [Store.boundary?, h.cells, ← Store.boundary?]

/-! ## Calls -/

theorem Store.apart_push (link : Link) (t : Token) (σ : Store) :
    ∀ a ∈ (σ.push link t).2, a.Apart := by
  unfold Store.push
  split <;> simp [Activity.Apart]

theorem Store.apart_completeSteps (source : Source) (ss : List StepId) :
    ∀ a ∈ Store.completeSteps source ss, a.Apart := by
  intro a ha
  obtain ⟨s, -, rfl⟩ := List.mem_map.1 ha
  trivial

theorem Store.apart_publish (f : FiberId) (o : Outcome Value) (σ : Store) :
    ∀ a ∈ (σ.publish f o).2, a.Apart := by
  intro a ha
  obtain ⟨l, -, rfl⟩ := List.mem_map.1 ha
  trivial

/-! ## Steps -/

theorem Code.move_aside {α : Type} (c : Code Prog α) (σ : Store) : Next.Aside σ (c.move σ).1 := by
  cases c with
  | launch p next => exact ⟨rfl, rfl, by simp [Code.move, Activity.Apart]⟩
  | answer k r next =>
    refine ⟨rfl, rfl, ?_⟩
    simp only [Code.move, Store.answer]
    split <;> simp [Activity.Apart]
  | push link p next => exact ⟨rfl, rfl, Store.apart_push _ _ _⟩
  | _ => exact ⟨rfl, rfl, by simp [Code.move]⟩

theorem Code.advance_aside {α : Type} (again : Code Prog α → Activity)
    {done : Except String α → Store → Next} (ha : ∀ c, (again c).Apart)
    (hd : ∀ r σ, Next.Aside σ (done r σ)) (c : Code Prog α) (σ : Store) :
    Next.Aside σ (c.advance again done σ) := by
  have hm := c.move_aside σ
  unfold Code.advance
  generalize c.move σ = m at hm
  obtain ⟨⟨σ', calls⟩, r | c'⟩ := m
  · have := hd r σ'
    exact ⟨this.executions.trans hm.executions, this.cells.trans hm.cells, this.apart⟩
  · refine ⟨hm.executions, hm.cells, ?_⟩
    simp only [List.mem_append, List.mem_singleton]
    rintro a (h | rfl)
    · exact hm.apart a h
    · exact ha c'

theorem Store.fillSlot_aside (s : StepId) (c : Cleanup) (σ : Store) :
    Next.Aside σ (σ.fillSlot s c) := by
  unfold Store.fillSlot
  split <;> exact ⟨rfl, rfl, by simp [Activity.Apart]⟩

theorem Store.completeCallback_aside (b : BoundaryId) (r : Result) (σ : Store) :
    Next.Aside σ (σ.completeCallback b r) := by
  unfold Store.completeCallback
  split <;> exact ⟨rfl, rfl, by simp [Activity.Apart]⟩

theorem Store.completeStep_aside (s : StepId) (source : Source) (r : Result) (σ : Store) :
    Next.Aside σ (σ.completeStep s source r) := by
  unfold Store.completeStep
  repeat' split
  all_goals exact ⟨rfl, rfl, by simp [Activity.Apart]⟩

/-! ## Sinks -/

theorem Store.endSide_aside (k : ForkId) (side : Side) (r : Result) (σ : Store) :
    Next.Aside σ (σ.endSide k side r) := by
  unfold Store.endSide
  repeat' split
  all_goals exact ⟨rfl, rfl, by simp [Store.settle, Store.settleBoth, Activity.Apart]⟩

theorem Store.endDuel_aside (k : DuelId) (side : Side) (o : Outcome Value) (σ : Store) :
    Next.Aside σ (σ.endDuel k side o) := by
  unfold Store.endDuel
  repeat' split
  all_goals exact ⟨rfl, rfl, by simp [Activity.Apart]⟩

theorem Store.report_aside (r : RunId) (x : Result) (σ : Store) :
    Next.Aside σ (σ.report r x) := by
  unfold Store.report
  repeat' split
  all_goals exact ⟨rfl, rfl, by simp⟩

theorem Store.endFiber_aside (f : FiberId) (r : Result) (σ : Store) :
    Next.Aside σ (σ.endFiber f r) := by
  unfold Store.endFiber
  repeat' split
  · exact ⟨rfl, rfl, Store.apart_publish _ _ _⟩
  · exact ⟨rfl, rfl, by simp⟩
  · exact ⟨rfl, rfl, Store.apart_publish _ _ _⟩

theorem Store.endAcquire_aside (g : BracketId) (r : Result) (σ : Store) :
    Next.Aside σ (σ.endAcquire g r) := by
  unfold Store.endAcquire
  split
  · exact ⟨rfl, rfl, by simp⟩
  · split
    · refine ⟨rfl, rfl, ?_⟩
      simp only [List.mem_append, List.mem_singleton]
      rintro a (h | rfl)
      · exact Store.apart_completeSteps _ _ a h
      · trivial
    · dsimp only
      split <;> exact ⟨rfl, rfl, by simp [Activity.Apart]⟩

theorem Sink.receive_aside (k : Sink) (r : Result) (σ : Store) :
    Next.Aside σ (k.receive r σ) := by
  cases k with
  | observer i => exact Store.report_aside i r σ
  | fiber f => exact Store.endFiber_aside f r σ
  | acquired g => exact Store.endAcquire_aside g r σ
  | side k x => exact Store.endSide_aside k x r σ
  | lateRelease g =>
    simp only [Sink.receive]
    split <;> exact ⟨rfl, rfl, by simp [Activity.Apart]⟩
  | settle k x =>
    simp only [Sink.receive]
    split <;> exact ⟨rfl, rfl, by simp [Activity.Apart]⟩
  | fail k cause =>
    simp only [Sink.receive]
    split <;> exact ⟨rfl, rfl, by simp [Activity.Apart]⟩
  | _ => exact ⟨rfl, rfl, by simp [Sink.receive, Activity.Apart]⟩

/-! ## Futures, jobs and tasks -/

theorem Store.dropFuture_aside (f : FutureId) (σ : Store) : Next.Aside σ (σ.dropFuture f) := by
  unfold Store.dropFuture
  repeat' split
  all_goals exact ⟨rfl, rfl, by simp [Activity.Apart]⟩

theorem Store.startFuture_aside (f : FutureId) (waker : Option JobId) (σ : Store) :
    Next.Aside σ (σ.startFuture f waker) := by
  unfold Store.startFuture
  split <;> exact ⟨rfl, rfl, by simp [Activity.Apart]⟩

theorem Job.step_aside (j : JobId) (job : Job) (σ : Store) : Next.Aside σ (job.step j σ) := by
  cases job with
  | timer due s => exact ⟨rfl, rfl, Store.apart_completeSteps _ _⟩
  | call c s => exact ⟨rfl, rfl, by simp [Job.step, Activity.Apart]⟩
  | poll f s =>
    have h := σ.startFuture_aside f (some j)
    refine ⟨h.executions, h.cells, ?_⟩
    simp only [Job.step, List.mem_append, List.mem_singleton]
    rintro a (ha | rfl)
    · exact h.apart a ha
    · trivial
  | drop f =>
    have h := (σ.setJob j .over).dropFuture_aside f
    exact ⟨h.executions, h.cells, h.apart⟩
  | _ => exact ⟨rfl, rfl, by simp [Job.step]⟩

theorem Task.step_aside (t : Task) (σ : Store) : Next.Aside σ (t.step σ) := by
  cases t with
  | side p c k s => exact ⟨rfl, rfl, by simp [Task.step, Activity.Apart]⟩
  | fiber p c f => exact ⟨rfl, rfl, by simp [Task.step, Activity.Apart]⟩
  | resume s => exact ⟨rfl, rfl, Store.apart_completeSteps _ _⟩
  | job j =>
    simp only [Task.step]
    split
    · exact Job.step_aside _ _ _
    · exact ⟨rfl, rfl, by simp⟩

theorem Executor.submit_aside (on : Executor) (t : Task) (σ : Store) :
    Next.Aside σ (on.submit t σ) := by
  cases on with
  | immediate => exact t.step_aside σ
  | _ => exact ⟨rfl, rfl, by simp [Executor.submit]⟩

theorem Store.poll_aside (j : JobId) (σ : Store) : Next.Aside σ (σ.poll j) := by
  unfold Store.poll
  repeat' split
  all_goals exact ⟨rfl, rfl, by simp [Activity.Apart]⟩

/-! ## Calls -/

/-- The call begins no execution, works on no loop, and completes no boundary. -/
def Activity.Beside : Activity → Prop
  | .start _ _ _ | .work _ _ | .complete (.boundary _) _ => False
  | _ => True

/-- Every call leaves executions and boundaries alone unless it is about one of them. -/
theorem Activity.step_aside {a : Activity} (h : a.Beside) (σ : Store) :
    Next.Aside σ (a.step σ) := by
  cases a with
  | start n link k => exact h.elim
  | work s l => exact h.elim
  | registering c b =>
    refine Code.advance_aside (.registering · b) (fun _ => trivial) (fun r σ => ?_) c σ
    cases r <;> exact ⟨rfl, rfl, by simp [Store.registered, Activity.Apart]⟩
  | registeringStep c s =>
    refine Code.advance_aside (.registeringStep · s) (fun _ => trivial) (fun r σ => ?_) c σ
    cases r <;> exact ⟨rfl, rfl, by simp [Store.registeredStep, Activity.Apart]⟩
  | fillSlot s c => exact σ.fillSlot_aside s c
  | deliver e k r => exact k.receive_aside r σ
  | complete c r =>
    cases c with
    | boundary b => exact h.elim
    | callback b => exact σ.completeCallback_aside b r
    | step s source => exact σ.completeStep_aside s source r
  | notify f l o =>
    cases l with
    | step s => exact ⟨rfl, rfl, by simp [Activity.step, Activity.Apart]⟩
    | duel k x => exact σ.endDuel_aside k x o
  | listen f l =>
    refine ⟨rfl, rfl, ?_⟩
    simp only [Activity.step]
    split <;> simp [Activity.Apart]
  | execute on t => exact on.submit_aside t σ
  | startRight left q on parent k =>
    exact ⟨rfl, rfl, by simp [Activity.step, Store.startFiber, Activity.Apart]⟩
  | tie left right parent k =>
    refine ⟨rfl, rfl, ?_⟩
    simp only [Activity.step, List.mem_append, List.mem_cons, List.not_mem_nil, or_false]
    rintro a (ha | rfl | rfl)
    · exact Store.apart_push _ _ _ a ha
    · trivial
    · trivial
  | calling c s =>
    refine Code.advance_aside (.calling · s) (fun _ => trivial) (fun r σ => ?_) c σ
    cases r <;> exact ⟨rfl, rfl, by simp [Store.called, Activity.Apart]⟩
  | polling j => exact σ.poll_aside j

end CancelableEffects
