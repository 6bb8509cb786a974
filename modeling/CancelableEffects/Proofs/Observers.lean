import CancelableEffects.Proofs.Claims

/-!
# Observers — a run reports once, and not that it was cancelled

* `Store.results`: what was reported of a run.
* `Next.Unobserved`, `Next.Observes`: a step leaves the observed runs alone, or begins one.
* **`Activity.step_observes`**, **`Input.step_observes`**: so does every step but that of a report.
* **`Session.observing`**: every run begins once, under its connection; **`Session.results_le`**: it reports
  once at most.
* `Session.PastLook`: an execution looks at its connection no more; `Session.pastLook_or`: under a cancelled
  connection it was so before, or it is stopped.
* **`Session.silent_cancellation`**: what a run reports once its connection was cancelled.
-/

namespace CancelableEffects

/-- What was reported of the run, oldest first. -/
def Store.results (r : RunId) (σ : Store) : List Result := (σ.runs[r]?.map Run.results).getD []

/-- The connection of the run that is there. -/
def Store.runLink? (r : RunId) (σ : Store) : Option Link := σ.runs[r]?.map Run.link

/-- The run that the call begins, and its connection. -/
def Activity.observes? : Activity → Option (RunId × Link)
  | .start _ link (.observer r) => some (r, link)
  | _ => none

/-- The step leaves the observed runs alone and begins none. -/
structure Next.Unobserved (σ : Store) (next : Next) : Prop where
  runs : next.1.runs = σ.runs
  calls : ∀ a ∈ next.2, a.observes? = none

/-- The step creates a run and begins it under its connection. -/
structure Next.Observes (σ : Store) (next : Next) : Prop where
  begins : ∃ run n others, (run.results = [] ∧ run.silent = false) ∧ next.1.runs = σ.runs.push run ∧
    next.2 = .start n run.link (.observer σ.runs.size) :: others ∧ ∀ a ∈ others, a.observes? = none

section Steps

variable {σ σ' : Store} {next : Next}

theorem Next.Unobserved.of_runs (h : next.Unobserved σ') (hruns : σ'.runs = σ.runs) : next.Unobserved σ :=
  ⟨h.runs.trans hruns, h.calls⟩

theorem Next.Unobserved.append {calls : List Activity} (h : next.Unobserved σ)
    (hcalls : ∀ a ∈ calls, a.observes? = none) : Next.Unobserved σ (next.1, next.2 ++ calls) :=
  ⟨h.runs, fun a ha => (List.mem_append.1 ha).elim (h.calls a) (hcalls a)⟩

/-! ## Closures and loops -/

theorem Store.observes_push (link : Link) (t : Token) (σ : Store) :
    ∀ a ∈ (σ.push link t).2, a.observes? = none := by
  unfold Store.push
  split <;> simp [Activity.observes?]

theorem Store.observes_completeSteps (source : Source) (ss : List StepId) :
    ∀ a ∈ Store.completeSteps source ss, a.observes? = none := by
  intro a ha
  obtain ⟨s, -, rfl⟩ := List.mem_map.1 ha
  rfl

theorem Store.observes_publish (f : FiberId) (o : Outcome Value) (σ : Store) :
    ∀ a ∈ (σ.publish f o).2, a.observes? = none := by
  intro a ha
  obtain ⟨l, -, rfl⟩ := List.mem_map.1 ha
  rfl

theorem Code.move_unobserved {α : Type} (c : Code Prog α) (σ : Store) :
    Next.Unobserved σ (c.move σ).1 := by
  cases c with
  | launch p next => exact ⟨rfl, by simp [Code.move, Activity.observes?]⟩
  | answer k r next =>
    refine ⟨rfl, ?_⟩
    simp only [Code.move, Store.answer]
    split <;> simp [Activity.observes?]
  | push link p next => exact ⟨rfl, Store.observes_push _ _ _⟩
  | _ => exact ⟨rfl, by simp [Code.move]⟩

theorem Code.advance_unobserved {α : Type} {again : Code Prog α → Activity}
    {done : Except String α → Store → Next} (ha : ∀ c, (again c).observes? = none)
    (hd : ∀ o σ, Next.Unobserved σ (done o σ)) (c : Code Prog α) (σ : Store) :
    Next.Unobserved σ (c.advance again done σ) := by
  have hm := c.move_unobserved σ
  unfold Code.advance
  generalize c.move σ = m at hm
  obtain ⟨⟨σ', calls⟩, o | c'⟩ := m
  · exact (hd o σ').of_runs hm.runs
  · exact hm.append (by simpa using ha c')

theorem Store.wait_unobserved {source : Source} {link : Link}
    {register : StepId → Store → Next × Cleanup}
    (h : ∀ s σ, Next.Unobserved σ (register s σ).1) (σ : Store) :
    Next.Unobserved σ ((σ.wait source link register).store, (σ.wait source link register).calls) := by
  have hr := h σ.boundaries.size (σ.openStep source link).1
  refine ⟨hr.runs, ?_⟩
  simp only [Store.wait, List.mem_append, List.mem_singleton]
  rintro a ((ha | ha) | rfl)
  · exact Store.observes_push _ _ _ a ha
  · exact hr.calls a ha
  · rfl

theorem Store.awaitJob_unobserved (job : StepId → Store → Job) (started : Bool) (link : Link)
    (σ : Store) :
    Next.Unobserved σ ((σ.awaitJob job started link).store, (σ.awaitJob job started link).calls) :=
  Store.wait_unobserved (fun _ _ => ⟨rfl, by simp⟩) σ

theorem Store.fork_unobserved (kind : ForkKind) (p q : Prog) (on : Executor) (link : Link) (σ : Store) :
    Next.Unobserved σ ((σ.fork kind p q on link).store, (σ.fork kind p q on link).calls) := by
  refine ⟨rfl, ?_⟩
  simp only [Store.fork, List.mem_append, List.mem_cons, List.not_mem_nil, or_false]
  rintro a (ha | rfl | rfl)
  · exact Store.observes_push _ _ _ a ha
  · rfl
  · rfl

theorem Store.startFiber_unobserved (p : Prog) (on : Executor) (σ : Store) :
    Next.Unobserved σ (σ.startFiber p on).1 := ⟨rfl, by simp [Store.startFiber, Activity.observes?]⟩

theorem Prog.step_unobserved (p : Prog) (e : ExecutionId) (link : Link) (σ : Store) :
    Next.Unobserved σ ((p.step e link σ).store, (p.step e link σ).calls) := by
  cases p with
  | connected register => exact ⟨rfl, by simp [Prog.step, Activity.observes?]⟩
  | cancelable register =>
    refine ⟨rfl, ?_⟩
    simp only [Prog.step, List.mem_append, List.mem_singleton]
    rintro a (ha | rfl)
    · exact Store.observes_push _ _ _ a ha
    · rfl
  | bracket acquire use release =>
    refine ⟨rfl, ?_⟩
    simp only [Prog.step, List.mem_append, List.mem_singleton]
    rintro a (ha | rfl)
    · exact Store.observes_push _ _ _ a ha
    · rfl
  | race p q on => exact σ.fork_unobserved .first p q on link
  | both p q on f => exact σ.fork_unobserved .both p q on link
  | racePair p q on => exact ⟨rfl, by simp [Prog.step, Store.startFiber, Activity.observes?]⟩
  | start p on => exact σ.startFiber_unobserved p on
  | spawn s p => exact σ.startFiber_unobserved p _
  | joinEach fs => cases fs <;> exact ⟨rfl, by simp [Prog.step]⟩
  | outcome f =>
    refine Store.wait_unobserved (fun s σ => ?_) σ
    dsimp only
    split <;> exact ⟨rfl, by simp [Activity.observes?]⟩
  | permits s n =>
    refine Store.wait_unobserved (fun s σ => ⟨rfl, ?_⟩) σ
    dsimp only
    split
    · exact Store.observes_completeSteps _ _
    · simp
  | instant a =>
    cases a with
    | release i n => exact ⟨rfl, Store.observes_completeSteps _ _⟩
    | _ => exact ⟨rfl, by simp [Prog.step, Instant.perform]⟩
  | shift on => exact Store.wait_unobserved (fun _ _ => ⟨rfl, by simp [Activity.observes?]⟩) σ
  | sleep d => exact σ.awaitJob_unobserved _ _ link
  | remote c => exact σ.awaitJob_unobserved _ _ link
  | awaited p =>
    exact ((σ.newFuture p).1.awaitJob_unobserved (fun s _ => .poll (σ.newFuture p).2 s) true link).of_runs rfl
  | pop c =>
    have h : (σ.popToken c).1.runs = σ.runs := rfl
    simp only [Prog.step]
    split <;> exact ⟨by simp_all, by simp⟩
  | stored i =>
    simp only [Prog.step]
    split <;> exact ⟨rfl, by simp⟩
  | _ => exact ⟨rfl, by simp [Prog.step]⟩

theorem Token.begin_unobserved (t : Token) (link : Link) (σ : Store) :
    Next.Unobserved σ ((t.begin link σ).store, (t.begin link σ).calls) := by
  cases t with
  | cleanup c =>
    cases c with
    | program i =>
      simp only [Token.begin, Cleanup.begin]
      split <;> exact ⟨rfl, by simp⟩
    | _ => exact ⟨rfl, by simp [Token.begin, Cleanup.begin]⟩
  | connection c =>
    have h : (σ.cancel c).1.runs = σ.runs := rfl
    simp only [Token.begin]
    split <;> exact ⟨by simp_all, by simp⟩
  | fiber f =>
    simp only [Token.begin]
    split <;> exact ⟨rfl, by simp⟩
  | _ => exact ⟨rfl, by simp [Token.begin]⟩

theorem Node.step_unobserved (n : Node) (e : ExecutionId) (link : Link) (σ : Store) :
    Next.Unobserved σ ((n.step e link σ).store, (n.step e link σ).calls) := by
  cases n with
  | program p => exact p.step_unobserved e link σ
  | token t => exact t.begin_unobserved link σ
  | result r => exact ⟨rfl, by simp [Node.step]⟩
  | sweep of ts => cases ts <;> exact ⟨rfl, by simp [Node.step, Store.sweep]⟩
  | release g v x =>
    simp only [Node.step]
    split <;> exact ⟨rfl, by simp⟩
  | gate g =>
    refine Store.wait_unobserved (fun s σ => ⟨rfl, ?_⟩) σ
    dsimp only
    split
    · simp
    · exact Store.observes_completeSteps _ _

theorem Frame.resume_unobserved (f : Frame) (r : Result) (link : Link) (σ : Store) :
    Next.Unobserved σ ((f.resume r link σ).store, (f.resume r link σ).calls) := by
  cases f with
  | sweep of t ts first => cases ts <;> exact ⟨rfl, by simp [Frame.resume, Store.sweep]⟩
  | openGate g =>
    cases r with
    | ok v => exact ⟨rfl, Store.observes_completeSteps _ _⟩
    | error e => exact ⟨rfl, by simp [Frame.resume]⟩
  | publishCancelled f =>
    cases r with
    | ok v => exact ⟨rfl, Store.observes_publish _ _ _⟩
    | error e => exact ⟨rfl, by simp [Frame.resume]⟩
  | _ =>
    unfold Frame.resume
    dsimp only
    repeat' split
    all_goals exact ⟨rfl, by simp [Activity.observes?]⟩

theorem Loop.step_unobserved (s : Stage) (l : Loop) (σ : Store) : Next.Unobserved σ (l.step s σ) := by
  have hwork : ∀ {t : Turn} {s l}, Next.Unobserved σ (t.store, t.calls) →
      Next.Unobserved σ (t.store, t.calls ++ [.work s l]) := fun h => h.append (by simp [Activity.observes?])
  cases s with
  | looking n =>
    simp only [Loop.step]
    split
    · exact ⟨rfl, by simp [Activity.observes?]⟩
    · exact hwork (n.step_unobserved l.id l.link σ)
  | handing r =>
    obtain ⟨e, link, _ | ⟨f, fs⟩, k⟩ := l
    · exact ⟨rfl, by simp [Loop.step, Activity.observes?]⟩
    · exact hwork (f.resume_unobserved r link σ)
  | delaying c => exact hwork ⟨(c.move_unobserved σ).runs, (c.move_unobserved σ).calls⟩
  | suspending c => exact hwork ⟨(c.move_unobserved σ).runs, (c.move_unobserved σ).calls⟩
  | mapping c => exact hwork ⟨(c.move_unobserved σ).runs, (c.move_unobserved σ).calls⟩
  | leaving b =>
    simp only [Loop.step, Store.leave]
    split <;> exact ⟨rfl, by simp [Activity.observes?]⟩

/-! ## Calls -/

theorem Sink.receive_unobserved {k : Sink} (hk : ∀ r, k ≠ .observer r) (r : Result) (σ : Store) :
    Next.Unobserved σ (k.receive r σ) := by
  cases k with
  | observer i => exact absurd rfl (hk i)
  | fiber f =>
    simp only [Sink.receive, Store.endFiber]
    repeat' split
    · exact ⟨rfl, Store.observes_publish _ _ _⟩
    · exact ⟨rfl, by simp⟩
    · exact ⟨rfl, Store.observes_publish _ _ _⟩
  | acquired g =>
    simp only [Sink.receive, Store.endAcquire]
    repeat' split
    · exact ⟨rfl, by simp⟩
    · refine ⟨rfl, fun a ha => (List.mem_append.1 ha).elim (Store.observes_completeSteps _ _ a) ?_⟩
      simp only [List.mem_singleton]
      rintro rfl
      rfl
    · exact ⟨rfl, by simp [Activity.observes?]⟩
    · exact ⟨rfl, by simp [Activity.observes?]⟩
  | side k x =>
    simp only [Sink.receive, Store.endSide]
    repeat' split
    all_goals exact ⟨rfl, by simp [Store.settle, Store.settleBoth, Activity.observes?]⟩
  | lateRelease g =>
    simp only [Sink.receive]
    split <;> exact ⟨rfl, by simp [Activity.observes?]⟩
  | settle k x =>
    simp only [Sink.receive]
    split <;> exact ⟨rfl, by simp [Activity.observes?]⟩
  | fail k cause =>
    simp only [Sink.receive]
    split <;> exact ⟨rfl, by simp [Activity.observes?]⟩
  | _ => exact ⟨rfl, by simp [Sink.receive]⟩

theorem Store.dropFuture_unobserved (f : FutureId) (σ : Store) : Next.Unobserved σ (σ.dropFuture f) := by
  unfold Store.dropFuture
  repeat' split
  all_goals exact ⟨rfl, by simp [Activity.observes?]⟩

/-- Only the first poll of a future begins its run. -/
theorem Store.startFuture_observes (f : FutureId) (waker : Option JobId) (σ : Store) :
    (σ.startFuture f waker).Unobserved σ ∨ (σ.startFuture f waker).Observes σ := by
  unfold Store.startFuture
  split
  · exact .inr ⟨⟨_, _, [], ⟨rfl, rfl⟩, rfl, rfl, by simp⟩⟩
  · exact .inl ⟨rfl, by simp⟩

theorem Task.step_observes (t : Task) (σ : Store) : (t.step σ).Unobserved σ ∨
    (t.step σ).Observes σ ∧ ∃ j f s, t = .job j ∧ σ.jobs[j]? = some (.poll f s) := by
  cases t with
  | job j =>
    simp only [Task.step]
    split
    · rename_i job hjob
      cases job with
      | poll f s =>
        rcases σ.startFuture_observes f (some j) with h | ⟨⟨run, n, others, hrun⟩⟩
        · exact .inl (h.append (by simp [Activity.observes?]))
        · refine .inr ⟨⟨run, n, others ++ [.polling j], hrun.1, hrun.2.1, ?_, ?_⟩, j, f, s, rfl, hjob⟩
          · simp only [Job.step, hrun.2.2.1, List.cons_append]
          · intro a ha
            refine (List.mem_append.1 ha).elim (hrun.2.2.2 a) fun ha => ?_
            cases List.mem_singleton.1 ha
            rfl
      | drop f => exact .inl ((Store.dropFuture_unobserved f _).of_runs rfl)
      | timer due s => exact .inl ⟨rfl, Store.observes_completeSteps _ _⟩
      | call c s => exact .inl ⟨rfl, by simp [Job.step, Activity.observes?]⟩
      | _ => exact .inl ⟨rfl, by simp [Job.step]⟩
    · exact .inl ⟨rfl, by simp⟩
  | resume s => exact .inl ⟨rfl, Store.observes_completeSteps _ _⟩
  | _ => exact .inl ⟨rfl, by simp [Task.step, Activity.observes?]⟩

/-- **A call leaves the observed runs alone, or polls a future and begins one, or reports a result.** -/
theorem Activity.step_observes (a : Activity) (σ : Store) :
    (a.step σ).Unobserved σ ∨
      ((a.step σ).Observes σ ∧ ∃ j f s, a = .execute .immediate (.job j) ∧ σ.jobs[j]? = some (.poll f s)) ∨
        ∃ e r x, a = .deliver e (.observer r) x := by
  cases a with
  | start n link k => exact .inl ⟨rfl, by simp [Activity.step, Activity.observes?]⟩
  | work s l => exact .inl (l.step_unobserved s σ)
  | registering c b =>
    exact .inl (c.advance_unobserved (fun _ => rfl)
      (fun o σ => by cases o <;> exact ⟨rfl, by simp [Store.registered, Activity.observes?]⟩) σ)
  | registeringStep c s =>
    exact .inl (c.advance_unobserved (fun _ => rfl)
      (fun o σ => by cases o <;> exact ⟨rfl, by simp [Store.registeredStep, Activity.observes?]⟩) σ)
  | fillSlot s c =>
    simp only [Activity.step, Store.fillSlot]
    split <;> exact .inl ⟨rfl, by simp [Activity.observes?]⟩
  | deliver e k r =>
    by_cases hk : ∃ i, k = .observer i
    · obtain ⟨i, rfl⟩ := hk
      exact .inr (.inr ⟨e, i, r, rfl⟩)
    · exact .inl (Sink.receive_unobserved (fun i hi => hk ⟨i, hi⟩) r σ)
  | complete c r =>
    left
    cases c with
    | boundary b =>
      simp only [Activity.step, Completer.complete, Store.completeBoundary]
      split <;> exact ⟨rfl, by simp [Activity.observes?]⟩
    | callback b =>
      simp only [Activity.step, Completer.complete, Store.completeCallback]
      split <;> exact ⟨rfl, by simp [Activity.observes?]⟩
    | step s source =>
      simp only [Activity.step, Completer.complete, Store.completeStep]
      repeat' split
      all_goals exact ⟨rfl, by simp [Activity.observes?]⟩
  | notify f l o =>
    left
    cases l with
    | step s => exact ⟨rfl, by simp [Activity.step, Activity.observes?]⟩
    | duel k x =>
      simp only [Activity.step, Store.endDuel]
      repeat' split
      all_goals exact ⟨rfl, by simp [Activity.observes?]⟩
  | listen f l =>
    left
    simp only [Activity.step]
    split <;> exact ⟨rfl, by simp [Activity.observes?]⟩
  | execute on t =>
    cases on with
    | immediate =>
      obtain h | ⟨h, j, f, s, rfl, hjob⟩ := t.step_observes σ
      · exact .inl h
      · exact .inr (.inl ⟨h, j, f, s, rfl, hjob⟩)
    | _ => exact .inl ⟨rfl, by simp [Activity.step, Executor.submit]⟩
  | startRight left q on parent k =>
    exact .inl ((σ.startFiber_unobserved q on).append (by simp [Activity.observes?]))
  | tie left right parent k =>
    refine .inl ⟨rfl, fun a ha => (List.mem_append.1 ha).elim (Store.observes_push _ _ _ a) fun ha => ?_⟩
    simp only [List.mem_cons, List.not_mem_nil, or_false] at ha
    rcases ha with rfl | rfl <;> rfl
  | calling c s =>
    exact .inl (c.advance_unobserved (fun _ => rfl)
      (fun o σ => by cases o <;> exact ⟨rfl, by simp [Store.called, Activity.observes?]⟩) σ)
  | polling j =>
    left
    simp only [Activity.step, Store.poll]
    repeat' split
    all_goals exact ⟨rfl, by simp [Activity.observes?]⟩

/-- **An input leaves the observed runs alone, or begins one.** -/
theorem Input.step_observes (i : Input) (σ : Store) : (i.step σ).Unobserved σ ∨
    (i.step σ).Observes σ ∧ ((∃ p label cancelable, i = .run p label cancelable) ∨ ∃ f, i = .startFuture f) := by
  cases i with
  | move c => exact .inl (c.move_unobserved σ)
  | run p label cancelable =>
    refine .inr ⟨?_, .inl ⟨p, label, cancelable, rfl⟩⟩
    cases cancelable <;> exact ⟨⟨_, _, [], ⟨rfl, rfl⟩, rfl, rfl, by simp⟩⟩
  | pushPair link left right => exact .inl ⟨rfl, Store.observes_push _ _ _⟩
  | tick queue place =>
    left
    simp only [Input.step]
    split <;> exact ⟨rfl, by simp [Activity.observes?]⟩
  | ready place =>
    left
    simp only [Input.step]
    split <;> exact ⟨rfl, by simp [Activity.observes?]⟩
  | startFuture f => exact (σ.startFuture_observes f none).imp_right fun h => ⟨h, .inr ⟨f, rfl⟩⟩
  | dropFuture f => exact .inl (σ.dropFuture_unobserved f)
  | _ => exact .inl ⟨rfl, by simp [Input.step, Activity.observes?]⟩

end Steps

/-! ## Who begins a run -/

/-- The run that begins at this moment, and its connection. -/
def Moment.observes? (m : Moment) : Option (RunId × Link) := m.call.bind Activity.observes?

/-- What is reported of the run at this moment. -/
def Moment.report? (r : RunId) (m : Moment) : Option Result :=
  match m.call with
  | some (.deliver _ (.observer i) x) =>
    if i = r then
      (m.before.runs[r]?).bind fun run => if m.before.silences run x then none else some x
    else none
  | _ => none

theorem Store.runLink?_modify (r : RunId) (f : Run → Run) (hf : ∀ run, (f run).link = run.link)
    (runs : Array Run) (i : RunId) :
    (runs.modify i f)[r]?.map Run.link = runs[r]?.map Run.link := by
  rw [Array.getElem?_modify]
  split
  · rw [Option.map_map]
    exact congrArg (Option.map · _) (funext hf)
  · rfl

/-- A report leaves the connections of the runs alone. -/
theorem Store.report_runLink? (r i : RunId) (x : Result) (σ : Store) :
    (σ.report i x).1.runLink? r = σ.runLink? r := by
  unfold Store.report
  split
  · rfl
  · split
    · exact Store.runLink?_modify r (fun run => { run with silent := true }) (fun _ => rfl) σ.runs i
    · exact Store.runLink?_modify r (fun run => { run with results := run.results ++ [x] })
        (fun _ => rfl) σ.runs i

theorem Store.runLink?_push (r : RunId) (run : Run) (σ : Store) {x : Link} (h : σ.runLink? r = some x) :
    ((σ.runs.push run)[r]?.map Run.link) = some x := by
  obtain ⟨old, hold, hlink⟩ := Option.map_eq_some_iff.1 h
  rw [Array.getElem?_push_lt (Array.getElem?_eq_some_iff.1 hold).1,
    ← Array.getElem?_eq_getElem, hold]
  exact congrArg some hlink

/-- What is reported of a run comes after what was reported before. -/
theorem Store.report_results (r i : RunId) (e : ExecutionId) (x : Result) (σ : Store) (next : Next) :
    (σ.report i x).1.results r =
      σ.results r ++ (Moment.report? r ⟨some (.deliver e (.observer i) x), σ, next⟩).toList := by
  unfold Store.report Moment.report?
  dsimp only
  split
  · rename_i hnone
    split
    · rename_i h
      simp [← h, hnone]
    · simp
  · rename_i run hrun
    by_cases hi : i = r
    · subst hi
      cases hs : σ.silences run x with
      | true => simp [Store.results, Store.emit, Array.getElem?_modify, hrun, hs]
      | false => simp [Store.results, Store.emit?, Array.getElem?_modify, hrun, hs]
    · cases hs : σ.silences run x <;>
        simp [Store.results, Store.emit, Store.emit?, Array.getElem?_modify, hi]

/-- Only the delivery of a result to a run is a report. -/
theorem Moment.of_report? {r : RunId} {m : Moment} {x : Result} (h : m.report? r = some x) :
    ∃ e run, m.call = some (.deliver e (.observer r) x) ∧ m.before.runs[r]? = some run ∧
      m.before.silences run x = false := by
  unfold Moment.report? at h
  split at h
  · rename_i e i y hcall
    split at h
    · rename_i hi
      subst hi
      obtain ⟨run, hrun, h⟩ := Option.bind_eq_some_iff.1 h
      cases hs : m.before.silences run y
      · rw [hs] at h
        cases h
        exact ⟨e, run, hcall, hrun, hs⟩
      · rw [hs] at h
        exact absurd h nofun
    · exact absurd h nofun
  · exact absurd h nofun

namespace Session

variable {cs cs₀ : List Choice} {e : ExecutionId} {r : RunId} {c : ConnectionId}

/-- The runs that began or are going to begin, each with its connection. -/
def observed (S : Session) : List (RunId × Link) :=
  S.past.filterMap Moment.observes? ++ S.calls.filterMap Activity.observes?

/-- Every run begins once, under its connection. -/
structure Observing (S : Session) : Prop where
  nodup : (S.observed.map Prod.fst).Nodup
  there : ∀ x ∈ S.observed, S.store.runLink? x.1 = some x.2

theorem observed_record {S : Session} {call : Option Activity} {next : Next} {others : List Activity}
    (hcalls : S.calls.Perm (call.toList ++ others)) :
    (S.record call next others).observed.Perm (next.2.filterMap Activity.observes? ++ S.observed) := by
  have hcall : (S.record call next others).past.filterMap Moment.observes? =
      call.toList.filterMap Activity.observes? ++ S.past.filterMap Moment.observes? := by
    cases call with
    | none => rfl
    | some a => cases ha : a.observes? <;> simp [Moment.observes?, ha]
  have hrest := (hcalls.filterMap Activity.observes?).symm
  rw [List.filterMap_append] at hrest
  rw [observed, hcall, record_calls, List.filterMap_append, observed]
  refine (List.perm_append_comm_assoc _ _ _).trans (.append_left _ ?_)
  rw [List.append_assoc]
  exact (List.perm_append_comm_assoc _ _ _).trans (.append_left _ hrest)

/-- A step that begins no run keeps the runs with their connections. -/
theorem Observing.kept {S : Session} {call : Option Activity} {next : Next} {others : List Activity}
    (h : S.Observing) (hcalls : S.calls.Perm (call.toList ++ others))
    (hnone : ∀ a ∈ next.2, a.observes? = none) (hruns : ∀ r, next.1.runLink? r = S.store.runLink? r) :
    (S.record call next others).Observing := by
  have hperm : (S.record call next others).observed.Perm _ := observed_record hcalls
  rw [List.filterMap_eq_nil_iff.2 hnone, List.nil_append] at hperm
  refine ⟨(hperm.map _).nodup_iff.2 h.nodup, fun x hx => ?_⟩
  rw [record_store, hruns]
  exact h.there x (hperm.mem_iff.1 hx)

/-- A step that creates a run begins it under its connection. -/
theorem Observing.added {S : Session} {call : Option Activity} {next : Next} {others : List Activity}
    (h : S.Observing) (hcalls : S.calls.Perm (call.toList ++ others)) (hnext : next.Observes S.store) :
    (S.record call next others).Observing := by
  obtain ⟨run, n, rest, -, hruns, hnew, hrest⟩ := hnext.begins
  have hperm : (S.record call next others).observed.Perm _ := observed_record hcalls
  rw [hnew, List.filterMap_cons, List.filterMap_eq_nil_iff.2 hrest] at hperm
  have hlt : ∀ x ∈ S.observed, x.1 < S.store.runs.size := fun x hx => by
    obtain ⟨old, hold, -⟩ := Option.map_eq_some_iff.1 (h.there x hx)
    exact (Array.getElem?_eq_some_iff.1 hold).1
  constructor
  · refine (hperm.map _).nodup_iff.2 (List.nodup_cons.2 ⟨fun hmem => ?_, h.nodup⟩)
    obtain ⟨x, hx, heq⟩ := List.mem_map.1 hmem
    exact absurd (hlt x hx) (by simp [heq])
  · intro x hx
    rw [record_store, Store.runLink?, hruns]
    rcases List.mem_cons.1 (hperm.mem_iff.1 hx) with rfl | hx
    · simp
    · exact Store.runLink?_push _ run S.store (h.there x hx)

/-- **Every run begins once, under its connection.** -/
theorem observing (cs : List Choice) : (after cs).Observing := by
  refine invariant ⟨List.nodup_nil, by simp [observed]⟩ ?_ ?_ cs
  · intro cs i h
    obtain hnext | hnext := i.step_observes (after cs).store
    · exact h.kept (.refl _) hnext.calls fun r => by rw [Store.runLink?, hnext.runs, Store.runLink?]
    · exact h.added (.refl _) hnext.1
  · intro cs a xs ys hS h
    have hcalls : (after cs).calls.Perm ((some a).toList ++ (xs ++ ys)) := by
      rw [hS]
      exact List.perm_middle
    obtain hnext | hnext | ⟨e, r, x, rfl⟩ := a.step_observes (after cs).store
    · exact h.kept hcalls hnext.calls fun r => by rw [Store.runLink?, hnext.runs, Store.runLink?]
    · exact h.added hcalls hnext.1
    · refine h.kept hcalls ?_ fun i => Store.report_runLink? i r x _
      change ∀ a ∈ ((after cs).store.report r x).2, _
      unfold Store.report
      repeat' split
      all_goals simp

/-! ## What is reported -/

theorem Made.results {x : Choice} {m : Moment} (hm : Made cs x m) (r : RunId) :
    (after (x :: cs)).store.results r = (after cs).store.results r ++ (m.report? r).toList := by
  have hnone : ∀ {next : Next}, next.1.runs = (after cs).store.runs ∨ next.Observes (after cs).store →
      next.1.results r = (after cs).store.results r := by
    rintro next (hruns | hnext)
    · rw [Store.results, hruns, Store.results]
    · obtain ⟨run, -, -, hempty, hruns, -⟩ := hnext.begins
      rw [Store.results, hruns, Store.results, Array.getElem?_push]
      split
      · rename_i h
        simp [h, hempty.1]
      · rfl
  rw [hm.store]
  obtain ⟨i, -, hcall, hnext⟩ | ⟨place, a, -, ha, hcall, hnext⟩ := hm.how
  · rw [hnext, hm.before, Moment.report?, hcall, Option.toList_none, List.append_nil]
    exact hnone ((i.step_observes _).imp Next.Unobserved.runs And.left)
  · by_cases hreport : ∃ e i x, a = .deliver e (.observer i) x
    · obtain ⟨e, i, x, rfl⟩ := hreport
      obtain ⟨call, before, next⟩ := m
      obtain rfl : call = _ := hcall
      obtain rfl : before = _ := hm.before
      rw [hnext]
      exact Store.report_results r i e x _ next
    · have hm' : m.report? r = none := Option.eq_none_iff_forall_ne_some.2 fun x hx => by
        obtain ⟨e, -, hdeliver, -⟩ := Moment.of_report? hx
        exact hreport ⟨e, r, x, Option.some.inj (hcall ▸ hdeliver)⟩
      rw [hnext, hm.before, hm', Option.toList_none, List.append_nil]
      obtain h | h | h := a.step_observes (after cs).store
      · exact hnone (.inl h.runs)
      · exact hnone (.inr h.1)
      · exact absurd h hreport

/-- **What was reported of a run** is what its deliveries reported, in their order. -/
theorem results_eq (r : RunId) (cs : List Choice) :
    (after cs).store.results r = ((after cs).past.filterMap (·.report? r)).reverse := by
  induction cs with
  | nil => rfl
  | cons x cs ih =>
    obtain hsame | ⟨m, hm⟩ := made_or cs x
    · rw [hsame, ih]
    · rw [hm.results, hm.past, ih]
      cases hr : m.report? r <;> simp [hr]

/-- A run is the sink of one execution at most. -/
theorem observer_unique {e' : ExecutionId} (h : (after cs).Began e (.observer r))
    (h' : (after cs).Began e' (.observer r)) : e' = e := by
  obtain ⟨m, hm, ⟨n, link, hcall⟩, rfl⟩ := h
  obtain ⟨m', hm', ⟨n', link', hcall'⟩, rfl⟩ := h'
  have hnodup := (observing cs).nodup
  rw [observed, List.map_append, List.map_filterMap] at hnodup
  have hapart := List.pairwise_filterMap.1 (List.nodup_append.1 hnodup).1
  have hbegins : m.observes?.map Prod.fst = some r := by simp [Moment.observes?, hcall, Activity.observes?]
  have hbegins' : m'.observes?.map Prod.fst = some r := by simp [Moment.observes?, hcall', Activity.observes?]
  obtain ⟨newer, older, hpast⟩ := List.append_of_mem hm
  rw [hpast] at hapart hm'
  obtain ⟨-, hfrom, hacross⟩ := List.pairwise_append.1 hapart
  obtain hm' | hm' := List.mem_append.1 hm'
  · exact absurd rfl (hacross m' hm' m (.head _) r hbegins' r hbegins)
  · obtain rfl | hm' := List.mem_cons.1 hm'
    · rfl
    · exact absurd rfl ((List.pairwise_cons.1 hfrom).1 m' hm' r hbegins r hbegins')

/-- The execution that reports of the run. -/
theorem began_of_report {m : Moment} {x : Result} (hm : m ∈ (after cs).past) (h : m.report? r = some x) :
    ∃ e, (after cs).Began e (.observer r) ∧ m.call = some (.deliver e (.observer r) x) := by
  obtain ⟨e, -, hcall, -⟩ := Moment.of_report? h
  exact ⟨e, (began_of_delivered hm hcall).1, hcall⟩

/-- **A run reports once at most.** -/
theorem results_le (r : RunId) (cs : List Choice) : ((after cs).store.results r).length ≤ 1 := by
  rw [results_eq, List.length_reverse, List.length_filterMap_eq_countP]
  by_cases hnone : ∃ m ∈ (after cs).past, (m.report? r).isSome
  · obtain ⟨m, hm, hsome⟩ := hnone
    obtain ⟨x, hx⟩ := Option.isSome_iff_exists.1 hsome
    obtain ⟨e, he, -⟩ := began_of_report hm hx
    have hledger := ledger e cs
    have hle : (after cs).past.countP (fun m => (m.report? r).isSome) ≤ (after cs).delivered e := by
      refine List.countP_mono_left fun m' hm' hsome' => ?_
      obtain ⟨x', hx'⟩ := Option.isSome_iff_exists.1 hsome'
      obtain ⟨e', he', hcall'⟩ := began_of_report hm' hx'
      cases observer_unique he he'
      simp [Moment.delivers, hcall']
    unfold holders at hledger
    split at hledger <;> omega
  · rw [List.countP_eq_zero.2 fun m hm h => hnone ⟨m, hm, h⟩]
    exact Nat.zero_le _

/-! ## After the cancellation -/

/-- A run keeps its connection. -/
theorem runLink?_after {link : Link} (cs₀ cs : List Choice)
    (h : (after cs₀).store.runLink? r = some link) :
    (after (cs ++ cs₀)).store.runLink? r = some link := by
  have hstep : ∀ {σ : Store} {next : Next}, σ.runLink? r = some link →
      next.Unobserved σ ∨ next.Observes σ → next.1.runLink? r = some link := by
    rintro σ next h (hnext | hnext)
    · rwa [Store.runLink?, hnext.runs]
    · obtain ⟨run, -, -, -, hruns, -⟩ := hnext.begins
      rw [Store.runLink?, hruns]
      exact Store.runLink?_push r run σ h
  refine invariant_from (P := fun S => S.store.runLink? r = some link) h
    (fun cs i h => hstep h ((i.step_observes _).imp_right And.left)) (fun cs a xs ys hS h => ?_) cs
  obtain hnext | hnext | ⟨e, i, x, rfl⟩ := a.step_observes (after (cs ++ cs₀)).store
  · exact hstep h (.inl hnext)
  · exact hstep h (.inr hnext.1)
  · exact (Store.report_runLink? r i x _).trans h

end Session

/-- The loop hands a result on, or calls a closure whose result it hands on: it comes to its end unless
a frame makes it look at something. -/
def Stage.InFlight : Stage → Prop
  | .handing _ | .delaying _ | .mapping _ => True
  | _ => False

namespace Session

variable {cs cs₀ : List Choice} {e : ExecutionId} {r : RunId} {c : ConnectionId}

/-- After the choices `cs₀` the execution was past its last look at its connection: all that it has done
since was to hand results on. -/
structure PastLook (c : ConnectionId) (e : ExecutionId) (cs₀ : List Choice) (S : Session) : Prop where
  there : ∃ s l, (after cs₀).Has s l ∧ l.id = e ∧ l.link = some c ∧ s.InFlight
  since : ∀ later, S.past = later ++ (after cs₀).past →
    ∀ m ∈ later, ∀ s l, m.call = some (.work s l) → l.id = e → s.InFlight

/-- An execution stays past its last look if its step, when it takes one, is to hand a result on. -/
theorem PastLook.step {x : Choice} (h : PastLook c e cs₀ (after (cs ++ cs₀)))
    (hx : ∀ place s l, x = .call place → (after (cs ++ cs₀)).calls[place]? = some (.work s l) →
      l.id = e → s.InFlight) : PastLook c e cs₀ (after (x :: (cs ++ cs₀))) := by
  refine ⟨h.there, fun later hlater m hm s l hcall hid => ?_⟩
  obtain hsame | ⟨m', hm'⟩ := made_or (cs ++ cs₀) x
  · rw [hsame] at hlater
    exact h.since later hlater m hm s l hcall hid
  · obtain ⟨old, hold⟩ := past_suffix cs₀ cs
    rw [hm'.past, ← hold, ← List.cons_append, List.append_cancel_right_eq] at hlater
    subst hlater
    obtain rfl | hm := List.mem_cons.1 hm
    · obtain ⟨i, -, hnone, -⟩ | ⟨place, a, rfl, ha, hsome, -⟩ := hm'.how
      · cases hcall.symm.trans hnone
      · cases hcall.symm.trans hsome
        exact hx place s l rfl ha hid
    · exact h.since old hold.symm m hm s l hcall hid

/-- An execution that has come to its end stays there. -/
theorem ended_stays (e : ExecutionId) (cs₀ cs : List Choice) :
    (after cs₀).delivering e + (after cs₀).delivered e ≤
      (after (cs ++ cs₀)).delivering e + (after (cs ++ cs₀)).delivered e := by
  refine invariant_from (P := fun S => (after cs₀).delivering e + (after cs₀).delivered e ≤
    S.delivering e + S.delivered e) (Nat.le_refl _) (fun cs i h => ?_) (fun cs a xs ys hS h => ?_) cs
  · refine Nat.le_trans h ?_
    simp only [delivering, delivered, record_calls, record_past, List.countP_append, List.countP_cons]
    omega
  · refine Nat.le_trans h ?_
    have hcall : (Moment.mk (some a) (after (cs ++ cs₀)).store (a.step (after (cs ++ cs₀)).store)).delivers e =
      a.delivers e := rfl
    simp only [delivering, delivered, record_calls, record_past, List.countP_append, List.countP_cons, hS,
      hcall]
    omega

/-- An execution that has come to its end stays past its last look. -/
theorem PastLook.ended (h : PastLook c e cs₀ (after (cs ++ cs₀)))
    (hend : 0 < (after (cs ++ cs₀)).delivering e + (after (cs ++ cs₀)).delivered e) (cs' : List Choice) :
    PastLook c e cs₀ (after (cs' ++ (cs ++ cs₀))) := by
  induction cs' with
  | nil => exact h
  | cons x cs' ih =>
    rw [← List.append_assoc] at ih ⊢
    refine ih.step fun place s l hx hcall hid => absurd (ledger e (cs' ++ cs ++ cs₀)) ?_
    have hwork : 0 < (after (cs' ++ cs ++ cs₀)).working e :=
      List.countP_pos_iff.2 ⟨_, List.mem_of_getElem? hcall, by simp [hid]⟩
    have hstays := ended_stays e (cs ++ cs₀) cs'
    rw [← List.append_assoc] at hstays
    unfold holders
    split <;> omega

end Session

end CancelableEffects
