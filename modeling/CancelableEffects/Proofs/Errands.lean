import CancelableEffects.Proofs.Session

/-!
# Errands — what is done to futures

* `Errand`: a future is polled, has given its result, or is dropped; `Activity.errand?`, `Input.errand?`: which
  of them a step is.
* `Future.met`: what an errand leaves of a future; `Future.Grows`: what stays of it.
* `Store.Attends`: a step does its errand, and besides it at most adds a future.
* **`Activity.step_attends`**, **`Input.step_attends`**: every step does so.
* `Store.startFuture_of_fresh`, `Store.startFuture_of_not_fresh`: only the first errand begins a run, if it
  is a poll.
-/

namespace CancelableEffects

/-- What is done to a future. -/
inductive Errand where
  | poll (f : FutureId)
  /-- Somebody was given its result. -/
  | finish (f : FutureId)
  | drop (f : FutureId)
  deriving DecidableEq, Repr

/-- The future to which it is done. -/
def Errand.future : Errand → FutureId
  | .poll f | .finish f | .drop f => f

/-- What is done to a future by going on with the job. -/
def Job.errand? : Job → Option Errand
  | .poll f _ => some (.poll f)
  | .drop f => some (.drop f)
  | _ => none

/-- What the call does to a future. -/
def Activity.errand? (σ : Store) : Activity → Option Errand
  | .execute .immediate (.job j) => σ.jobs[j]?.bind Job.errand?
  | .polling j =>
    match σ.jobs[j]? with
    | some (.poll f _) => (σ.futureResult f).map fun _ => .finish f
    | _ => none
  | _ => none

/-- What the input does to a future. -/
def Input.errand? : Input → Option Errand
  | .startFuture f => some (.poll f)
  | .finishFuture f => some (.finish f)
  | .dropFuture f => some (.drop f)
  | _ => none

/-- Nothing was done to the future yet. -/
def Future.Fresh (x : Future) : Prop := x.run = none ∧ x.finished = false

instance (x : Future) : Decidable x.Fresh := inferInstanceAs (Decidable (_ ∧ _))

/-- What the errand leaves of a future, if it is done to that; `r` is the next run. -/
def Errand.leave (r : RunId) (x : Future) : Errand → Future
  | .poll _ => if x.Fresh then { x with run := some r } else x
  | .finish _ | .drop _ => { x with finished := true }

/-- What is left of the future `f`, if something is done to a future. -/
def Future.met (r : RunId) (f : FutureId) (d : Option Errand) (x : Future) : Future :=
  match d with
  | some d => if d.future = f then d.leave r x else x
  | none => x

/-- What stays of a future. -/
structure Future.Grows (x x' : Future) : Prop where
  program : x'.program = x.program
  run : ∀ r, x.run = some r → x'.run = some r
  finished : x.finished = true → x'.finished = true

/-- The step does its errand and leaves the other futures alone; a future that it adds is new, with a
program of its own. -/
structure Store.Attends (σ : Store) (d : Option Errand) (σ' : Store) : Prop where
  old : ∀ (f : FutureId) (x : Future), σ.futures[f]? = some x → σ'.futures[f]? = some (x.met σ.runs.size f d)
  new : ∀ (f : FutureId) (x : Future), σ.futures[f]? = none → σ'.futures[f]? = some x →
    x = { program := σ.programs.size } ∧ f = σ.futures.size ∧ σ.programs.size < σ'.programs.size
  programs : σ.programs.size ≤ σ'.programs.size

section Steps

variable {σ σ' : Store} {f : FutureId} {x : Future}

@[simp] theorem Future.met_none (r : RunId) (f : FutureId) (x : Future) : x.met r f none = x := rfl

theorem Future.Grows.refl (x : Future) : x.Grows x := ⟨rfl, fun _ => id, id⟩

theorem Errand.leave_grows (r : RunId) (x : Future) (d : Errand) : x.Grows (d.leave r x) := by
  cases d with
  | poll f =>
    simp only [Errand.leave]
    split
    · rename_i hfresh
      exact ⟨rfl, fun r' hr' => absurd (hfresh.1.symm.trans hr') nofun, id⟩
    · exact .refl x
  | _ => exact ⟨rfl, fun _ => id, fun _ => rfl⟩

theorem Future.Grows.trans {x y z : Future} (h : x.Grows y) (h' : y.Grows z) : x.Grows z :=
  ⟨h'.program.trans h.program, fun r hr => h'.run r (h.run r hr), fun hx => h'.finished (h.finished hx)⟩

/-- Whatever was done to a future, it is not fresh any more. -/
theorem Errand.leave_not_fresh (r : RunId) (x : Future) (d : Errand) : ¬(d.leave r x).Fresh := by
  cases d with
  | poll f =>
    simp only [Errand.leave]
    split
    · exact fun h => absurd h.1 nofun
    · assumption
  | _ => exact fun h => absurd h.2 nofun

theorem Future.met_finished {r : RunId} {f : FutureId} {d : Option Errand} {x : Future} :
    (x.met r f d).finished = true ↔ d = some (.finish f) ∨ d = some (.drop f) ∨ x.finished = true := by
  cases d with
  | none => simp [Future.met]
  | some d =>
    simp only [Future.met]
    split
    · cases d with
      | poll f' =>
        simp only [Errand.leave]
        split <;> simp
      | _ => simp_all [Errand.leave, Errand.future]
    · cases d <;> simp_all [Errand.future]

/-- Only the first poll gives a future a run. -/
theorem Future.met_run {r : RunId} {f : FutureId} {d : Option Errand} {x : Future}
    (h : ¬(d = some (.poll f) ∧ x.Fresh)) : (x.met r f d).run = x.run := by
  cases d with
  | none => rfl
  | some d =>
    simp only [Future.met]
    split
    · rename_i hf
      cases d with
      | poll f' =>
        cases hf
        rw [Errand.leave, if_neg fun hfresh => h ⟨rfl, hfresh⟩]
      | _ => rfl
    · rfl

/-- Whatever is done to a future, it stays the same. -/
theorem Future.met_grows (r : RunId) (f : FutureId) (d : Option Errand) (x : Future) : x.Grows (x.met r f d) := by
  cases d with
  | none => exact .refl x
  | some d =>
    simp only [Future.met]
    split
    · exact d.leave_grows r x
    · exact .refl x

/-! ## Futures -/

/-- A step leaves the futures alone. -/
theorem Store.Attends.idle (hfutures : σ'.futures = σ.futures) (hprograms : σ.programs.size ≤ σ'.programs.size) :
    σ.Attends none σ' where
  old f x hx := by rw [hfutures, hx, Future.met_none]
  new f x hnone hx := by
    rw [hfutures, hnone] at hx
    cases hx
  programs := hprograms

theorem Store.Attends.of_eq (hfutures : σ'.futures = σ.futures) (hprograms : σ'.programs = σ.programs) :
    σ.Attends none σ' := .idle hfutures (Nat.le_of_eq (congrArg Array.size hprograms.symm))

/-- What changes before the step but leaves futures, programs and runs alone does not matter. -/
theorem Store.Attends.of_same {τ : Store} {d : Option Errand} (h : τ.Attends d σ') (hfutures : τ.futures = σ.futures)
    (hprograms : τ.programs = σ.programs) (hruns : τ.runs.size = σ.runs.size) : σ.Attends d σ' where
  old f x hx := hruns ▸ h.old f x (hfutures ▸ hx)
  new f x hnone hx := by
    rw [← hfutures, ← hprograms]
    exact h.new f x (hfutures ▸ hnone) hx
  programs := hprograms ▸ h.programs

/-- Nor does what changes after it. -/
theorem Store.Attends.congr {τ : Store} {d : Option Errand} (h : σ.Attends d τ) (hfutures : σ'.futures = τ.futures)
    (hprograms : σ'.programs = τ.programs) : σ.Attends d σ' where
  old f x hx := hfutures ▸ h.old f x hx
  new f x hnone hx := hprograms ▸ h.new f x hnone (hfutures ▸ hx)
  programs := hprograms ▸ h.programs

theorem Store.newFuture_attends (p : Prog) (σ : Store) : σ.Attends none (σ.newFuture p).1 where
  old f x hx := by
    rw [Future.met_none]
    change (σ.futures.push _)[f]? = _
    rw [Array.getElem?_push_lt (Array.getElem?_eq_some_iff.1 hx).1, ← Array.getElem?_eq_getElem, hx]
  new f x hnone hx := by
    change (σ.futures.push _)[f]? = _ at hx
    rw [Array.getElem?_push] at hx
    split at hx
    · rename_i hf
      cases hx
      refine ⟨rfl, hf, ?_⟩
      change _ < (σ.programs.push p).size
      rw [Array.size_push]
      exact Nat.lt_succ_self _
    · rw [hnone] at hx
      cases hx
  programs := by
    change _ ≤ (σ.programs.push p).size
    rw [Array.size_push]
    exact Nat.le_succ _

/-- One future is changed as the errand says. -/
theorem Store.Attends.modify {d : Errand} {g : Future → Future}
    (hfutures : σ'.futures = σ.futures.modify d.future g) (hprograms : σ'.programs = σ.programs)
    (hg : ∀ x, σ.futures[d.future]? = some x → g x = d.leave σ.runs.size x) : σ.Attends (some d) σ' where
  old f x hx := by
    rw [hfutures, Array.getElem?_modify, hx, Future.met]
    split
    · rename_i hf
      rw [Option.map_some, hg x (hf ▸ hx)]
    · rfl
  new f x hnone hx := by
    rw [hfutures, Array.getElem?_modify, hnone] at hx
    split at hx <;> cases hx
  programs := Nat.le_of_eq (congrArg Array.size hprograms.symm)

theorem Store.finishFuture_attends (f : FutureId) (σ : Store) : σ.Attends (some (.finish f)) (σ.finishFuture f) :=
  .modify rfl rfl fun _ _ => rfl

theorem Store.dropFuture_attends (f : FutureId) (σ : Store) : σ.Attends (some (.drop f)) (σ.dropFuture f).1 := by
  have hfinish : ∀ {σ'}, σ'.futures = (σ.finishFuture f).futures → σ'.programs = σ.programs →
      σ.Attends (some (.drop f)) σ' := fun hfutures hprograms =>
    .modify (d := .drop f) (g := fun x => { x with finished := true }) hfutures hprograms fun _ _ => rfl
  unfold Store.dropFuture
  split
  · rename_i hnone
    refine hfinish ?_ rfl
    change σ.futures = σ.futures.modify f fun x => { x with finished := true }
    exact Array.ext_getElem? fun i => by
      rw [Array.getElem?_modify]
      split
      · rename_i hi
        rw [← hi, hnone]
        rfl
      · rfl
  · split <;> exact hfinish rfl rfl

/-- The first poll of a future begins its run, under a connection of its own. -/
theorem Store.startFuture_of_fresh (hx : σ.futures[f]? = some x) (hfresh : x.Fresh) (waker : Option JobId) :
    (σ.startFuture f waker).1.futures = σ.futures.modify f (fun x => { x with run := some σ.runs.size }) ∧
      (σ.startFuture f waker).1.programs = σ.programs ∧
      (σ.startFuture f waker).2 =
        [.start (.token (.cleanup (.program x.program))) (some σ.connections.size) (.observer σ.runs.size)] := by
  obtain ⟨p, run, finished⟩ := x
  obtain ⟨rfl, rfl⟩ := hfresh
  simp only [Store.startFuture, hx]
  exact ⟨rfl, rfl, rfl⟩

/-- A poll of a future that is under way or over begins nothing. -/
theorem Store.startFuture_of_not_fresh (h : ∀ x, σ.futures[f]? = some x → ¬x.Fresh) (waker : Option JobId) :
    σ.startFuture f waker = (σ, []) := by
  unfold Store.startFuture
  split
  · rename_i p hx
    exact absurd ⟨rfl, rfl⟩ (h _ hx)
  · rfl

theorem Store.startFuture_attends (f : FutureId) (waker : Option JobId) (σ : Store) :
    σ.Attends (some (.poll f)) (σ.startFuture f waker).1 := by
  by_cases hfresh : ∃ x, σ.futures[f]? = some x ∧ x.Fresh
  · obtain ⟨x, hx, hfresh⟩ := hfresh
    obtain ⟨hfutures, hprograms, -⟩ := Store.startFuture_of_fresh hx hfresh waker
    refine .modify (d := .poll f) hfutures hprograms fun y hy => ?_
    cases hx.symm.trans hy
    exact (if_pos hfresh).symm
  · rw [Store.startFuture_of_not_fresh fun x hx h => hfresh ⟨x, hx, h⟩]
    have hidle : σ.Attends none σ := .of_eq rfl rfl
    refine ⟨fun f' x hx => ?_, hidle.new, hidle.programs⟩
    rw [hx, Future.met]
    split
    · rename_i hf
      cases hf
      rw [Errand.leave, if_neg fun h => hfresh ⟨x, hx, h⟩]
    · rfl

/-- To drop a future that is over or was never polled cancels nothing. -/
theorem Store.dropFuture_of_idle (hx : σ.futures[f]? = some x) (h : x.finished = true ∨ x.run = none) :
    σ.dropFuture f = (σ.finishFuture f, []) := by
  have hlink : x.run = none → σ.futureLink x = none := fun hrun => by rw [Store.futureLink, hrun, Option.bind_none]
  unfold Store.dropFuture
  simp only [hx]
  split
  · rename_i hfinished hc
    obtain h | h := h
    · cases hfinished.symm.trans h
    · cases (hlink h).symm.trans hc
  · rfl

/-- To drop a future that is under way cancels its connection. -/
theorem Store.dropFuture_of_linked {c : ConnectionId} (hx : σ.futures[f]? = some x) (hfinished : x.finished = false)
    (hlink : σ.futureLink x = some c) :
    (σ.dropFuture f).2 = [.start (.token (.connection (some c))) none (.warn .droppedFuture)] := by
  simp only [Store.dropFuture, hx, hfinished, hlink]

/-! ## Closures and loops -/

theorem Code.move_attends {α : Type} (c : Code Prog α) (σ : Store) : σ.Attends none (c.move σ).1.1 := by
  have hkeep : ∀ {p : Prog} {σ'}, σ'.futures = σ.futures → σ'.programs = σ.programs.push p → σ.Attends none σ' :=
    fun hfutures hprograms => .idle hfutures (by rw [hprograms, Array.size_push]; exact Nat.le_succ _)
  cases c with
  | push link p next =>
    exact hkeep rfl rfl
  | keep p next => exact hkeep rfl rfl
  | _ => exact .of_eq rfl rfl

theorem Code.advance_attends {α : Type} {again : Code Prog α → Activity} {done : Except String α → Store → Next}
    (hd : ∀ o σ, Store.Attends σ none (done o σ).1) (c : Code Prog α) (σ : Store) :
    σ.Attends none (c.advance again done σ).1 := by
  have hm := c.move_attends σ
  cases c with
  | ret a => exact hd _ σ
  | panic m => exact hd _ σ
  | _ => exact hm

theorem Prog.step_attends (p : Prog) (e : ExecutionId) (link : Link) (σ : Store) :
    σ.Attends none (p.step e link σ).store := by
  cases p with
  | outcome f =>
    simp only [Prog.step, Store.awaitOutcome, Store.wait]
    split <;> exact .of_eq rfl rfl
  | joinEach fs => cases fs <;> exact .of_eq rfl rfl
  | instant a => cases a <;> exact .of_eq rfl rfl
  | awaited p => exact (σ.newFuture_attends p).congr rfl rfl
  | pop c =>
    have h : (σ.popToken c).1.futures = σ.futures ∧ (σ.popToken c).1.programs = σ.programs := ⟨rfl, rfl⟩
    simp only [Prog.step]
    split <;> exact .of_eq (by simp_all) (by simp_all)
  | stored i =>
    simp only [Prog.step]
    split <;> exact .of_eq rfl rfl
  | _ => exact .of_eq rfl rfl

theorem Token.begin_attends (t : Token) (link : Link) (σ : Store) : σ.Attends none (t.begin link σ).store := by
  cases t with
  | cleanup c =>
    cases c with
    | program i =>
      simp only [Token.begin, Cleanup.begin]
      split <;> exact .of_eq rfl rfl
    | _ => exact .of_eq rfl rfl
  | connection c =>
    have h : (σ.cancel c).1.futures = σ.futures ∧ (σ.cancel c).1.programs = σ.programs := ⟨rfl, rfl⟩
    simp only [Token.begin]
    split <;> exact .of_eq (by simp_all) (by simp_all)
  | fiber f =>
    simp only [Token.begin]
    split <;> exact .of_eq rfl rfl
  | _ => exact .of_eq rfl rfl

theorem Node.step_attends (n : Node) (e : ExecutionId) (link : Link) (σ : Store) :
    σ.Attends none (n.step e link σ).store := by
  cases n with
  | program p => exact p.step_attends e link σ
  | token t => exact t.begin_attends link σ
  | sweep of ts => cases ts <;> exact .of_eq rfl rfl
  | release g v x =>
    simp only [Node.step]
    split <;> exact .of_eq rfl rfl
  | _ => exact .of_eq rfl rfl

theorem Frame.resume_attends (f : Frame) (r : Result) (link : Link) (σ : Store) :
    σ.Attends none (f.resume r link σ).store := by
  cases f with
  | sweep of t ts first => cases ts <;> exact .of_eq rfl rfl
  | _ =>
    unfold Frame.resume
    dsimp only
    repeat' split
    all_goals exact .of_eq rfl rfl

theorem Loop.step_attends (s : Stage) (l : Loop) (σ : Store) : σ.Attends none (l.step s σ).1 := by
  cases s with
  | looking n =>
    simp only [Loop.step]
    split
    · exact .of_eq rfl rfl
    · exact n.step_attends l.id l.link σ
  | handing r =>
    obtain ⟨e, link, _ | ⟨f, fs⟩, k⟩ := l
    · exact .of_eq rfl rfl
    · exact f.resume_attends r link σ
  | delaying c => exact c.move_attends σ
  | suspending c => exact c.move_attends σ
  | mapping c => exact c.move_attends σ
  | leaving b =>
    simp only [Loop.step, Store.leave]
    split <;> exact .of_eq rfl rfl

/-! ## Calls -/

theorem Sink.receive_attends (k : Sink) (r : Result) (σ : Store) : σ.Attends none (k.receive r σ).1 := by
  cases k <;> simp only [Sink.receive, Store.report, Store.endFiber, Store.endAcquire, Store.endSide] <;>
    repeat' split
  all_goals exact .of_eq rfl rfl

theorem Job.step_attends {j : JobId} {job : Job} (σ : Store) : σ.Attends job.errand? (job.step j σ).1 := by
  cases job with
  | poll f s => exact σ.startFuture_attends f (some j)
  | drop f => exact ((σ.setJob j .over).dropFuture_attends f).of_same rfl rfl rfl
  | _ => exact .of_eq rfl rfl

/-- A call that does an errand goes on with a job that does it, or ends one whose future has a result. -/
theorem Activity.of_errand? {a : Activity} {d : Errand} (h : a.errand? σ = some d) :
    (∃ j job, a = .execute .immediate (.job j) ∧ σ.jobs[j]? = some job ∧ job.errand? = some d) ∨
      ∃ j f s, a = .polling j ∧ σ.jobs[j]? = some (.poll f s) ∧ d = .finish f := by
  unfold Activity.errand? at h
  split at h
  · rename_i j
    obtain ⟨job, hjob, hd⟩ := Option.bind_eq_some_iff.1 h
    exact .inl ⟨j, job, rfl, hjob, hd⟩
  · split at h
    · rename_i j _ f s hjob
      obtain ⟨-, -, rfl⟩ := Option.map_eq_some_iff.1 h
      exact .inr ⟨j, f, s, rfl, hjob, rfl⟩
    · cases h
  · cases h

/-- A call that polls a future goes on with the job that does so. -/
theorem Activity.of_errand?_poll {a : Activity} (h : a.errand? σ = some (.poll f)) :
    ∃ j s, a = .execute .immediate (.job j) ∧ σ.jobs[j]? = some (.poll f s) := by
  obtain ⟨j, job, rfl, hjob, hd⟩ | ⟨j, f', s, -, -, hd⟩ := Activity.of_errand? h
  · cases job <;> cases hd
    exact ⟨j, _, rfl, hjob⟩
  · cases hd

/-- A call that drops a future goes on with the job that does so. -/
theorem Activity.of_errand?_drop {a : Activity} (h : a.errand? σ = some (.drop f)) :
    ∃ j, a = .execute .immediate (.job j) ∧ σ.jobs[j]? = some (.drop f) := by
  obtain ⟨j, job, rfl, hjob, hd⟩ | ⟨j, f', s, -, -, hd⟩ := Activity.of_errand? h
  · cases job <;> cases hd
    exact ⟨j, rfl, hjob⟩
  · cases hd

/-- **A call does its errand.** -/
theorem Activity.step_attends (a : Activity) (σ : Store) : σ.Attends (a.errand? σ) (a.step σ).1 := by
  cases a with
  | work s l => exact l.step_attends s σ
  | registering c b => exact c.advance_attends (fun o σ => by cases o <;> exact .of_eq rfl rfl) σ
  | registeringStep c s =>
    refine c.advance_attends (fun o σ => ?_) σ
    cases o with
    | ok p => exact (Code.keep p .ret : Code Prog ProgramId).move_attends σ
    | error m => exact .of_eq rfl rfl
  | calling c s => exact c.advance_attends (fun o σ => by cases o <;> exact .of_eq rfl rfl) σ
  | fillSlot s c =>
    simp only [Activity.step, Store.fillSlot]
    split <;> exact .of_eq rfl rfl
  | deliver e k r => exact k.receive_attends r σ
  | complete c r =>
    cases c <;> simp only [Activity.step, Completer.complete, Store.completeBoundary, Store.completeCallback,
      Store.completeStep] <;> repeat' split
    all_goals exact .of_eq rfl rfl
  | notify f l o =>
    cases l with
    | step s => exact .of_eq rfl rfl
    | duel k x =>
      simp only [Activity.step, Store.endDuel]
      repeat' split
      all_goals exact .of_eq rfl rfl
  | execute on t =>
    cases on with
    | immediate =>
      cases t with
      | job j =>
        simp only [Activity.step, Executor.submit, Task.step, Activity.errand?]
        cases σ.jobs[j]? with
        | none => exact .of_eq rfl rfl
        | some job => exact job.step_attends σ
      | _ => exact .of_eq rfl rfl
    | _ => exact .of_eq rfl rfl
  | polling j =>
    simp only [Activity.step, Store.poll, Activity.errand?]
    rcases σ.jobs[j]? with _ | job
    · exact .of_eq rfl rfl
    · cases job with
      | poll f s =>
        dsimp only
        cases σ.futureResult f with
        | none => exact .of_eq rfl rfl
        | some r => exact ((σ.setJob j .over).finishFuture_attends f).of_same rfl rfl rfl
      | _ => exact .of_eq rfl rfl
  | _ => exact .of_eq rfl rfl

/-- **An input does its errand.** -/
theorem Input.step_attends (i : Input) (σ : Store) : σ.Attends i.errand? (i.step σ).1 := by
  cases i with
  | move c => exact c.move_attends σ
  | run p label cancelable => cases cancelable <;> exact .of_eq rfl rfl
  | tick queue place =>
    simp only [Input.step]
    split <;> exact .of_eq rfl rfl
  | ready place =>
    simp only [Input.step]
    split <;> exact .of_eq rfl rfl
  | future p => exact σ.newFuture_attends p
  | startFuture f => exact σ.startFuture_attends f none
  | finishFuture f => exact σ.finishFuture_attends f
  | dropFuture f => exact σ.dropFuture_attends f
  | _ => exact .of_eq rfl rfl

end Steps

end CancelableEffects
