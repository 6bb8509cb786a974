import CancelableEffects.Proofs.Operations
import CancelableEffects.Proofs.Scopes
import Mathlib.Data.List.Flatten
import Mathlib.Data.List.Nodup
import Mathlib.Data.List.Perm.Subperm

/-!
# Seats — a connection is for one execution

* `Activity.seat?`, `Task.seat?`: the connection under which a call or a task is going to begin an
  execution, and where its result goes.
* `Next.Seats`: a step passes seats on, or creates them together with their connections.
* **`Activity.step_seats`**, **`Input.step_seats`**: every step does so.
* **`Session.seated`**: at most one execution begins under a connection.
* **`Session.side_of_later`**: no execution is added later to the sides of a fork.
* **`Session.has_unique_under`**: under a connection there is one loop at most.
* `Session.link_of_fiber`, `Session.fiber_lt`, `Session.fiber_unique`: the execution of a fiber is one, under
  the connection of the fiber.
-/

namespace CancelableEffects

/-- An execution that is going to begin: its connection, its sink, and what it looks at first. -/
structure Seat where
  link : Link
  sink : Sink
  node : Node

/-- The execution that the task begins. -/
def Task.seat? : Task → Option Seat
  | .side p c k x => some ⟨some c, .side k x, .program p⟩
  | .fiber p c f => some ⟨some c, .fiber f, .program p⟩
  | _ => none

/-- The execution that the call begins, at once or by a task, if it is one under a connection, for a
fiber or for a side of a fork. -/
def Activity.seat? : Activity → Option Seat
  | .start n (some c) k => some ⟨some c, k, n⟩
  | .start n none (.fiber f) => some ⟨none, .fiber f, n⟩
  | .start n none (.side k x) => some ⟨none, .side k x, n⟩
  | .execute _ t => t.seat?
  | _ => none

/-- The tasks that wait in the queues and in the pool of threads. -/
def Store.submitted (σ : Store) : List Task := σ.queues.flatMap (·.2) ++ σ.ready

/-- The executions that tasks will begin. -/
def Store.seats (σ : Store) : List Seat := σ.submitted.filterMap Task.seat?

/-- The executions that a step leaves to begin. -/
def Next.seats (next : Next) : List Seat := next.2.filterMap Activity.seat? ++ next.1.seats

/-- The fiber or the fork to which the result of an execution will come is there, and the connection of
the execution is that of the fiber. -/
structure Seat.Known (σ : Store) (x : Seat) : Prop where
  fiber : ∀ f, x.sink = .fiber f → σ.fiberLink f = x.link
  side : ∀ k side, x.sink = .side k side → k < σ.boundaries.size

/-- The fork to which the result of an execution will come is new. -/
def Seat.New (σ : Store) (x : Seat) : Prop := ∀ k side, x.sink = .side k side → σ.boundaries.size ≤ k

/-- Of the executions that the step leaves to begin, each was to begin before, or in its place, or
has a connection that is new. -/
def Next.Seats (σ : Store) (old : List Seat) (next : Next) : Prop :=
  ∃ fresh : List Seat, next.seats.Subperm (old ++ σ.seats ++ fresh) ∧ (fresh.map Seat.link).Nodup ∧
    ∀ x ∈ fresh, ∃ c, x.link = some c ∧ σ.connections.size ≤ c ∧ c < next.1.connections.size ∧
      x.Known next.1 ∧ x.New σ

/-- The execution that the call passes on to another call or task. -/
def Activity.passes? : Activity → Option Seat
  | .execute _ t => t.seat?
  | _ => none

section Seats

variable {σ σ' : Store} {old : List Seat} {next next' : Next}

/-- Nothing new is going to begin. -/
theorem Next.Seats.of_subperm (h : next.seats.Subperm (old ++ σ.seats)) : next.Seats σ old :=
  ⟨[], by rwa [List.append_nil], List.nodup_nil, by simp⟩

theorem Next.Seats.of_eq (hq : next.1.queues = σ.queues)
    (hr : next.1.ready.filterMap Task.seat? = σ.ready.filterMap Task.seat?)
    (ha : next.2.filterMap Activity.seat? = old) : next.Seats σ old := by
  refine .of_subperm (List.Perm.subperm (.of_eq ?_))
  rw [Next.seats, ha, Store.seats, Store.seats, Store.submitted, Store.submitted, hq,
    List.filterMap_append, hr, ← List.filterMap_append]

/-- A step that leaves tasks alone and begins nothing under a connection. -/
theorem Next.Seats.idle (hq : next.1.queues = σ.queues) (hr : next.1.ready = σ.ready)
    (ha : next.2.filterMap Activity.seat? = []) : next.Seats σ [] := .of_eq hq (by rw [hr]) ha

/-- An execution under a new connection, for no side of a fork. -/
theorem Next.Seats.of_fresh {k : Sink} {n : Node}
    (hseats : next.seats = [⟨some σ.connections.size, k, n⟩] ++ σ.seats)
    (hlt : σ.connections.size < next.1.connections.size)
    (hfiber : ∀ f, k = .fiber f → next.1.fiberLink f = some σ.connections.size) (hside : ∀ k' side, k ≠ .side k' side) :
    next.Seats σ [] := by
  refine ⟨[⟨some σ.connections.size, k, n⟩], ?_, by simp, ?_⟩
  · rw [hseats, List.nil_append]
    exact List.perm_append_comm.subperm
  · intro x hx
    rw [List.mem_singleton.1 hx]
    exact ⟨_, rfl, Nat.le_refl _, hlt, ⟨hfiber, fun k' side h => absurd h (hside k' side)⟩,
      fun k' side h => absurd h (hside k' side)⟩

theorem Next.Seats.congr (h : next.Seats σ old) (hseats : next'.seats = next.seats)
    (hc : next'.1.connections = next.1.connections) (hf : next'.1.fibers = next.1.fibers)
    (hb : next'.1.boundaries = next.1.boundaries) : next'.Seats σ old := by
  obtain ⟨fresh, hsub, hnodup, hfresh⟩ := h
  refine ⟨fresh, by rwa [hseats], hnodup, fun x hx => ?_⟩
  obtain ⟨c, hx, hle, hlt, hknown, hnew⟩ := hfresh x hx
  exact ⟨c, hx, hle, by rwa [hc], ⟨by simpa only [Store.fiberLink, hf] using hknown.fiber,
    by rw [hb]; exact hknown.side⟩, hnew⟩

/-- What holds after a boundary was opened holds before. -/
theorem Next.Seats.of_newBoundary {x : Keeper} (h : next.Seats (σ.newBoundary x).1 old) :
    next.Seats σ old := by
  obtain ⟨fresh, hsub, hnodup, hfresh⟩ := h
  refine ⟨fresh, hsub, hnodup, fun y hy => ?_⟩
  obtain ⟨c, hy, hle, hlt, hknown, hnew⟩ := hfresh y hy
  exact ⟨c, hy, hle, hlt, hknown, fun k side h =>
    Nat.le_trans (Store.Grows.newBoundary x).boundaries_le (hnew k side h)⟩

theorem Store.seats_push (link : Link) (t : Token) (σ : Store) :
    (σ.push link t).2.filterMap Activity.seat? = [] := by
  unfold Store.push
  split <;> rfl

theorem Store.seats_completeSteps (source : Source) (ss : List StepId) :
    (Store.completeSteps source ss).filterMap Activity.seat? = [] := by
  simp [Store.completeSteps, Activity.seat?]

theorem Store.seats_publish (f : FiberId) (o : Outcome Value) (σ : Store) :
    (σ.publish f o).2.filterMap Activity.seat? = [] := by
  simp [Store.publish, Activity.seat?]

/-! ## Closures and loops -/

theorem Code.move_seats {α : Type} (c : Code Prog α) (σ : Store) : Next.Seats σ [] (c.move σ).1 := by
  cases c with
  | push link p next => exact .idle rfl rfl (Store.seats_push _ _ _)
  | answer k r next =>
    refine .idle rfl rfl ?_
    simp only [Code.move, Store.answer]
    split <;> rfl
  | _ => exact .idle rfl rfl rfl

theorem Code.advance_seats {α : Type} {again : Code Prog α → Activity}
    {done : Except String α → Store → Next} (ha : ∀ c, (again c).seat? = none)
    (hd : ∀ o σ, Next.Seats σ [] (done o σ)) (c : Code Prog α) (σ : Store) :
    Next.Seats σ [] (c.advance again done σ) := by
  have hm := c.move_seats σ
  cases c with
  | ret a => exact hd _ σ
  | panic m => exact hd _ σ
  | _ =>
    refine hm.congr ?_ rfl rfl rfl
    simp only [Next.seats, Code.advance, Code.move, List.filterMap_append,
      List.filterMap_cons_none (ha _), List.filterMap_nil, List.append_nil]

theorem Store.wait_seats {source : Source} {link : Link} (register : StepId → Store → Next × Cleanup)
    (hq : ∀ s σ, (register s σ).1.1.queues = σ.queues)
    (hr : ∀ s σ, (register s σ).1.1.ready.filterMap Task.seat? = σ.ready.filterMap Task.seat?)
    (ha : ∀ s σ, (register s σ).1.2.filterMap Activity.seat? = []) :
    Next.Seats σ [] ((σ.wait source link register).store, (σ.wait source link register).calls) := by
  refine .of_eq (hq _ _) (hr _ _) ?_
  simp [Store.wait, ha, Activity.seat?, Store.openStep, Store.seats_push]

theorem Store.awaitJob_seats (job : StepId → Store → Job) (started : Bool) (link : Link) (σ : Store) :
    Next.Seats σ [] ((σ.awaitJob job started link).store, (σ.awaitJob job started link).calls) := by
  refine Store.wait_seats _ (fun _ _ => rfl) (fun s σ => ?_) (fun _ _ => rfl)
  cases started <;> simp [Task.seat?, Store.newJob]

/-- The executions of the two sides of a fork. -/
def Store.sideSeats (p q : Prog) (σ : Store) : List Seat :=
  [⟨some σ.connections.size, .side σ.boundaries.size .left, .program p⟩,
    ⟨some (σ.connections.size + 1), .side σ.boundaries.size .right, .program q⟩]

theorem Store.seats_fork (kind : ForkKind) (p q : Prog) (on : Executor) (link : Link) (σ : Store) :
    Next.seats ((σ.fork kind p q on link).store, (σ.fork kind p q on link).calls) =
      σ.sideSeats p q ++ σ.seats := by
  simp [Next.seats, Store.fork, Store.newConnection, Store.newBoundary, Store.seats_push, Activity.seat?,
    Task.seat?, Store.sideSeats]
  rfl

/-- A fork creates two connections, one for each side. -/
theorem Store.fork_seats (kind : ForkKind) (p q : Prog) (on : Executor) (link : Link) (σ : Store) :
    Next.Seats σ [] ((σ.fork kind p q on link).store, (σ.fork kind p q on link).calls) := by
  have hsize : (σ.fork kind p q on link).store.connections.size = σ.connections.size + 2 := by
    cases link <;> simp [Store.fork, Store.push, Store.modifyConnection, Store.newConnection,
      Store.newBoundary]
  have hlt : σ.boundaries.size < (σ.fork kind p q on link).store.boundaries.size := by
    show _ < (σ.boundaries.cells.push .registering).size
    rw [Array.size_push]
    exact Nat.lt_succ_self _
  refine ⟨σ.sideSeats p q, List.Perm.subperm ?_, by simp [Store.sideSeats], fun x hx => ?_⟩
  · rw [σ.seats_fork kind]
    exact List.perm_append_comm
  · simp only [Store.sideSeats, List.mem_cons, List.not_mem_nil, or_false] at hx
    rw [hsize]
    rcases hx with rfl | rfl
    · exact ⟨_, rfl, Nat.le_refl _, Nat.lt_add_of_pos_right Nat.two_pos,
        ⟨by rintro f ⟨⟩, by rintro k side ⟨⟩; exact hlt⟩, by rintro k side ⟨⟩; exact Nat.le_refl _⟩
    · exact ⟨_, rfl, Nat.le_succ _, Nat.lt_succ_self _,
        ⟨by rintro f ⟨⟩, by rintro k side ⟨⟩; exact hlt⟩, by rintro k side ⟨⟩; exact Nat.le_refl _⟩

/-- A fiber is created with its connection. -/
theorem Store.startFiber_seats (p : Prog) (on : Executor) (σ : Store) :
    Next.Seats σ [] (σ.startFiber p on).1 := by
  have hfiber : (σ.newFiber.1.fibers[σ.fibers.size]?.map (·.connection) |>.getD 0) =
      σ.connections.size := by
    simp [Store.newFiber, Store.newConnection, Store.emit]
  refine Next.Seats.of_fresh (k := .fiber σ.fibers.size) (n := .program p) ?_ ?_ ?_ (by simp)
  · change [Activity.execute on (.fiber p (σ.newFiber.1.fibers[σ.fibers.size]?.map
        (·.connection) |>.getD 0) σ.fibers.size)].filterMap Activity.seat? ++ σ.newFiber.1.seats = _
    rw [hfiber]
    rfl
  · simp [Store.startFiber, Store.newFiber, Store.newConnection, Store.emit]
  · rintro f ⟨⟩
    simp [Store.startFiber, Store.newFiber, Store.newConnection, Store.emit, Store.fiberLink]

theorem Prog.step_seats (p : Prog) (e : ExecutionId) (link : Link) (σ : Store) :
    Next.Seats σ [] ((p.step e link σ).store, (p.step e link σ).calls) := by
  cases p with
  | cancelable register =>
    refine .idle rfl rfl ?_
    simp [Prog.step, Activity.seat?, Store.openStep, Store.seats_push]
  | bracket acquire use release =>
    refine .idle rfl rfl ?_
    simp [Prog.step, Activity.seat?, Store.seats_push]
  | race p q on => exact σ.fork_seats .first p q on link
  | both p q on f => exact σ.fork_seats .both p q on link
  | racePair p q on =>
    refine (((σ.newBoundary (.duel none)).1.startFiber_seats p on).congr ?_ rfl rfl rfl).of_newBoundary
    simp [Next.seats, Activity.seat?]
  | start p on => exact σ.startFiber_seats p on
  | spawn s p => exact σ.startFiber_seats p _
  | joinEach fs => cases fs <;> exact .idle rfl rfl rfl
  | outcome f =>
    refine Store.wait_seats _ (fun s σ => ?_) (fun s σ => ?_) (fun s σ => ?_) <;> dsimp only <;>
      split <;> rfl
  | permits s n =>
    refine Store.wait_seats _ (fun s σ => rfl) (fun s σ => rfl) (fun s σ => ?_)
    dsimp only
    split <;> rfl
  | shift on =>
    exact Store.wait_seats (fun s σ => ((σ, [.execute on (.resume s)]), .idle))
      (fun _ _ => rfl) (fun _ _ => rfl) (fun _ _ => rfl)
  | sleep d => exact σ.awaitJob_seats _ _ link
  | remote c => exact σ.awaitJob_seats _ _ link
  | awaited p => exact (σ.newFuture p).1.awaitJob_seats _ _ link
  | instant a =>
    cases a with
    | release i n => exact .idle rfl rfl (Store.seats_completeSteps _ _)
    | _ => exact .idle rfl rfl rfl
  | pop c =>
    have h : Next.Seats σ [] ((σ.popToken c).1, []) := .idle rfl rfl rfl
    simp only [Prog.step]
    split <;> simp_all
  | stored i =>
    refine .idle ?_ ?_ ?_ <;> simp only [Prog.step] <;> split <;> rfl
  | _ => exact .idle rfl rfl rfl

theorem Token.begin_seats (t : Token) (link : Link) (σ : Store) :
    Next.Seats σ [] ((t.begin link σ).store, (t.begin link σ).calls) := by
  cases t with
  | cleanup c =>
    cases c with
    | program i =>
      refine .idle ?_ ?_ ?_ <;> simp only [Token.begin, Cleanup.begin] <;> split <;> rfl
    | abandon j =>
      refine .of_eq rfl ?_ rfl
      simp only [Token.begin, Cleanup.begin, Store.abandon, List.filterMap_append]
      split <;> simp [Task.seat?]
    | _ => exact .idle rfl rfl rfl
  | connection c =>
    have h : Next.Seats σ [] ((σ.cancel c).1, []) := .idle rfl rfl rfl
    simp only [Token.begin]
    split <;> simp_all
  | fiber f =>
    refine .idle ?_ ?_ ?_ <;> simp only [Token.begin] <;> split <;> rfl
  | _ => exact .idle rfl rfl rfl

theorem Node.step_seats (n : Node) (e : ExecutionId) (link : Link) (σ : Store) :
    Next.Seats σ [] ((n.step e link σ).store, (n.step e link σ).calls) := by
  cases n with
  | program p => exact p.step_seats e link σ
  | token t => exact t.begin_seats link σ
  | sweep of ts => cases ts <;> exact .idle rfl rfl rfl
  | release g v x =>
    refine .idle ?_ ?_ ?_ <;> simp only [Node.step] <;> split <;> rfl
  | gate g =>
    refine Store.wait_seats _ (fun s σ => rfl) (fun s σ => rfl) (fun s σ => ?_)
    dsimp only
    split <;> rfl
  | result r => exact .idle rfl rfl rfl

theorem Frame.resume_seats (f : Frame) (r : Result) (link : Link) (σ : Store) :
    Next.Seats σ [] ((f.resume r link σ).store, (f.resume r link σ).calls) := by
  cases f with
  | sweep of t ts first => cases ts <;> exact .idle rfl rfl rfl
  | openGate g =>
    cases r with
    | ok v => exact .idle rfl rfl (Store.seats_completeSteps _ _)
    | error e => exact .idle rfl rfl rfl
  | publishCancelled f =>
    cases r with
    | ok v => exact .idle rfl rfl (Store.seats_publish _ _ _)
    | error e => exact .idle rfl rfl rfl
  | _ =>
    unfold Frame.resume
    dsimp only
    repeat' split
    all_goals exact .idle rfl rfl rfl

theorem Loop.step_seats (s : Stage) (l : Loop) (σ : Store) : Next.Seats σ [] (l.step s σ) := by
  have hwork : ∀ {t : Turn} {s l}, Next.Seats σ [] (t.store, t.calls) →
      Next.Seats σ [] (t.store, t.calls ++ [.work s l]) := fun h =>
    h.congr (by simp [Next.seats, Activity.seat?]) rfl rfl rfl
  cases s with
  | looking n =>
    simp only [Loop.step]
    split
    · exact .idle rfl rfl rfl
    · exact hwork (n.step_seats l.id l.link σ)
  | handing r =>
    obtain ⟨e, link, _ | ⟨f, fs⟩, k⟩ := l
    · exact .idle rfl rfl rfl
    · exact hwork (f.resume_seats r link σ)
  | delaying c => exact hwork (t := c.turn .delaying .delayed l.link σ) (c.move_seats σ)
  | suspending c => exact hwork (t := c.turn .suspending .suspended l.link σ) (c.move_seats σ)
  | mapping c => exact hwork (t := c.turn .mapping .mapped l.link σ) (c.move_seats σ)
  | leaving b =>
    refine .idle ?_ ?_ ?_ <;> simp only [Loop.step, Store.leave] <;> split <;> rfl

/-! ## Calls -/

theorem Store.endAcquire_seats (g : BracketId) (r : Result) (σ : Store) :
    Next.Seats σ [] (σ.endAcquire g r) := by
  cases hbr : σ.bracket? g with
  | none =>
    rw [Store.endAcquire_of_none hbr]
    exact .idle rfl rfl rfl
  | some br =>
    cases r with
    | ok v =>
      refine .idle ?_ ?_ ?_ <;> simp only [Store.endAcquire, hbr] <;> split <;> rfl
    | error e =>
      rw [Store.endAcquire_error hbr]
      refine .idle rfl rfl ?_
      rw [List.filterMap_append]
      simp [Store.openGate, Store.seats_completeSteps, Activity.seat?]

theorem Store.endSide_seats (k : ForkId) (side : Side) (r : Result) (σ : Store) :
    Next.Seats σ [] (σ.endSide k side r) := by
  unfold Store.endSide
  repeat' split
  all_goals exact .idle rfl rfl rfl

theorem Store.endDuel_seats (k : DuelId) (side : Side) (o : Outcome Value) (σ : Store) :
    Next.Seats σ [] (σ.endDuel k side o) := by
  unfold Store.endDuel
  repeat' split
  all_goals exact .idle rfl rfl rfl

theorem Sink.receive_seats (k : Sink) (r : Result) (σ : Store) :
    Next.Seats σ [] (k.receive r σ) := by
  cases k with
  | observer i =>
    change Next.Seats σ [] (σ.report i r)
    unfold Store.report
    repeat' split
    · exact .idle rfl rfl rfl
    · exact .idle rfl rfl rfl
    · rename_i run _ _
      refine .of_eq rfl ?_ rfl
      cases run.waker <;> simp [Task.seat?, Store.emit?]
  | fiber f =>
    change Next.Seats σ [] (σ.endFiber f r)
    unfold Store.endFiber
    repeat' split
    · exact .idle rfl rfl (Store.seats_publish _ _ _)
    · exact .idle rfl rfl rfl
    · exact .idle rfl rfl (Store.seats_publish _ _ _)
  | acquired g => exact σ.endAcquire_seats g r
  | side k x => exact σ.endSide_seats k x r
  | lateRelease g =>
    refine .idle ?_ ?_ ?_ <;> simp only [Sink.receive] <;> split <;> rfl
  | settle k x =>
    refine .idle ?_ ?_ ?_ <;> simp only [Sink.receive] <;> split <;> rfl
  | fail k cause =>
    refine .idle ?_ ?_ ?_ <;> simp only [Sink.receive] <;> split <;> rfl
  | _ => exact .idle rfl rfl rfl

theorem Store.startFuture_seats (f : FutureId) (waker : Option JobId) (σ : Store) :
    Next.Seats σ [] (σ.startFuture f waker) := by
  unfold Store.startFuture
  split
  · refine .of_fresh (k := .observer σ.runs.size) rfl ?_ (by simp) (by simp)
    simp [Store.newRun, Store.newConnection]
  · exact .idle rfl rfl rfl

theorem Store.dropFuture_seats (f : FutureId) (σ : Store) : Next.Seats σ [] (σ.dropFuture f) := by
  unfold Store.dropFuture
  repeat' split
  all_goals exact .idle rfl rfl rfl

theorem Task.step_seats (t : Task) (σ : Store) : Next.Seats σ t.seat?.toList (t.step σ) := by
  cases t with
  | job j =>
    change Next.Seats σ [] _
    simp only [Task.step]
    split
    · rename_i job _
      cases job with
      | poll f s =>
        refine (σ.startFuture_seats f (some j)).congr ?_ rfl rfl rfl
        simp [Next.seats, Job.step, Activity.seat?]
      | drop f => exact ((σ.setJob j .over).dropFuture_seats f)
      | _ => exact .idle rfl rfl rfl
    · exact .idle rfl rfl rfl
  | _ => exact .of_eq rfl rfl rfl

/-- The tasks of a queue are among all tasks. -/
theorem Store.queue_subperm (name : String) (σ : Store) :
    (σ.queue name ++ (σ.queues.filter (·.1 ≠ name)).flatMap (·.2)).Subperm
      (σ.queues.flatMap (·.2)) := by
  unfold Store.queue
  induction σ.queues with
  | nil => exact .refl _
  | cons q qs ih =>
    obtain ⟨name', ts⟩ := q
    by_cases hname : name' = name
    · subst hname
      simp only [List.lookup_cons_self, Option.getD_some, ne_eq, decide_not, List.filter_cons,
        decide_true, Bool.not_true, Bool.false_eq_true, if_false, List.flatMap_cons]
      exact (List.subperm_append_left _).2 (List.filter_sublist.flatMap _).subperm
    · have hne : (name == name') = false := by simpa using Ne.symm hname
      simp only [List.lookup_cons, hne, ne_eq, decide_not, List.filter_cons, hname, decide_false,
        Bool.not_false, if_true, List.flatMap_cons] at ih ⊢
      refine List.Subperm.trans (List.Perm.subperm ?_) ((List.subperm_append_left ts).2 ih)
      rw [← List.append_assoc, ← List.append_assoc]
      exact List.perm_append_comm.append_right _

/-- Of tasks that are among others, so are the seats. -/
theorem Task.seats_subperm {ts ts' : List Task} (h : ts.Subperm ts') :
    (ts.filterMap Task.seat?).Subperm (ts'.filterMap Task.seat?) := by
  obtain ⟨us, hperm, hsub⟩ := h
  exact ⟨us.filterMap Task.seat?, hperm.filterMap _, hsub.filterMap _⟩

/-- The tasks after those of a queue were replaced. -/
theorem Store.submitted_setQueue {name : String} {ts : List Task} (taken added : List Task)
    (h : (taken ++ ts).Subperm (added ++ σ.queue name)) :
    (taken ++ (σ.setQueue name ts).submitted).Subperm (added ++ σ.submitted) := by
  simp only [Store.submitted, Store.setQueue, List.flatMap_cons, ← List.append_assoc]
  refine (List.subperm_append_right _).2 ?_
  refine ((List.subperm_append_right _).2 h).trans ?_
  rw [List.append_assoc]
  exact (List.subperm_append_left added).2 (σ.queue_subperm name)

theorem Executor.submit_seats (on : Executor) (t : Task) (σ : Store) :
    Next.Seats σ t.seat?.toList (on.submit t σ) := by
  have hseats : t.seat?.toList = [t].filterMap Task.seat? := by
    cases h : t.seat? <;> simp [h]
  cases on with
  | immediate => exact t.step_seats σ
  | queue name =>
    refine .of_subperm ?_
    rw [hseats, Store.seats, ← List.filterMap_append]
    have hperm : (σ.queue name ++ [t]).Perm ([t] ++ σ.queue name) := List.perm_append_comm
    exact Task.seats_subperm (Store.submitted_setQueue [] [t] hperm.subperm)
  | threads =>
    refine .of_subperm (List.Perm.subperm ?_)
    rw [hseats, Store.seats, ← List.filterMap_append]
    refine List.Perm.filterMap _ ?_
    change (σ.queues.flatMap (·.2) ++ (σ.ready ++ [t])).Perm
      ([t] ++ (σ.queues.flatMap (·.2) ++ σ.ready))
    rw [← List.append_assoc]
    exact List.perm_append_comm

/-- **Every call passes seats on**, or creates them together with their connections. -/
theorem Activity.step_seats (a : Activity) (σ : Store) :
    Next.Seats σ a.passes?.toList (a.step σ) := by
  cases a with
  | start n link k => exact .idle rfl rfl rfl
  | work s l => exact l.step_seats s σ
  | registering c b =>
    exact Code.advance_seats (fun _ => rfl) (fun o _ => by cases o <;> exact .idle rfl rfl rfl) c σ
  | registeringStep c s =>
    exact Code.advance_seats (fun _ => rfl) (fun o _ => by cases o <;> exact .idle rfl rfl rfl) c σ
  | calling c s =>
    exact Code.advance_seats (fun _ => rfl) (fun o _ => by cases o <;> exact .idle rfl rfl rfl) c σ
  | fillSlot s c =>
    refine .idle ?_ ?_ ?_ <;> simp only [Activity.step, Store.fillSlot] <;> split <;> rfl
  | deliver e k r => exact k.receive_seats r σ
  | complete c r =>
    cases c with
    | boundary b =>
      refine .idle ?_ ?_ ?_ <;>
        simp only [Activity.step, Completer.complete, Store.completeBoundary] <;> split <;> rfl
    | callback b =>
      refine .idle ?_ ?_ ?_ <;>
        simp only [Activity.step, Completer.complete, Store.completeCallback] <;> split <;> rfl
    | step s source =>
      simp only [Activity.step, Completer.complete, Store.completeStep]
      repeat' split
      all_goals exact .idle rfl rfl rfl
  | notify f l o =>
    cases l with
    | step s => exact .idle rfl rfl rfl
    | duel k x => exact σ.endDuel_seats k x o
  | listen f l =>
    refine .idle rfl rfl ?_
    simp only [Activity.step]
    split <;> rfl
  | execute on t => exact on.submit_seats t σ
  | startRight left q on parent k =>
    refine (σ.startFiber_seats q on).congr ?_ rfl rfl rfl
    simp [Next.seats, Activity.step, List.filterMap_append, Activity.seat?]
  | tie left right parent k =>
    exact .idle rfl rfl (List.filterMap_append.trans
      (congrArg (· ++ _) (Store.seats_push parent (.fibers left right) _)))
  | polling j =>
    refine .idle ?_ ?_ ?_ <;> simp only [Activity.step, Store.poll] <;> repeat' split
    all_goals rfl

/-- **Every input passes seats on**, or creates them together with their connections. -/
theorem Input.step_seats (i : Input) (σ : Store) : Next.Seats σ [] (i.step σ) := by
  have htask : ∀ {σ' : Store} {t : Task}, ([t] ++ σ'.submitted).Subperm σ.submitted →
      Next.Seats σ [] (σ', [.execute .immediate t]) := by
    intro σ' t h
    refine .of_subperm ?_
    have hseats : Next.seats (σ', [.execute .immediate t]) =
        ([t] ++ σ'.submitted).filterMap Task.seat? := by
      cases h : t.seat? <;> simp [Next.seats, Activity.seat?, Store.seats, h]
    rw [hseats]
    exact Task.seats_subperm h
  cases i with
  | move c => exact c.move_seats σ
  | run p label cancelable =>
    cases cancelable with
    | true =>
      refine .of_fresh (k := .observer σ.runs.size) rfl ?_ (by simp) (by simp)
      simp [Input.step, Store.newRun, Store.newConnection]
    | false => exact .idle rfl rfl rfl
  | pushPair link left right => exact .idle rfl rfl (Store.seats_push _ _ _)
  | tick queue place =>
    simp only [Input.step]
    split
    · rename_i t ht
      obtain ⟨hlt, rfl⟩ := List.getElem?_eq_some_iff.1 ht
      exact htask (Store.submitted_setQueue [_] [] (List.getElem_cons_eraseIdx_perm hlt).subperm)
    · exact .idle rfl rfl rfl
  | ready place =>
    simp only [Input.step]
    split
    · rename_i t ht
      obtain ⟨hlt, rfl⟩ := List.getElem?_eq_some_iff.1 ht
      refine htask (List.Perm.subperm ?_)
      simp only [Store.submitted]
      rw [← List.append_assoc]
      refine (List.perm_append_comm.append_right _).trans ?_
      rw [List.append_assoc]
      exact (List.getElem_cons_eraseIdx_perm hlt).append_left _
    · exact .idle rfl rfl rfl
  | startFuture f => exact σ.startFuture_seats f none
  | dropFuture f => exact σ.dropFuture_seats f
  | _ => exact .idle rfl rfl rfl

end Seats

/-! ## Sessions -/

/-- The execution that began at this moment, if it is one under a connection or for a fiber. -/
def Moment.seat? (m : Moment) : Option Seat :=
  match m.call with
  | some (.start n link k) => (Activity.start n link k).seat?
  | _ => none

namespace Session

/-- The executions that began or are going to begin, under a connection or for a fiber. -/
def seats (S : Session) : List Seat :=
  S.past.filterMap Moment.seat? ++ (S.calls.filterMap Activity.seat? ++ S.store.seats)

/-- Each of the executions has a connection that is there and that is for no other, and its fiber or its
fork is there. -/
structure Seated (S : Session) : Prop where
  single : ∀ c, S.seats.countP (·.link == some c) ≤ 1
  there : ∀ x ∈ S.seats, ∃ c, x.link = some c ∧ c < S.store.connections.size ∧ x.Known S.store

/-- Whatever is to begin after a step was to begin before, or belongs to one of the executions `fresh`, each
of which has a connection of its own that is new. -/
structure Adds (fresh : List Seat) (S S' : Session) : Prop where
  count : ∀ p : Seat → Bool, S'.seats.countP p ≤ S.seats.countP p + fresh.countP p
  mem : ∀ x ∈ S'.seats, x ∈ S.seats ∨ x ∈ fresh
  nodup : (fresh.map Seat.link).Nodup
  new : ∀ x ∈ fresh, ∃ c, x.link = some c ∧ S.store.connections.size ≤ c ∧
    c < S'.store.connections.size ∧ x.Known S'.store ∧ x.New S.store

variable {S : Session} {next : Next} {call : Option Activity}

/-- A step that passes seats on, or creates them, adds those that it creates. -/
theorem adds_record {others : List Activity} {passed : List Seat} (hnext : next.Seats S.store passed)
    (hcalls : (S.past.filterMap Moment.seat? ++ S.calls.filterMap Activity.seat?).Perm
      ((S.record call next others).past.filterMap Moment.seat? ++ passed ++
        others.filterMap Activity.seat?)) : ∃ fresh, Adds fresh S (S.record call next others) := by
  obtain ⟨fresh, hsub, hnodup, hfresh⟩ := hnext
  refine ⟨fresh, fun p => ?_, fun x hx => ?_, hnodup, hfresh⟩
  · have hnew := hsub.countP_le p
    have hold := hcalls.countP_eq p
    simp only [seats, Next.seats, record_calls, record_store, List.filterMap_append,
      List.countP_append] at hnew hold ⊢
    omega
  · have hnew : ∀ {y}, y ∈ next.seats → y ∈ passed ∨ y ∈ S.store.seats ∨ y ∈ fresh := fun hy => by
      simpa [or_assoc] using hsub.subset hy
    have hold : ∀ {y}, y ∈ (S.record call next others).past.filterMap Moment.seat? ++ passed ++
        others.filterMap Activity.seat? → y ∈ S.seats := fun hy =>
      (List.mem_append.1 (hcalls.mem_iff.2 hy)).elim (List.mem_append_left _)
        fun hy => List.mem_append_right _ (List.mem_append_left _ hy)
    simp only [seats, record_calls, record_store, List.filterMap_append, List.mem_append] at hx
    obtain hx | (hx | hx) | hx := hx
    · exact .inl (hold (by simp only [List.mem_append]; exact .inl (.inl hx)))
    · obtain hx | hx | hx := hnew (List.mem_append_left _ hx)
      · exact .inl (hold (by simp only [List.mem_append]; exact .inl (.inr hx)))
      · exact .inl (List.mem_append_right _ (List.mem_append_right _ hx))
      · exact .inr hx
    · exact .inl (hold (by simp only [List.mem_append]; exact .inr hx))
    · obtain hx | hx | hx := hnew (List.mem_append_right _ hx)
      · exact .inl (hold (by simp only [List.mem_append]; exact .inl (.inr hx)))
      · exact .inl (List.mem_append_right _ (List.mem_append_right _ hx))
      · exact .inr hx

/-- Whatever happens adds only new executions. -/
theorem adds_step (cs : List Choice) (x : Choice) : ∃ fresh, Adds fresh (after cs) (after (x :: cs)) := by
  cases x with
  | input i =>
    refine adds_record (i.step_seats _) ?_
    rw [List.append_nil]
    exact .refl _
  | call place =>
    cases ha : (after cs).calls[place]? with
    | none =>
      rw [show after (.call place :: cs) = after cs by
        show (after cs).step (.call place) = _
        simp only [step, ha]]
      exact ⟨[], fun p => Nat.le_add_right _ _, fun y hy => .inl hy, List.nodup_nil, by simp⟩
    | some a =>
      rw [show after (.call place :: cs) = _ from step_call ha]
      refine adds_record (a.step_seats _) ?_
      -- what was to begin by the call has begun, or was passed on
      have hseat : ∀ next, a.seat?.toList =
          (Moment.seat? ⟨some a, (after cs).store, next⟩).toList ++ a.passes?.toList := by
        intro next
        cases a <;> simp [Moment.seat?, Activity.passes?, Activity.seat?]
      have hcons : ∀ (m : Moment) (past : List Moment), (m :: past).filterMap Moment.seat? =
          m.seat?.toList ++ past.filterMap Moment.seat? := by
        intro m past
        cases hm : m.seat? <;> simp [hm]
      have hcalls : ((after cs).calls.filterMap Activity.seat?).Perm
          (a.seat?.toList ++ ((after cs).calls.eraseIdx place).filterMap Activity.seat?) := by
        obtain ⟨hlt, rfl⟩ := List.getElem?_eq_some_iff.1 ha
        refine ((List.getElem_cons_eraseIdx_perm hlt).symm.filterMap _).trans (.of_eq ?_)
        cases h : (after cs).calls[place].seat? <;> simp [h]
      rw [record_past, hcons]
      refine (hcalls.append_left _).trans ?_
      rw [hseat]
      simp only [← List.append_assoc]
      exact (List.perm_append_comm.append_right _).append_right _

/-- A step that adds executions with connections of their own leaves all seated. -/
theorem Seated.adds {S' : Session} {fresh : List Seat} (h : S.Seated) (hadds : Adds fresh S S')
    (hgrows : S.store.Grows S'.store) (hsize : S.store.connections.size ≤ S'.store.connections.size) :
    S'.Seated := by
  constructor
  · intro c
    have hc := hadds.count (·.link == some c)
    have hold := h.single c
    have hone : fresh.countP (·.link == some c) ≤ 1 := by
      have hnodup := List.nodup_iff_count_le_one.1 hadds.nodup (some c)
      rwa [List.count, List.countP_map] at hnodup
    -- a connection is new or it is not
    by_cases hlt : c < S.store.connections.size
    · have hzero : fresh.countP (·.link == some c) = 0 := List.countP_eq_zero.2 fun x hx heq => by
        obtain ⟨c', hx', hle, -⟩ := hadds.new x hx
        cases hx'.symm.trans (eq_of_beq heq)
        exact Nat.not_lt.2 hle hlt
      omega
    · have hzero : S.seats.countP (·.link == some c) = 0 := List.countP_eq_zero.2 fun x hx heq => by
        obtain ⟨c', hx', hlt', -⟩ := h.there x hx
        cases hx'.symm.trans (eq_of_beq heq)
        exact hlt hlt'
      omega
  · intro x hx
    obtain hx | hx := hadds.mem x hx
    · obtain ⟨c, hc, hlt, hknown⟩ := h.there x hx
      exact ⟨c, hc, Nat.lt_of_lt_of_le hlt hsize,
        fun f hf => hc ▸ hgrows.fiberLink ((hknown.fiber f hf).trans hc),
        fun k side hk => Nat.lt_of_lt_of_le (hknown.side k side hk) hgrows.boundaries_le⟩
    · obtain ⟨c, hc, -, hlt, hknown, -⟩ := hadds.new x hx
      exact ⟨c, hc, hlt, hknown⟩

/-- Connections are never removed. -/
theorem connections_le (cs₀ cs : List Choice) :
    (after cs₀).store.connections.size ≤ (after (cs ++ cs₀)).store.connections.size := by
  induction cs with
  | nil => exact Nat.le_refl _
  | cons x cs ih =>
    refine Nat.le_trans ih ?_
    rcases made_or (cs ++ cs₀) x with hsame | ⟨m, hm⟩
    · exact Nat.le_of_eq (congrArg (·.store.connections.size) hsame.symm)
    · rw [List.cons_append, hm.store]
      rcases hm.how with ⟨i, -, -, hnext⟩ | ⟨place, a, -, -, -, hnext⟩ <;> rw [hnext, hm.before]
      · exact (i.step_operates _).size
      · exact (a.step_operates _).size

/-- **A connection is for one execution at most**, and executions for fibers and forks are for those that
are there. -/
theorem seated (cs : List Choice) : (after cs).Seated := by
  induction cs with
  | nil => exact ⟨fun c => Nat.zero_le _, by simp [after, seats, Store.seats, Store.submitted]⟩
  | cons x cs ih =>
    obtain ⟨fresh, hadds⟩ := adds_step cs x
    exact ih.adds hadds (after_grows cs [x]) (connections_le cs [x])

/-- **No execution is added later to the sides of a fork.** -/
theorem side_of_later {cs₀ : List Choice} (cs : List Choice) {y : Seat} {k : ForkId} {side : Side}
    (hy : y ∈ (after (cs ++ cs₀)).seats) (hside : y.sink = .side k side)
    (hk : k < (after cs₀).store.boundaries.size) : y ∈ (after cs₀).seats := by
  induction cs with
  | nil => exact hy
  | cons x cs ih =>
    obtain ⟨fresh, hadds⟩ := adds_step (cs ++ cs₀) x
    rcases hadds.mem y hy with hy | hy
    · exact ih hy
    · obtain ⟨-, -, -, -, -, hnew⟩ := hadds.new y hy
      have hle := Nat.le_trans (after_grows cs₀ cs).boundaries_le (hnew k side hside)
      exact absurd hk (Nat.not_lt.2 hle)

/-- A connection is for one execution at most. -/
theorem seat_unique {cs : List Choice} {m m' : Moment} {c : ConnectionId} {k k' : Sink} {n n' : Node}
    (hm : m ∈ (after cs).past) (hm' : m' ∈ (after cs).past) (h : m.seat? = some ⟨some c, k, n⟩)
    (h' : m'.seat? = some ⟨some c, k', n'⟩) : m' = m := by
  have hsingle := (seated cs).single c
  obtain ⟨xs, ys, hpast⟩ := List.append_of_mem hm
  rw [hpast] at hm'
  rw [seats, hpast] at hsingle
  have hpos : ∀ {ms : List Moment}, m' ∈ ms →
      0 < (ms.filterMap Moment.seat?).countP (·.link == some c) := fun hm =>
    List.countP_pos_iff.2 ⟨_, List.mem_filterMap.2 ⟨m', hm, h'⟩, by simp⟩
  simp only [List.filterMap_append, List.filterMap_cons_some h, List.countP_append, List.countP_cons,
    beq_self_eq_true, if_true] at hsingle
  obtain hm' | hm' := List.mem_append.1 hm'
  · have := hpos hm'
    omega
  · obtain rfl | hm' := List.mem_cons.1 hm'
    · rfl
    · have := hpos hm'
      omega

/-- An execution under a connection began under it. -/
theorem began_under (cs : List Choice) : ∀ s l, (after cs).Has s l → ∀ c,
    l.link.under l.stack = some c →
      ∃ m ∈ (after cs).past, (∃ k n, m.seat? = some ⟨some c, k, n⟩) ∧ m.before.executions = l.id := by
  refine each (P := fun S s l => ∀ c, l.link.under l.stack = some c →
    ∃ m ∈ S.past, (∃ k n, m.seat? = some ⟨some c, k, n⟩) ∧ m.before.executions = l.id) ?_ ?_ ?_ ?_ cs
  · intro S call next others s l hgrows h c hc
    obtain ⟨m, hm, h⟩ := h c hc
    exact ⟨m, .tail _ hm, h⟩
  · intro cs n link k others hstart c hc
    obtain rfl : link = some c := hc
    exact ⟨_, .head _, ⟨k, n, rfl⟩, rfl⟩
  · intro cs s l t fs others hcall h ht c hc
    obtain ⟨m, hm, h⟩ := h c (ht.under ▸ hc)
    exact ⟨m, .tail _ hm, h⟩
  · intro S b l r hripe h
    exact h

/-- **Under a connection there is one loop at most.** -/
theorem has_unique_under {cs : List Choice} {s s' : Stage} {l l' : Loop} {c : ConnectionId}
    (h : (after cs).Has s l) (h' : (after cs).Has s' l') (hl : l.link.under l.stack = some c)
    (hl' : l'.link.under l'.stack = some c) : s' = s ∧ l' = l := by
  obtain ⟨m, hm, ⟨k, n, hk⟩, hid⟩ := began_under cs s l h c hl
  obtain ⟨m', hm', ⟨k', n', hk'⟩, hid'⟩ := began_under cs s' l' h' c hl'
  refine has_unique h h' ?_
  rw [← hid, ← hid', seat_unique hm hm' hk hk']

/-- The connection of an execution is there. -/
theorem under_lt {cs : List Choice} {s : Stage} {l : Loop} {c : ConnectionId} (h : (after cs).Has s l)
    (hl : l.link.under l.stack = some c) : c < (after cs).store.connections.size := by
  obtain ⟨m, hm, ⟨k, n, hk⟩, -⟩ := began_under cs s l h c hl
  obtain ⟨c', hc', hlt, -⟩ := (seated cs).there _
    (List.mem_append_left _ (List.mem_filterMap.2 ⟨m, hm, hk⟩))
  cases hc'
  exact hlt

/-- The execution of a fiber begins under the connection of the fiber. -/
theorem link_of_fiber {cs : List Choice} {m : Moment} {n : Node} {link : Link} {f : FiberId}
    (hm : m ∈ (after cs).past) (hcall : m.call = some (.start n link (.fiber f))) :
    m.seat? = some ⟨link, .fiber f, n⟩ ∧ ∃ c, link = some c ∧ (after cs).store.fiberLink f = some c := by
  have hseat : m.seat? = some ⟨link, .fiber f, n⟩ := by
    unfold Moment.seat?
    rw [hcall]
    cases link <;> rfl
  obtain ⟨c, hc, -, hknown⟩ := (seated cs).there _
    (List.mem_append_left _ (List.mem_filterMap.2 ⟨m, hm, hseat⟩))
  exact ⟨hseat, c, hc, (hknown.fiber f rfl).trans hc⟩

/-- An execution is for a fiber only if the fiber is there. -/
theorem fiber_lt {cs : List Choice} {e : ExecutionId} {f : FiberId}
    (h : (after cs).Began e (.fiber f)) : f < (after cs).store.fibers.size := by
  obtain ⟨m, hm, ⟨n, link, hcall⟩, -⟩ := h
  obtain ⟨-, c, -, hlink⟩ := link_of_fiber hm hcall
  obtain ⟨x, hx, -⟩ := Option.map_eq_some_iff.1 hlink
  exact (Array.getElem?_eq_some_iff.1 hx).1

/-- A fiber has one execution. -/
theorem fiber_unique {cs : List Choice} {e e' : ExecutionId} {f : FiberId}
    (h : (after cs).Began e (.fiber f)) (h' : (after cs).Began e' (.fiber f)) : e' = e := by
  obtain ⟨m, hm, ⟨n, link, hcall⟩, rfl⟩ := h
  obtain ⟨m', hm', ⟨n', link', hcall'⟩, rfl⟩ := h'
  obtain ⟨hseat, c, rfl, hlink⟩ := link_of_fiber hm hcall
  obtain ⟨hseat', c', rfl, hlink'⟩ := link_of_fiber hm' hcall'
  cases hlink.symm.trans hlink'
  rw [seat_unique hm hm' hseat hseat']

end Session

end CancelableEffects
