import CancelableEffects.Proofs.Aside

/-!
# Turns — what every step of a loop has in common

* `Link.under`: the connection under some frames, once they have received a result.
* **`Node.step_under`**, **`Frame.resume_under`**: a step puts frames on the stack under which the
  loop has the connection it had before.
* **`Node.frames_eq`**, **`Frame.frames_eq`**: which frames come on the stack.
* `Turn.Opens`: a turn begins no execution and touches no boundary but one it opens for its loop.
* **`Loop.step_cases`**: a loop at work delivers its result, takes such a turn, or comes to the end
  of a registration.
-/

namespace CancelableEffects

/-! ## Connections below frames -/

/-- The connection of a loop after one of its frames has received a result. -/
def Frame.under : Link → Frame → Link
  | _, .restore enclosing => enclosing
  | link, _ => link

/-- The connection of a loop after its frames `fs` have received a result. -/
def Link.under (link : Link) (fs : List Frame) : Link := fs.foldl Frame.under link

@[simp] theorem Link.under_nil (link : Link) : link.under [] = link := rfl

@[simp] theorem Link.under_cons (link : Link) (f : Frame) (fs : List Frame) :
    link.under (f :: fs) = (f.under link).under fs := rfl

theorem Link.under_of_notMem {link : Link} {fs : List Frame}
    (h : ∀ enclosing, Frame.restore enclosing ∉ fs) : link.under fs = link := by
  induction fs with
  | nil => rfl
  | cons f fs ih =>
    have hf : f.under link = link := by
      cases f with
      | restore enclosing => exact absurd List.mem_cons_self (h enclosing)
      | _ => rfl
    rw [Link.under_cons, hf]
    exact ih fun enclosing hm => h enclosing (List.mem_cons_of_mem _ hm)

/-! ## Turns and connections -/

theorem Cleanup.begin_link (c : Cleanup) (link : Link) (σ : Store) :
    (c.begin link σ).link = link := by
  unfold Cleanup.begin
  split <;> (try split) <;> rfl

/-- A clean-up of a step puts no frames on the stack. -/
theorem Cleanup.begin_frames (c : Cleanup) (link : Link) (σ : Store) :
    (c.begin link σ).frames = [] := by
  unfold Cleanup.begin
  split <;> (try split) <;> rfl

theorem Token.begin_link (t : Token) (link : Link) (σ : Store) : (t.begin link σ).link = link := by
  unfold Token.begin
  split
  · exact Cleanup.begin_link _ link σ
  all_goals (try split) <;> rfl

theorem Token.begin_under (t : Token) (link : Link) (σ : Store) :
    (t.begin link σ).link.under (t.begin link σ).frames = link := by
  unfold Token.begin
  split
  · rw [Cleanup.begin_link, Cleanup.begin_frames, Link.under_nil]
  all_goals (try split) <;> rfl

theorem Store.sweep_link (of : Link) (first : Option Error) (link : Link) (below : List Frame)
    (σ : Store) (ts : List Token) : (σ.sweep of first link below ts).link = link := by
  cases ts <;> rfl

theorem Store.sweep_under (of : Link) (first : Option Error) (link : Link) (below : List Frame)
    (σ : Store) (ts : List Token) :
    link.under (σ.sweep of first link below ts).frames = link.under below := by
  cases ts <;> rfl

theorem Prog.step_under (p : Prog) (e : ExecutionId) (link : Link) (σ : Store) :
    (p.step e link σ).link.under (p.step e link σ).frames = link := by
  unfold Prog.step
  split <;> (try split) <;> rfl

/-- The frames that a node puts on the stack give the loop its connection back. -/
theorem Node.step_under (n : Node) (e : ExecutionId) (link : Link) (σ : Store) :
    (n.step e link σ).link.under (n.step e link σ).frames = link := by
  cases n with
  | program p => exact p.step_under e link σ
  | token t => exact t.begin_under link σ
  | sweep of ts =>
    change (σ.sweep of none none [.restore link] ts).link.under _ = link
    rw [Store.sweep_link]
    exact Store.sweep_under of none none [.restore link] σ ts
  | release g v x =>
    unfold Node.step
    dsimp only
    split <;> rfl
  | result r => rfl
  | gate g => rfl

theorem Prog.step_link (p : Prog) (e : ExecutionId) (link : Link) (σ : Store) :
    (p.step e link σ).link = link ∨ (p.step e link σ).link = none := by
  unfold Prog.step
  split <;> (try split) <;> first | exact .inl rfl | exact .inr rfl

/-- A node leaves the loop its connection or disables cancellation. -/
theorem Node.step_link (n : Node) (e : ExecutionId) (link : Link) (σ : Store) :
    (n.step e link σ).link = link ∨ (n.step e link σ).link = none := by
  cases n with
  | program p => exact p.step_link e link σ
  | token t => exact .inl (t.begin_link link σ)
  | sweep of ts => exact .inr (Store.sweep_link of none none _ σ ts)
  | release g v x =>
    unfold Node.step
    dsimp only
    split
    · exact .inr rfl
    · exact .inl rfl
  | result r => exact .inl rfl
  | gate g => exact .inl rfl

/-! ## Frames that come on the stack -/

/-- The frame of a cancellation that goes on with these tokens. -/
def Frame.sweepOf (of : Link) (first : Option Error) : List Token → List Frame
  | [] => []
  | t :: ts => [.sweep of t ts first]

@[simp] theorem Frame.mem_sweepOf {f : Frame} {of : Link} {first : Option Error} {ts : List Token} :
    f ∈ sweepOf of first ts ↔ ∃ t rest, ts = t :: rest ∧ f = .sweep of t rest first := by
  cases ts <;> simp [sweepOf, and_assoc]

/-- The frames that a program puts on the stack. -/
def Prog.frames (link : Link) (σ : Store) : Prog → List Frame
  | .bind _ f => [.bind f]
  | .mapped _ f _ => [.map f]
  | .recover _ h => [.recover h]
  | .fold _ h f => [.fold h f]
  | .uncancelable _ => [.restore link]
  | .iterate _ f => [.iterate f]
  | .bracket _ use _ => [.use σ.boundaries.size use]
  | .both _ _ _ f => [.combine f]
  | .spawn s _ => [.track s]
  | .joinEach fs => (fs.tail?.map .join).toList
  | .awaitTask f _ => [.thenJoin f]
  | _ => []

/-- The frames that a token puts on the stack. -/
def Token.frames : Token → List Frame
  | .step s => [.attempt, .endStep s]
  | .fiber f => [.attempt, .publishCancelled f]
  | _ => []

/-- The frames that a node puts on the stack. -/
def Node.frames (link : Link) (σ : Store) : Node → List Frame
  | .program p => p.frames link σ
  | .token t => t.frames
  | .sweep of ts => Frame.sweepOf of none ts ++ [.restore link]
  | .release g _ _ => if (σ.bracket? g).isSome then [.attempt, .openGate g, .restore link] else []
  | .result _ | .gate _ => []

/-- The frames that a frame leaves behind when it receives the result. -/
def Frame.frames (r : Result) (σ : Store) : Frame → List Frame
  | .iterate f => if r matches .ok (.left _) then [.iterate f] else []
  | .use g _ => if r.isOk then [.release g] else []
  | .release g => [.attempt, .endBracket g r]
  | .sweep of _ ts first => sweepOf of (σ.collect first r).2 ts
  | _ => []

section Frames

variable {n : Node} {e : ExecutionId} {link : Link} {σ : Store}

theorem Prog.frames_eq (p : Prog) (e : ExecutionId) (link : Link) (σ : Store) :
    (p.step e link σ).frames = p.frames link σ := by
  cases p with
  | joinEach fs => cases fs <;> rfl
  | pop c =>
    simp only [Prog.step]
    split <;> rfl
  | stored i =>
    simp only [Prog.step]
    split <;> rfl
  | _ => rfl

theorem Token.frames_eq (t : Token) (link : Link) (σ : Store) : (t.begin link σ).frames = t.frames := by
  cases t with
  | cleanup c => exact c.begin_frames link σ
  | connection c =>
    simp only [Token.begin]
    split <;> rfl
  | fiber f =>
    simp only [Token.begin]
    split <;> rfl
  | _ => rfl

/-- **The frames of a node come on the stack.** -/
theorem Node.frames_eq (n : Node) (e : ExecutionId) (link : Link) (σ : Store) :
    (n.step e link σ).frames = n.frames link σ := by
  cases n with
  | program p => exact p.frames_eq e link σ
  | token t => exact t.frames_eq link σ
  | sweep of ts => cases ts <;> rfl
  | release g v x => cases h : σ.bracket? g <;> simp [Node.step, Node.frames, h]
  | result r => rfl
  | gate g => rfl

/-- **A frame leaves its frames behind.** -/
theorem Frame.frames_eq (f : Frame) (r : Result) (link : Link) (σ : Store) :
    (f.resume r link σ).frames = f.frames r σ := by
  cases f with
  | use g u => cases r <;> rfl
  | sweep of t ts first => cases ts <;> rfl
  | iterate g =>
    cases r with
    | ok v => cases v <;> rfl
    | error e => rfl
  | _ =>
    unfold Frame.resume
    dsimp only
    repeat' split
    all_goals rfl

theorem Node.restore_mem {enclosing : Link}
    (h : Frame.restore enclosing ∈ (n.step e link σ).frames) : enclosing = link := by
  rw [Node.frames_eq] at h
  cases n with
  | program p => cases p <;> simp_all [Node.frames, Prog.frames]
  | token t => cases t <;> simp [Node.frames, Token.frames] at h
  | _ => simp_all [Node.frames]

end Frames

/-- A frame other than the end of a region leaves the loop its connection. -/
theorem Frame.resume_link (f : Frame) (r : Result) (link : Link) (σ : Store) :
    (f.resume r link σ).link = f.under link := by
  cases f with
  | sweep of t ts first => exact Store.sweep_link of _ link [] _ ts
  | _ =>
    unfold Frame.resume
    dsimp only
    repeat' split
    all_goals rfl

theorem Frame.restore_notMem (f : Frame) (r : Result) (link enclosing : Link) (σ : Store) :
    Frame.restore enclosing ∉ (f.resume r link σ).frames := by
  rw [Frame.frames_eq]
  cases f <;> simp [Frame.frames]

/-- The frames that a frame leaves behind give the loop the connection under that frame. -/
theorem Frame.resume_under (f : Frame) (r : Result) (link : Link) (σ : Store) :
    (f.resume r link σ).link.under (f.resume r link σ).frames = f.under link := by
  rw [Frame.resume_link]
  exact Link.under_of_notMem fun enclosing => f.restore_notMem r link enclosing σ

/-! ## Turns and boundaries -/

/-- The turn begins no execution, calls no loop before its own, and touches no boundary but one that
it opens for its loop to wait at. -/
structure Turn.Opens (σ : Store) (t : Turn) : Prop where
  executions : t.store.executions = σ.executions
  cells : t.store.boundaries.cells = σ.boundaries.cells ∧ (∀ b, t.stage ≠ .leaving b) ∨
    t.store.boundaries.cells = σ.boundaries.cells.push .registering ∧
      t.stage = .leaving σ.boundaries.size
  apart : ∀ a ∈ t.calls, a.Apart

theorem Turn.Opens.of_stays {σ : Store} {t : Turn} (he : t.store.executions = σ.executions)
    (hb : t.store.boundaries.cells = σ.boundaries.cells) (hs : ∀ b, t.stage ≠ .leaving b)
    (ha : ∀ a ∈ t.calls, a.Apart) : t.Opens σ :=
  ⟨he, .inl ⟨hb, hs⟩, ha⟩

theorem Turn.Opens.of_waits {σ : Store} {t : Turn} (he : t.store.executions = σ.executions)
    (hb : t.store.boundaries.cells = σ.boundaries.cells.push .registering)
    (hs : t.stage = .leaving σ.boundaries.size) (ha : ∀ a ∈ t.calls, a.Apart) : t.Opens σ :=
  ⟨he, .inr ⟨hb, hs⟩, ha⟩

theorem Store.wait_opens {source : Source} {link : Link}
    {register : StepId → Store → Next × Cleanup}
    (h : ∀ s σ, Next.Aside σ (register s σ).1) (σ : Store) :
    (σ.wait source link register).Opens σ := by
  have hr := h σ.boundaries.size (σ.openStep source link).1
  refine .of_waits hr.executions hr.cells rfl ?_
  simp only [Store.wait, List.mem_append, List.mem_singleton]
  rintro a ((ha | ha) | rfl)
  · exact Store.apart_push _ _ _ a ha
  · exact hr.apart a ha
  · trivial

theorem Store.awaitOutcome_opens (f : FiberId) (link : Link) (σ : Store) :
    (σ.awaitOutcome f link).Opens σ := by
  refine Store.wait_opens (fun s σ => ?_) σ
  dsimp only
  split <;> exact ⟨rfl, rfl, by simp [Activity.Apart]⟩

theorem Store.awaitPermits_opens (i : SemaphoreId) (n : Nat) (link : Link) (σ : Store) :
    (σ.awaitPermits i n link).Opens σ := by
  refine Store.wait_opens (fun s σ => ⟨rfl, rfl, ?_⟩) σ
  dsimp only
  split
  · exact Store.apart_completeSteps _ _
  · simp

theorem Store.awaitGate_opens (g : BracketId) (link : Link) (σ : Store) :
    (σ.awaitGate g link).Opens σ := by
  refine Store.wait_opens (fun s σ => ⟨rfl, rfl, ?_⟩) σ
  dsimp only
  split
  · simp
  · exact Store.apart_completeSteps _ _

theorem Store.awaitJob_opens (job : StepId → Store → Job) (started : Bool) (link : Link)
    (σ : Store) : (σ.awaitJob job started link).Opens σ :=
  Store.wait_opens (fun _ _ => ⟨rfl, rfl, by simp⟩) σ

theorem Store.fork_opens (kind : ForkKind) (p q : Prog) (on : Executor) (link : Link)
    (σ : Store) : (σ.fork kind p q on link).Opens σ := by
  refine .of_waits rfl rfl rfl ?_
  simp only [Store.fork, List.mem_append, List.mem_cons, List.not_mem_nil, or_false]
  rintro a (ha | rfl | rfl)
  · exact Store.apart_push _ _ _ a ha
  · trivial
  · trivial

theorem Store.sweep_opens (of : Link) (first : Option Error) (link : Link) (below : List Frame)
    (σ : Store) (ts : List Token) : (σ.sweep of first link below ts).Opens σ := by
  cases ts <;> exact .of_stays rfl rfl (by simp [Store.sweep]) (by simp [Store.sweep])

theorem Cleanup.begin_opens (c : Cleanup) (link : Link) (σ : Store) :
    (c.begin link σ).Opens σ := by
  cases c with
  | program i =>
    simp only [Cleanup.begin]
    split <;> exact .of_stays rfl rfl (by simp) (by simp)
  | _ => exact .of_stays rfl rfl (by simp [Cleanup.begin]) (by simp [Cleanup.begin])

theorem Token.begin_opens (t : Token) (link : Link) (σ : Store) : (t.begin link σ).Opens σ := by
  cases t with
  | cleanup c => exact c.begin_opens link σ
  | connection c =>
    simp only [Token.begin]
    generalize hx : σ.cancel c = x
    have hσ : x.1 = (σ.cancel c).1 := by rw [hx]
    obtain ⟨σ', _ | ts⟩ := x <;> subst hσ <;> exact .of_stays rfl rfl (by simp) (by simp)
  | fiber f =>
    simp only [Token.begin]
    split <;> exact .of_stays rfl rfl (by simp) (by simp)
  | _ => exact .of_stays rfl rfl (by simp [Token.begin]) (by simp [Token.begin])

theorem Instant.perform_aside (a : Instant) (σ : Store) : Next.Aside σ (a.perform σ).1 := by
  cases a with
  | release i n => exact ⟨rfl, rfl, Store.apart_completeSteps _ _⟩
  | _ => exact ⟨rfl, rfl, by simp [Instant.perform]⟩

theorem Prog.step_opens (p : Prog) (e : ExecutionId) (link : Link) (σ : Store) :
    (p.step e link σ).Opens σ := by
  cases p with
  | connected register => exact .of_waits rfl rfl rfl (by simp [Prog.step, Activity.Apart])
  | cancelable register =>
    refine .of_waits rfl rfl rfl ?_
    simp only [Prog.step, List.mem_append, List.mem_singleton]
    rintro a (ha | rfl)
    · exact Store.apart_push _ _ _ a ha
    · trivial
  | bracket acquire use release =>
    refine .of_waits rfl rfl rfl ?_
    simp only [Prog.step, List.mem_append, List.mem_singleton]
    rintro a (ha | rfl)
    · exact Store.apart_push _ _ _ a ha
    · trivial
  | race p q on => exact σ.fork_opens .first p q on link
  | both p q on f =>
    have h := σ.fork_opens .both p q on link
    exact ⟨h.executions, h.cells, h.apart⟩
  | racePair p q on =>
    exact .of_waits rfl rfl rfl (by simp [Prog.step, Store.startFiber, Activity.Apart])
  | start p on =>
    exact .of_stays rfl rfl (by simp [Prog.step]) (by simp [Prog.step, Store.startFiber,
      Activity.Apart])
  | spawn s p =>
    exact .of_stays rfl rfl (by simp [Prog.step]) (by simp [Prog.step, Store.startFiber,
      Activity.Apart])
  | joinEach fs => cases fs <;> exact .of_stays rfl rfl (by simp [Prog.step]) (by simp [Prog.step])
  | outcome f => exact σ.awaitOutcome_opens f link
  | permits s n => exact σ.awaitPermits_opens s n link
  | instant a =>
    have h := a.perform_aside σ
    exact .of_stays h.executions h.cells (by simp [Prog.step]) h.apart
  | shift on =>
    change (σ.wait .executor link fun s σ => ((σ, [.execute on (.resume s)]), .idle)).Opens σ
    exact Store.wait_opens (fun _ _ => ⟨rfl, rfl, by simp [Activity.Apart]⟩) σ
  | sleep d => exact σ.awaitJob_opens _ _ link
  | remote c => exact σ.awaitJob_opens _ _ link
  | awaited p =>
    have h := (σ.newFuture p).1.awaitJob_opens (fun s _ => .poll (σ.newFuture p).2 s) true link
    exact ⟨h.executions, h.cells, h.apart⟩
  | pop c =>
    simp only [Prog.step]
    generalize hx : σ.popToken c = x
    have hσ : x.1 = (σ.popToken c).1 := by rw [hx]
    obtain ⟨σ', _ | t⟩ := x <;> subst hσ <;> exact .of_stays rfl rfl (by simp) (by simp)
  | stored i =>
    simp only [Prog.step]
    split <;> exact .of_stays rfl rfl (by simp) (by simp)
  | _ => exact .of_stays rfl rfl (by simp [Prog.step]) (by simp [Prog.step])

theorem Node.step_opens (n : Node) (e : ExecutionId) (link : Link) (σ : Store) :
    (n.step e link σ).Opens σ := by
  cases n with
  | program p => exact p.step_opens e link σ
  | result r => exact .of_stays rfl rfl (by simp [Node.step]) (by simp [Node.step])
  | token t => exact t.begin_opens link σ
  | sweep of ts => exact σ.sweep_opens of none none [.restore link] ts
  | release g v x =>
    simp only [Node.step]
    split <;> exact .of_stays rfl rfl (by simp) (by simp)
  | gate g => exact σ.awaitGate_opens g link

theorem Frame.resume_opens (f : Frame) (r : Result) (link : Link) (σ : Store) :
    (f.resume r link σ).Opens σ := by
  cases f with
  | sweep of t ts first =>
    have h := (σ.collect first r).1.sweep_opens of (σ.collect first r).2 link [] ts
    exact ⟨h.executions, h.cells, h.apart⟩
  | openGate g =>
    cases r with
    | ok v => exact .of_stays rfl rfl (by simp [Frame.resume]) (Store.apart_completeSteps _ _)
    | error e => exact .of_stays rfl rfl (by simp [Frame.resume]) (by simp [Frame.resume])
  | publishCancelled f =>
    cases r with
    | ok v => exact .of_stays rfl rfl (by simp [Frame.resume]) (Store.apart_publish _ _ _)
    | error e => exact .of_stays rfl rfl (by simp [Frame.resume]) (by simp [Frame.resume])
  | _ =>
    unfold Frame.resume
    dsimp only
    repeat' split
    all_goals exact .of_stays rfl rfl (by simp) (by simp [Activity.Apart])

/-- No frame brings a loop to a boundary. -/
theorem Frame.resume_stays (f : Frame) (r : Result) (link : Link) (σ : Store) (b : BoundaryId) :
    (f.resume r link σ).stage ≠ .leaving b := by
  cases f with
  | sweep of t ts first =>
    change (Store.sweep of _ link [] _ ts).stage ≠ .leaving b
    cases ts <;> simp [Store.sweep]
  | _ =>
    unfold Frame.resume
    dsimp only
    repeat' split
    all_goals simp

/-- No closure brings a loop to a boundary. -/
theorem Code.turn_stays {α : Type} {again : Code Prog α → Stage}
    {done : Except String α → Stage} (ha : ∀ c b, again c ≠ .leaving b)
    (hd : ∀ o b, done o ≠ .leaving b) (c : Code Prog α) (link : Link) (σ : Store) (b : BoundaryId) :
    (c.turn again done link σ).stage ≠ .leaving b := by
  simp only [Code.turn]
  split
  · exact hd _ b
  · exact ha _ b

theorem Code.turn_opens {α : Type} {again : Code Prog α → Stage}
    {done : Except String α → Stage} (ha : ∀ c b, again c ≠ .leaving b)
    (hd : ∀ o b, done o ≠ .leaving b) (c : Code Prog α) (link : Link) (σ : Store) :
    (c.turn again done link σ).Opens σ := by
  have hm := c.move_aside σ
  exact .of_stays hm.executions hm.cells (c.turn_stays ha hd link σ) hm.apart

theorem Code.delaying_opens (c : Code Prog (Except Error Value)) (link : Link) (σ : Store) :
    (c.turn .delaying .delayed link σ).Opens σ :=
  Code.turn_opens (by simp) (by rintro (m | r) b <;> simp [Stage.delayed]) c link σ

theorem Code.suspending_opens (c : Code Prog Prog) (link : Link) (σ : Store) :
    (c.turn .suspending .suspended link σ).Opens σ :=
  Code.turn_opens (by simp) (by rintro (m | p) b <;> simp [Stage.suspended]) c link σ

theorem Code.mapping_opens (c : Code Prog Value) (link : Link) (σ : Store) :
    (c.turn .mapping .mapped link σ).Opens σ :=
  Code.turn_opens (by simp) (by rintro (m | v) b <;> simp [Stage.mapped]) c link σ

/-- A loop at work either is stopped or has come to its end, and its result is delivered, or takes
a turn above its stack, of which a frame may have received a result, or is at the end of a
registration. -/
theorem Loop.step_cases (s : Stage) (l : Loop) (σ : Store) :
    (∃ r, l.step s σ = (σ, [.deliver l.id l.sink r]) ∧
        ((∃ n, s = .looking n ∧ σ.isCancelled l.link = true) ∨ s = .handing r ∧ l.stack = [])) ∨
      (∃ t fs, l.step s σ = Turn.on t { l with stack := fs } ∧ t.Opens σ ∧
        (l.stack = fs ∨ ∃ f r, l.stack = f :: fs ∧ s = .handing r)) ∨
      ∃ b, s = .leaving b := by
  cases s with
  | looking n =>
    by_cases hc : σ.isCancelled l.link
    · exact .inl ⟨.error .cancelled, by simp only [Loop.step, hc, if_true], .inl ⟨n, rfl, hc⟩⟩
    · refine .inr (.inl ⟨_, l.stack, ?_, n.step_opens l.id l.link σ, .inl rfl⟩)
      simp only [Loop.step, hc]
      rfl
  | handing r =>
    obtain ⟨e, link, _ | ⟨f, fs⟩, k⟩ := l
    · exact .inl ⟨r, rfl, .inr ⟨rfl, rfl⟩⟩
    · exact .inr (.inl ⟨_, fs, rfl, f.resume_opens r link σ, .inr ⟨f, r, rfl, rfl⟩⟩)
  | delaying c => exact .inr (.inl ⟨_, l.stack, rfl, c.delaying_opens l.link σ, .inl rfl⟩)
  | suspending c => exact .inr (.inl ⟨_, l.stack, rfl, c.suspending_opens l.link σ, .inl rfl⟩)
  | mapping c => exact .inr (.inl ⟨_, l.stack, rfl, c.mapping_opens l.link σ, .inl rfl⟩)
  | leaving b => exact .inr (.inr ⟨b, rfl⟩)

end CancelableEffects
