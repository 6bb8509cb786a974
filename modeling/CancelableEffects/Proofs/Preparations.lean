import CancelableEffects.Proofs.Sides

/-!
# Preparations — how the fibers of a duel are started, tied together and listened to

* `Activity.prepares`, `Activity.prepared`: the calls with which a duel is prepared, and which of them
  follows which.
* **`Activity.preparations_step`**, **`Input.preparations_step`**: no others follow any step.
* **`Session.exists_prepared`**: each of them came from the one before.
* `Session.fiber_seat`: who runs as a fiber.
-/

namespace CancelableEffects

/-- The call is one of those with which a duel is prepared: the right fiber is started, both fibers are tied
together, and one of them is listened to. -/
def Activity.prepares : Activity → Bool
  | .startRight _ _ _ _ _ | .tie _ _ _ _ | .listen _ _ => true
  | _ => false

section Steps

variable {σ : Store}

/-- The calls with which duels are prepared. -/
def Activity.preparations (as : List Activity) : List Activity := as.filter Activity.prepares

@[simp] theorem Activity.preparations_append (as bs : List Activity) :
    preparations (as ++ bs) = preparations as ++ preparations bs :=
  List.filter_append as bs

@[simp] theorem Activity.preparations_nil : preparations [] = [] := rfl

@[simp] theorem Activity.preparations_cons (a : Activity) (as : List Activity) :
    preparations (a :: as) = (if a.prepares then [a] else []) ++ preparations as := by
  rw [preparations, List.filter_cons]
  split <;> rfl

@[simp] theorem Store.preparations_push (link : Link) (t : Token) (σ : Store) :
    Activity.preparations (σ.push link t).2 = [] := by
  unfold Store.push
  split <;> rfl

@[simp] theorem Store.preparations_completeSteps (source : Source) (ss : List StepId) :
    Activity.preparations (Store.completeSteps source ss) = [] :=
  List.filter_eq_nil_iff.2 (List.forall_mem_map.2 fun _ _ => nofun)

@[simp] theorem Store.preparations_publish (f : FiberId) (o : Outcome Value) (σ : Store) :
    Activity.preparations (σ.publish f o).2 = [] :=
  List.filter_eq_nil_iff.2 (List.forall_mem_map.2 fun _ _ => nofun)

@[simp] theorem Store.preparations_openStep (source : Source) (link : Link) (σ : Store) :
    Activity.preparations (σ.openStep source link).2 = [] := Store.preparations_push _ _ _

@[simp] theorem Code.preparations_move {α : Type} (c : Code Prog α) (σ : Store) :
    Activity.preparations (c.move σ).1.2 = [] := by
  cases c with
  | answer k r next =>
    simp only [Code.move, Store.answer]
    split <;> rfl
  | push link p next => exact Store.preparations_push _ _ _
  | _ => rfl

theorem Code.preparations_advance {α : Type} {again : Code Prog α → Activity}
    {done : Except String α → Store → Next} (ha : ∀ c, (again c).prepares = false)
    (hd : ∀ o σ, Activity.preparations (done o σ).2 = []) (c : Code Prog α) (σ : Store) :
    Activity.preparations (c.advance again done σ).2 = [] := by
  have hm := c.preparations_move σ
  unfold Code.advance
  generalize c.move σ = m at hm
  obtain ⟨⟨σ', calls⟩, o | c'⟩ := m
  · simp_all
  · simp_all

theorem Prog.preparations_step (p : Prog) (e : ExecutionId) (link : Link) (σ : Store) :
    Activity.preparations (p.step e link σ).calls =
      match p with
      | .racePair _ q on => [.startRight σ.fibers.size q on link σ.boundaries.size]
      | _ => [] := by
  cases p with
  | racePair p q on => rfl
  | joinEach fs => cases fs <;> rfl
  | instant a => cases a <;> simp [Prog.step, Instant.perform]
  | pop c =>
    simp only [Prog.step]
    split <;> rfl
  | stored k =>
    simp only [Prog.step]
    split <;> rfl
  | outcome f =>
    simp only [Prog.step, Store.awaitOutcome, Store.wait]
    split <;> simp [Activity.prepares]
  | permits j n =>
    simp only [Prog.step, Store.awaitPermits, Store.wait]
    split <;> simp [Activity.prepares]
  | race p q on => simp [Prog.step, Store.fork, Activity.prepares]
  | both p q on f => simp [Prog.step, Store.fork, Activity.prepares]
  | _ => simp [Prog.step, Store.wait, Store.awaitJob, Store.startFiber, Activity.prepares]

theorem Token.preparations_begin (t : Token) (link : Link) (σ : Store) :
    Activity.preparations (t.begin link σ).calls = [] := by
  cases t with
  | cleanup c =>
    cases c with
    | program k =>
      simp only [Token.begin, Cleanup.begin]
      split <;> rfl
    | _ => rfl
  | connection c =>
    simp only [Token.begin]
    split <;> rfl
  | fiber f =>
    simp only [Token.begin]
    split <;> rfl
  | _ => rfl

theorem Node.preparations_step (n : Node) (e : ExecutionId) (link : Link) (σ : Store) :
    Activity.preparations (n.step e link σ).calls =
      match n with
      | .program (.racePair _ q on) => [.startRight σ.fibers.size q on link σ.boundaries.size]
      | _ => [] := by
  cases n with
  | program p =>
    refine (p.preparations_step e link σ).trans ?_
    cases p <;> rfl
  | token t => exact t.preparations_begin link σ
  | sweep of ts => cases ts <;> rfl
  | release g v x =>
    simp only [Node.step]
    split <;> rfl
  | gate g =>
    simp only [Node.step, Store.awaitGate, Store.wait]
    split <;> simp [Activity.prepares]
  | result r => rfl

theorem Frame.preparations_resume (f : Frame) (r : Result) (link : Link) (σ : Store) :
    Activity.preparations (f.resume r link σ).calls = [] := by
  cases f with
  | sweep of t ts first => cases ts <;> rfl
  | openGate g => cases r <;> simp [Frame.resume, Store.openGate]
  | publishCancelled f => cases r <;> simp [Frame.resume]
  | _ =>
    unfold Frame.resume
    dsimp only
    repeat' split
    all_goals rfl

theorem Sink.preparations_receive (k : Sink) (r : Result) (σ : Store) :
    Activity.preparations (k.receive r σ).2 = [] := by
  cases k <;> simp only [Sink.receive, Store.endFiber, Store.endAcquire, Store.endSide, Store.report,
    Store.openGate, Store.settle, Store.settleBoth] <;> repeat' split
  all_goals simp [Activity.prepares]

theorem Store.preparations_startFuture (f : FutureId) (waker : Option JobId) (σ : Store) :
    Activity.preparations (σ.startFuture f waker).2 = [] := by
  unfold Store.startFuture
  split <;> rfl

theorem Store.preparations_dropFuture (f : FutureId) (σ : Store) :
    Activity.preparations (σ.dropFuture f).2 = [] := by
  unfold Store.dropFuture
  repeat' split
  all_goals rfl

theorem Task.preparations_step (t : Task) (σ : Store) : Activity.preparations (t.step σ).2 = [] := by
  cases t with
  | job j =>
    simp only [Task.step]
    split
    · rename_i x _
      cases x <;> simp [Job.step, Store.preparations_startFuture, Store.preparations_dropFuture, Activity.prepares]
    · rfl
  | resume s => exact Store.preparations_completeSteps _ _
  | _ => rfl

/-- The calls with which duels are prepared that follow this one. -/
def Activity.prepared (σ : Store) : Activity → List Activity
  | .work (.looking (.program (.racePair _ q on))) l =>
    if σ.isCancelled l.link then [] else [.startRight σ.fibers.size q on l.link σ.boundaries.size]
  | .startRight left _ _ parent k => [.tie left σ.fibers.size parent k]
  | .tie left right _ k => [.listen left (.duel k .left), .listen right (.duel k .right)]
  | _ => []

/-- **How a duel is prepared**: the loop that comes to it starts the left fiber, then the right one is
started, then both are tied together, and then the left one is listened to, and the right one. -/
theorem Activity.preparations_step (a : Activity) (σ : Store) :
    preparations (a.step σ).2 = a.prepared σ := by
  have hon : ∀ (t : Turn) (l : Loop), preparations (t.on l).2 = preparations t.calls := fun t l => by
    simp [Turn.on, prepares]
  cases a with
  | work s l =>
    cases s with
    | looking n =>
      cases hc : σ.isCancelled l.link with
      | true =>
        rw [Activity.step, l.step_of_cancelled hc]
        unfold prepared
        split <;> simp_all [prepares]
      | false =>
        rw [Activity.step, l.step_of_not_cancelled hc, hon, n.preparations_step l.id l.link σ]
        unfold prepared
        split <;> simp_all
    | handing r =>
      obtain ⟨e, link, _ | ⟨f, fs⟩, k⟩ := l
      · rfl
      · exact (hon _ _).trans (f.preparations_resume r link σ)
    | delaying c => exact (hon _ _).trans (c.preparations_move σ)
    | suspending c => exact (hon _ _).trans (c.preparations_move σ)
    | mapping c => exact (hon _ _).trans (c.preparations_move σ)
    | leaving b =>
      simp only [Activity.step, Loop.step, Store.leave]
      split <;> rfl
  | registering c b =>
    exact Code.preparations_advance (fun _ => rfl) (fun o σ => by cases o <;> rfl) c σ
  | calling c s => exact Code.preparations_advance (fun _ => rfl) (fun o σ => by cases o <;> rfl) c σ
  | registeringStep c s =>
    exact Code.preparations_advance (fun _ => rfl) (fun o σ => by cases o <;> rfl) c σ
  | deliver e k r => exact k.preparations_receive r σ
  | execute on t =>
    cases on with
    | immediate => exact t.preparations_step σ
    | _ => rfl
  | fillSlot s c =>
    simp only [Activity.step, Store.fillSlot]
    split <;> rfl
  | complete c r =>
    cases c <;> simp only [Activity.step, Completer.complete, Store.completeBoundary,
      Store.completeCallback, Store.completeStep] <;> repeat' split
    all_goals rfl
  | notify f l o =>
    cases l with
    | step s => rfl
    | duel k x =>
      simp only [Activity.step, Store.endDuel]
      repeat' split
      all_goals rfl
  | listen f l =>
    simp only [Activity.step]
    split <;> rfl
  | tie left right parent k => simp [Activity.step, prepared, prepares]
  | polling j =>
    simp only [Activity.step, Store.poll]
    repeat' split
    all_goals rfl
  | _ => rfl

/-- Nothing that the outside world does prepares a duel. -/
theorem Input.preparations_step (i : Input) (σ : Store) : Activity.preparations (i.step σ).2 = [] := by
  cases i with
  | move c => exact c.preparations_move σ
  | pushPair link left right => exact Store.preparations_push _ _ _
  | startFuture f => exact Store.preparations_startFuture _ _ _
  | dropFuture f => exact Store.preparations_dropFuture _ _
  | tick queue place =>
    simp only [Input.step]
    split <;> rfl
  | ready place =>
    simp only [Input.step]
    split <;> rfl
  | _ => rfl

end Steps

/-! ## Sessions -/

namespace Session

variable {cs cs₀ : List Choice} {a : Activity}

/-- **A duel is prepared in this order**: each of the calls came from the one before. -/
theorem exists_prepared (h : (after cs).Comes a) (ha : a.prepares = true) :
    ∃ cs₂ place cs₁ a₀, cs = cs₂ ++ .call place :: cs₁ ∧ (after cs₁).calls[place]? = some a₀ ∧
      a ∈ a₀.prepared (after cs₁).store := by
  induction cs with
  | nil =>
    rcases h with h | ⟨m, hm, -⟩
    · exact (List.not_mem_nil h).elim
    · exact (List.not_mem_nil hm).elim
  | cons x cs ih =>
    have hold : (after cs).Comes a → ∃ cs₂ place cs₁ a₀, x :: cs = cs₂ ++ .call place :: cs₁ ∧
        (after cs₁).calls[place]? = some a₀ ∧ a ∈ a₀.prepared (after cs₁).store := fun h => by
      obtain ⟨cs₂, place, cs₁, a₀, rfl, hcall, hmem⟩ := ih h
      exact ⟨x :: cs₂, place, cs₁, a₀, rfl, hcall, hmem⟩
    have hnew : ∀ {as : List Activity}, a ∈ as → a ∈ Activity.preparations as := fun hmem =>
      List.mem_filter.2 ⟨hmem, ha⟩
    cases x with
    | input i =>
      rcases (comes_input (S := after cs)).1 h with hi | h
      · have hmem := hnew hi
        rw [i.preparations_step] at hmem
        exact (List.not_mem_nil hmem).elim
      · exact hold h
    | call place =>
      cases hcall : (after cs).calls[place]? with
      | none =>
        refine hold ?_
        rw [after] at h
        simpa only [step, hcall] using h
      | some a₀ =>
        rw [after, step_call hcall] at h
        rcases (comes_call hcall).1 h with hi | h
        · refine ⟨[], place, cs, a₀, rfl, hcall, ?_⟩
          rw [← a₀.preparations_step]
          exact hnew hi
        · exact hold h

/-- **Who runs as a fiber**: the execution that was there for it. -/
theorem fiber_seat {f : FiberId} {y y₀ : Seat} (hy₀ : y₀ ∈ (after cs₀).seats) (h₀ : y₀.sink = .fiber f)
    (hy : y ∈ (after (cs ++ cs₀)).seats) (h : y.sink = .fiber f) : y = y₀ := by
  obtain ⟨c, hlink, hlt, hknown⟩ := (seated cs₀).there y₀ hy₀
  induction cs with
  | nil =>
    obtain ⟨c', hlink', -, hknown'⟩ := (seated cs₀).there y hy
    have hsame : y.link = some c := (hknown'.fiber f h).symm.trans ((hknown.fiber f h₀).trans hlink)
    -- the connection is for one execution
    have hsingle := (seated cs₀).single c
    obtain ⟨xs, ys, hseats⟩ := List.append_of_mem hy₀
    have hpos : ∀ {zs : List Seat}, y ∈ zs → 0 < zs.countP (·.link == some c) := fun hmem =>
      List.countP_pos_iff.2 ⟨y, hmem, by rw [hsame]; exact beq_self_eq_true _⟩
    rw [hseats, List.countP_append, List.countP_cons, hlink, beq_self_eq_true, if_pos rfl] at hsingle
    rw [List.nil_append, hseats] at hy
    rcases List.mem_append.1 hy with hy | hy
    · have := hpos hy
      omega
    · rcases List.mem_cons.1 hy with rfl | hy
      · rfl
      · have := hpos hy
        omega
  | cons x cs ih =>
    obtain ⟨fresh, hadds⟩ := adds_step (cs ++ cs₀) x
    rcases hadds.mem y hy with hy | hy
    · exact ih hy
    · obtain ⟨c', hlink', hle, -, hknown', -⟩ := hadds.new y hy
      have hfiber := (after_grows cs₀ (x :: cs)).fiberLink ((hknown.fiber f h₀).trans hlink)
      cases hfiber.symm.trans ((hknown'.fiber f h).trans hlink')
      exact absurd (Nat.lt_of_lt_of_le hlt (connections_le cs₀ cs)) (Nat.not_lt.2 hle)

end Session

end CancelableEffects
