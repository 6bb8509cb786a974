import CancelableEffects.Proofs.Runs
import CancelableEffects.Proofs.Seats

/-!
# Joiners — who publishes the outcome of a fiber

* `Activity.publishes?`: the outcome that a step publishes, and its fiber.
* `Next.Tells`, **`Activity.step_tells`**, **`Input.step_tells`**: every step publishes that one and no
  other, and then tells everybody who listens.
* `Session.Publishes`, **`Session.publishing`**: an effect that cancels a fiber goes on until the fiber
  has an outcome, unless it is stopped by a cancellation of its own connection.
* `Store.Dismissed`, `Session.dismissed_of_delivered`: a fiber whose loop has ended has an outcome, or
  its connection was cancelled.
* **`Session.fiber_ends`**: who publishes the outcome of a fiber, and who is told of it.
-/

namespace CancelableEffects

/-! ## Listeners -/

/-- Who listens to the fiber. -/
def Store.listeners (f : FiberId) (σ : Store) : List Listener :=
  match σ.fibers[f]?.map Fiber.promise with
  | some (.pending ls _) => ls.map (·.2)
  | _ => []

/-- What becomes known of the fiber when the outcome is published. -/
def Store.published (f : FiberId) (p : Option (FiberId × Outcome Value)) (σ : Store) :
    Option (Outcome Value) :=
  p.bind fun x => if x.1 = f ∧ f < σ.fibers.size then some x.2 else none

/-- The outcome that is published when the frame has received the result, and its fiber. -/
def Frame.publishes? (r : Result) : Frame → Option (FiberId × Outcome Value)
  | .publishCancelled f => if r.isOk then some (f, .cancelled) else none
  | _ => none

/-- The outcome that is published in the step of the loop. -/
def Loop.publishes? (s : Stage) (l : Loop) : Option (FiberId × Outcome Value) :=
  match s with
  | .handing r => l.stack.head?.bind (·.publishes? r)
  | _ => none

/-- The outcome that is published when the result comes to the sink: that of a fiber whose own
cancellation did not stop it. -/
def Sink.publishes? (r : Result) (σ : Store) : Sink → Option (FiberId × Outcome Value)
  | .fiber f =>
    match r with
    | .ok v => some (f, .completed v)
    | .error e =>
      if e.isCancelled && σ.isCancelled (σ.fiberLink f) then none else some (f, .errored e)
  | _ => none

/-- The outcome that is published in the step of the call. -/
def Activity.publishes? (σ : Store) : Activity → Option (FiberId × Outcome Value)
  | .work s l => l.publishes? s
  | .deliver _ k r => k.publishes? r σ
  | _ => none

/-- The step publishes the outcome `p`, and no other, unless the fiber has one; then everybody who listens
is told. A new fiber has a connection that is there. -/
structure Next.Tells (σ : Store) (p : Option (FiberId × Outcome Value)) (next : Next) : Prop where
  link : ∀ f c, next.1.fiberLink f = some c → σ.fiberLink f = some c ∨ c < next.1.connections.size
  outcome : ∀ f, next.1.outcome? f = (σ.outcome? f).or (σ.published f p)
  told : ∀ f o, σ.outcome? f = none → next.1.outcome? f = some o →
    ∀ l ∈ σ.listeners f, .notify f l o ∈ next.2

section Tells

variable {σ σ' : Store} {p : Option (FiberId × Outcome Value)} {next next' : Next}

/-- A step that publishes nothing. -/
theorem Next.Tells.of_outcome
    (hl : ∀ f c, next.1.fiberLink f = some c → σ.fiberLink f = some c ∨ c < next.1.connections.size)
    (ho : ∀ f, next.1.outcome? f = σ.outcome? f) : next.Tells σ none where
  link := hl
  outcome f := (ho f).trans (Option.or_none).symm
  told f o hnone hsome := by
    rw [ho, hnone] at hsome
    cases hsome

theorem Next.Tells.of_eq (h : next.1.fibers = σ.fibers) : next.Tells σ none := by
  refine .of_outcome (fun f c hf => .inl ?_) fun f => ?_
  · rwa [Store.fiberLink, h] at hf
  · rw [Store.outcome?, h, Store.outcome?]

theorem Next.Tells.calls {calls : List Activity} (h : next.Tells σ p) (ha : ∀ a ∈ next.2, a ∈ calls) :
    Next.Tells σ p (next.1, calls) :=
  ⟨h.link, h.outcome, fun f o hnone hsome l hl => ha _ (h.told f o hnone hsome l hl)⟩

theorem Next.Tells.of_fibers (h : next.Tells σ' p) (hσ : σ'.fibers = σ.fibers) : next.Tells σ p where
  link f c hc := by simpa only [Store.fiberLink, hσ] using h.link f c hc
  outcome f := by simpa only [Store.outcome?, Store.published, hσ] using h.outcome f
  told f o hnone hsome l hl :=
    h.told f o (by rwa [Store.outcome?, hσ]) hsome l (by rwa [Store.listeners, hσ])

theorem Store.fiberLink_modifyPromise (f f' : FiberId)
    (change : Promise Listener (Outcome Value) → Promise Listener (Outcome Value)) :
    (σ.modifyPromise f change).fiberLink f' = σ.fiberLink f' := by
  simp only [fiberLink, modifyPromise, Array.getElem?_modify]
  split
  · cases σ.fibers[f']? <;> rfl
  · rfl

/-- A change of a promise that leaves open whether there is an outcome. -/
theorem Next.Tells.modifyPromise (f : FiberId)
    {change : Promise Listener (Outcome Value) → Promise Listener (Outcome Value)}
    (h : ∀ p, (change p).get = p.get) (calls : List Activity) :
    Next.Tells σ none (σ.modifyPromise f change, calls) := by
  refine .of_outcome (fun f' c hc => .inl ((Store.fiberLink_modifyPromise _ _ _).symm.trans hc))
    fun f' => ?_
  simp only [Store.outcome?, Store.modifyPromise, Array.getElem?_modify]
  split
  · cases σ.fibers[f']? with
    | none => rfl
    | some x => exact h x.promise
  · rfl

theorem Store.listen_tells (f : FiberId) (l : Listener) (calls : List Activity) :
    Next.Tells σ none ((σ.listen f l).1, calls) := by
  change Next.Tells σ none (σ.modifyPromise f (fun p => (p.listen l).1), calls)
  refine .modifyPromise f (fun p => ?_) calls
  cases p <;> rfl

theorem Store.unlisten_tells (f : FiberId) (n : Nat) (calls : List Activity) :
    Next.Tells σ none (σ.unlisten f n, calls) :=
  .modifyPromise f (fun p => p.get_remove n) calls

/-- A new fiber has no outcome yet. -/
theorem Store.startFiber_tells (p : Prog) (on : Executor) (σ : Store) :
    Next.Tells σ none (σ.startFiber p on).1 := by
  have hfibers : (σ.startFiber p on).1.1.fibers =
      σ.fibers.push { connection := σ.connections.size } := rfl
  have hconnections : (σ.startFiber p on).1.1.connections = σ.connections.push .fresh := rfl
  refine .of_outcome (fun f c hf => ?_) fun f => ?_
  · simp only [fiberLink, hfibers, Array.getElem?_push] at hf
    split at hf
    · cases hf
      right
      rw [hconnections, Array.size_push]
      exact Nat.lt_succ_self _
    · exact .inl hf
  · simp only [outcome?, hfibers, Array.getElem?_push]
    split
    · rename_i h
      rw [h, Array.getElem?_eq_none (Nat.le_refl _)]
      rfl
    · rfl

/-- Who publishes an outcome tells everybody who listens. -/
theorem Store.publish_tells (f : FiberId) (o : Outcome Value) (σ : Store) :
    Next.Tells σ (some (f, o)) (σ.publish f o) where
  link f' c hc := .inl ((fiberLink_modifyPromise _ _ _).symm.trans hc)
  outcome f' := by
    simp only [outcome?, publish, modifyPromise, Array.getElem?_modify, published, Option.bind_some]
    by_cases hf : f = f'
    · subst f'
      cases hx : σ.fibers[f]? with
      | none => simp [Nat.not_lt.2 (Array.getElem?_eq_none_iff.1 hx)]
      | some x =>
        have hlt := (Array.getElem?_eq_some_iff.1 hx).1
        cases hp : x.promise <;> simp [hp, hlt, Promise.fulfil, Promise.get]
    · simp [hf]
  told f' o' hnone hsome l hl := by
    cases hx : σ.fibers[f']? with
    | none => simp [listeners, hx] at hl
    | some x =>
      simp only [outcome?, hx, Option.bind_some] at hnone
      simp only [outcome?, publish, modifyPromise, Array.getElem?_modify, hx] at hsome
      split at hsome
      · subst f'
        cases hp : x.promise with
        | complete o => simp [hp, Promise.get] at hnone
        | pending ls n =>
          simp only [listeners, hx, Option.map_some, hp] at hl
          simp only [Option.map_some, Option.bind_some, hp, Promise.fulfil, Promise.get,
            Option.some.injEq] at hsome
          simp only [publish, hx, Option.map_some, Option.getD_some, hp, Promise.fulfil, hsome]
          exact List.mem_map.2 ⟨l, hl, rfl⟩
      · simp [hnone] at hsome

/-! ## Steps -/

theorem Code.move_fibers {α : Type} (c : Code Prog α) (σ : Store) :
    (c.move σ).1.1.fibers = σ.fibers := by
  cases c <;> rfl

theorem Code.advance_fibers {α : Type} {again : Code Prog α → Activity}
    {done : Except String α → Store → Next} (hd : ∀ o σ, (done o σ).1.fibers = σ.fibers)
    (c : Code Prog α) (σ : Store) : (c.advance again done σ).1.fibers = σ.fibers := by
  cases c with
  | ret a => exact hd _ σ
  | panic m => exact hd _ σ
  | _ => rfl

theorem Prog.step_tells (p : Prog) (e : ExecutionId) (link : Link) (σ : Store) :
    Next.Tells σ none ((p.step e link σ).store, (p.step e link σ).calls) := by
  cases p with
  | racePair p q on =>
    have h : Next.Tells σ none ((σ.newBoundary (.duel none)).1.startFiber p on).1 :=
      (Store.startFiber_tells p on _).of_fibers rfl
    exact h.calls fun a ha => List.mem_append_left _ ha
  | start p on => exact σ.startFiber_tells p on
  | spawn s p => exact σ.startFiber_tells p _
  | joinEach fs => cases fs <;> exact .of_eq rfl
  | outcome f =>
    have h : ∀ calls, Next.Tells σ none (((σ.openStep (.outcome f) link).1.listen f
        (.step σ.boundaries.size)).1, calls) := fun calls => by
      have hlisten := Store.listen_tells (σ := (σ.openStep (.outcome f) link).1) f
        (.step σ.boundaries.size) calls
      exact hlisten.of_fibers rfl
    simp only [Prog.step, Store.awaitOutcome, Store.wait]
    split <;> exact h _
  | instant a => cases a <;> exact .of_eq rfl
  | pop c =>
    have h : (σ.popToken c).1.fibers = σ.fibers := rfl
    refine .of_eq ?_
    simp only [Prog.step]
    split <;> simp_all
  | stored i =>
    refine .of_eq ?_
    simp only [Prog.step]
    split <;> rfl
  | _ => exact .of_eq rfl

theorem Token.begin_tells (t : Token) (link : Link) (σ : Store) :
    Next.Tells σ none ((t.begin link σ).store, (t.begin link σ).calls) := by
  cases t with
  | cleanup c =>
    cases c with
    | program i =>
      refine .of_eq ?_
      simp only [Token.begin, Cleanup.begin]
      split <;> rfl
    | unlisten f n => exact Store.unlisten_tells f n []
    | _ => exact .of_eq rfl
  | connection c =>
    have h : (σ.cancel c).1.fibers = σ.fibers := rfl
    refine .of_eq ?_
    simp only [Token.begin]
    split <;> simp_all
  | fiber f =>
    refine .of_eq ?_
    simp only [Token.begin]
    split <;> rfl
  | _ => exact .of_eq rfl

theorem Node.step_tells (n : Node) (e : ExecutionId) (link : Link) (σ : Store) :
    Next.Tells σ none ((n.step e link σ).store, (n.step e link σ).calls) := by
  cases n with
  | program p => exact p.step_tells e link σ
  | token t => exact t.begin_tells link σ
  | sweep of ts => exact .of_eq (congrArg Store.fibers (Store.sweep_store ..))
  | release g v x =>
    refine .of_eq ?_
    simp only [Node.step]
    split <;> rfl
  | _ => exact .of_eq rfl

theorem Frame.resume_tells (f : Frame) (r : Result) (link : Link) (σ : Store) :
    Next.Tells σ (f.publishes? r) ((f.resume r link σ).store, (f.resume r link σ).calls) := by
  cases f with
  | publishCancelled f =>
    cases r with
    | ok v => exact σ.publish_tells f .cancelled
    | error e => exact .of_eq rfl
  | sweep of t ts first => cases ts <;> exact .of_eq rfl
  | _ =>
    refine .of_eq ?_
    unfold Frame.resume
    dsimp only
    repeat' split
    all_goals rfl

theorem Loop.step_tells (s : Stage) (l : Loop) (σ : Store) : Next.Tells σ (l.publishes? s) (l.step s σ) := by
  have hwork : ∀ {p} {t : Turn} {s l}, Next.Tells σ p (t.store, t.calls) →
      Next.Tells σ p (t.store, t.calls ++ [.work s l]) := fun h =>
    h.calls fun a ha => List.mem_append_left _ ha
  cases s with
  | looking n =>
    simp only [Loop.step]
    split
    · exact .of_eq rfl
    · exact hwork (n.step_tells l.id l.link σ)
  | handing r =>
    obtain ⟨e, link, _ | ⟨f, fs⟩, k⟩ := l
    · exact .of_eq rfl
    · exact hwork (f.resume_tells r link σ)
  | delaying c => exact .of_eq (c.move_fibers σ)
  | suspending c => exact .of_eq (c.move_fibers σ)
  | mapping c => exact .of_eq (c.move_fibers σ)
  | leaving b =>
    refine .of_eq ?_
    simp only [Loop.step, Store.leave]
    split <;> rfl

theorem Store.endFiber_tells (f : FiberId) (r : Result) (σ : Store) :
    Next.Tells σ ((Sink.fiber f).publishes? r σ) (σ.endFiber f r) := by
  cases r with
  | ok v => exact (Store.publish_tells f _ _).of_fibers rfl
  | error e =>
    simp only [Store.endFiber, Sink.publishes?]
    split
    · exact .of_eq rfl
    · exact (Store.publish_tells f _ _).of_fibers rfl

theorem Sink.receive_tells (k : Sink) (r : Result) (σ : Store) :
    Next.Tells σ (k.publishes? r σ) (k.receive r σ) := by
  cases k with
  | fiber f => exact σ.endFiber_tells f r
  | acquired g =>
    refine .of_eq ?_
    simp only [Sink.receive, Store.endAcquire]
    repeat' split
    all_goals rfl
  | side k x =>
    refine .of_eq ?_
    simp only [Sink.receive, Store.endSide]
    repeat' split
    all_goals rfl
  | observer i =>
    refine .of_eq ?_
    simp only [Sink.receive, Store.report]
    repeat' split
    all_goals rfl
  | lateRelease g =>
    refine .of_eq ?_
    simp only [Sink.receive]
    split <;> rfl
  | settle k x =>
    refine .of_eq ?_
    simp only [Sink.receive]
    split <;> rfl
  | fail k cause =>
    refine .of_eq ?_
    simp only [Sink.receive]
    split <;> rfl
  | _ => exact .of_eq rfl

theorem Store.startFuture_fibers (f : FutureId) (waker : Option JobId) (σ : Store) :
    (σ.startFuture f waker).1.fibers = σ.fibers := by
  unfold Store.startFuture
  split <;> rfl

theorem Store.dropFuture_fibers (f : FutureId) (σ : Store) :
    (σ.dropFuture f).1.fibers = σ.fibers := by
  unfold Store.dropFuture
  repeat' split
  all_goals rfl

theorem Task.step_fibers (t : Task) (σ : Store) : (t.step σ).1.fibers = σ.fibers := by
  cases t with
  | job j =>
    simp only [Task.step]
    split
    · rename_i job _
      cases job with
      | poll f s => exact σ.startFuture_fibers f (some j)
      | drop f => exact (σ.setJob j .over).dropFuture_fibers f
      | _ => rfl
    · rfl
  | _ => rfl

/-- **A call publishes the outcome that it has to, and then tells everybody who listens.** -/
theorem Activity.step_tells (a : Activity) (σ : Store) : Next.Tells σ (a.publishes? σ) (a.step σ) := by
  cases a with
  | work s l => exact l.step_tells s σ
  | registering c b => exact .of_eq (c.advance_fibers (fun o _ => by cases o <;> rfl) σ)
  | registeringStep c s => exact .of_eq (c.advance_fibers (fun o _ => by cases o <;> rfl) σ)
  | calling c s => exact .of_eq (c.advance_fibers (fun o _ => by cases o <;> rfl) σ)
  | fillSlot s c =>
    refine .of_eq ?_
    simp only [Activity.step, Store.fillSlot]
    split <;> rfl
  | deliver e k r => exact k.receive_tells r σ
  | complete c r =>
    refine .of_eq ?_
    cases c with
    | boundary b =>
      simp only [Activity.step, Completer.complete, Store.completeBoundary]
      split <;> rfl
    | callback b =>
      simp only [Activity.step, Completer.complete, Store.completeCallback]
      split <;> rfl
    | step s source =>
      simp only [Activity.step, Completer.complete, Store.completeStep]
      repeat' split
      all_goals rfl
  | notify f l o =>
    refine .of_eq ?_
    cases l with
    | step s => rfl
    | duel k x =>
      simp only [Activity.step, Store.endDuel]
      repeat' split
      all_goals rfl
  | listen f l => exact Store.listen_tells f l _
  | execute on t =>
    refine .of_eq ?_
    cases on with
    | immediate => exact t.step_fibers σ
    | _ => rfl
  | startRight left q on parent k =>
    exact (σ.startFiber_tells q on).calls fun a ha => List.mem_append_left _ ha
  | polling j =>
    refine .of_eq ?_
    simp only [Activity.step, Store.poll]
    repeat' split
    all_goals rfl
  | _ => exact .of_eq rfl

/-- **An input publishes no outcome.** -/
theorem Input.step_tells (i : Input) (σ : Store) : Next.Tells σ none (i.step σ) := by
  refine .of_eq ?_
  cases i with
  | move c => exact c.move_fibers σ
  | run p label cancelable => cases cancelable <;> rfl
  | tick queue place =>
    simp only [Input.step]
    split <;> rfl
  | ready place =>
    simp only [Input.step]
    split <;> rfl
  | startFuture f => exact σ.startFuture_fibers f none
  | dropFuture f => exact σ.dropFuture_fibers f
  | _ => rfl

end Tells

/-! ## Effects that cancel a fiber -/

/-- The loop is at work on the cancellation of the fiber, above the stack that `l₀` had when it began,
or the fiber has an outcome. -/
def Loop.Dismisses (f : FiberId) (l₀ : Loop) (σ : Store) (s : Stage) (l : Loop) : Prop :=
  σ.Ended f ∨ ∃ above, l.stack = above ++ .publishCancelled f :: l₀.stack ∧
    Disposing σ f s (above ++ [.publishCancelled f])

/-- The outcome is published after the connection was cancelled, whatever came of that. -/
theorem Disposing.eq_ok {σ : Store} {f : FiberId} {r : Result}
    (h : Disposing σ f (.handing r) [.publishCancelled f]) : ∃ v, r = .ok v := by
  generalize hs : Stage.handing r = s at h
  generalize habove : [Frame.publishCancelled f] = above at h
  cases h with
  | publishes v => exact ⟨v, Stage.handing.inj hs⟩
  | cancels s above =>
    have hlength := congrArg List.length habove
    simp at hlength
  | hands r h => cases habove
  | _ => cases hs

/-- A turn goes on with the cancellation, or publishes the outcome at its end. -/
theorem Loop.Dismisses.turn {f : FiberId} {l₀ l : Loop} {σ : Store} {s : Stage} {t : Turn}
    {fs : List Frame} (h : Loop.Dismisses f l₀ σ s l) (ht : l.Takes σ s t fs)
    (hf : f < σ.fibers.size) : Loop.Dismisses f l₀ t.store t.stage (t.loop l fs) := by
  obtain hended | ⟨above, hstack, hdisposing⟩ := h
  · exact .inl (hended.grows ht.grows)
  cases ht with
  | looking n hc =>
    refine .inr ⟨(n.step l.id l.link σ).frames ++ above, ?_, ?_⟩
    · simp only [Turn.loop, hstack, List.append_assoc]
    · rw [List.append_assoc]
      exact hdisposing.node l.id l.link
  | handing r frame fs hl =>
    obtain _ | ⟨f', above⟩ := above
    · -- the outcome is published
      obtain ⟨rfl, rfl⟩ := List.cons.inj (hl.symm.trans hstack)
      obtain ⟨v, rfl⟩ := hdisposing.eq_ok
      exact .inl (Store.ended_publish hf .cancelled)
    · obtain ⟨rfl, rfl⟩ := List.cons.inj (hl.symm.trans hstack)
      refine .inr ⟨(frame.resume r l.link σ).frames ++ above, ?_, ?_⟩
      · simp only [Turn.loop, List.append_eq, List.append_assoc]
      · rw [List.append_assoc]
        exact hdisposing.hand hf l.link
  | _ => exact .inr ⟨above, hstack, hdisposing.of_other (by simp) (by simp) _⟩

theorem Token.begin_fiber_frames (f : FiberId) (link : Link) (σ : Store) :
    ((Token.fiber f).begin link σ).frames = [.attempt, .publishCancelled f] := by
  simp only [Token.begin]
  split <;> rfl

namespace Session

variable {f : FiberId} {l₀ : Loop} {S : Session} {cs₀ : List Choice} {place : Nat}

theorem mem_past_call {a : Activity} (h : S.calls[place]? = some a) :
    ⟨some a, S.store, a.step S.store⟩ ∈ (S.step (.call place)).past := by
  rw [past_call h]
  exact .head _

/-- What has become of the effect with which the loop `l₀` cancels the fiber. -/
inductive Publishes (f : FiberId) (l₀ : Loop) (S : Session) : Prop
  /-- The fiber has an outcome. -/
  | published (h : S.store.Ended f)
  /-- The effect goes on, and publishes the outcome at its end. -/
  | goesOn (s : Stage) (l : Loop) (above : List Frame) (h : S.Has s l) (hid : l.id = l₀.id)
    (hstack : l.stack = above ++ .publishCancelled f :: l₀.stack)
  /-- The effect was stopped, because the connection that it runs under was cancelled. -/
  | stopped (m : Moment) (n : Node) (l : Loop) (above : List Frame) (hm : m ∈ S.past)
    (hcall : m.call = some (.work (.looking n) l)) (hc : m.before.isCancelled l.link = true)
    (hid : l.id = l₀.id) (hstack : l.stack = above ++ .publishCancelled f :: l₀.stack)

/-- An effect that cancels a fiber stays above the stack that its loop had until the fiber has an
outcome. -/
theorem dismissing (hcall : (after cs₀).calls[place]? = some (.work (.looking (.token (.fiber f))) l₀))
    (hc : (after cs₀).store.isCancelled l₀.link = false) (hf : f < (after cs₀).store.fibers.size)
    (cs : List Choice) (s : Stage) (l : Loop) (hl : (after (cs ++ .call place :: cs₀)).Has s l)
    (hid : l.id = l₀.id) :
    Loop.Dismisses f l₀ (after (cs ++ .call place :: cs₀)).store s l := by
  have hsize := Nat.lt_of_lt_of_le hf (after_grows cs₀ [.call place]).fibers_size_le
  have hnext := work_of_takes hcall (.looking _ hc)
  refine follow (P := fun S s l => Loop.Dismisses f l₀ S.store s l) (.inl hnext) ?_ ?_ ?_ ?_ cs s l hl hid
  · refine .inr ⟨[.attempt], congrArg (· ++ l₀.stack) (Token.begin_fiber_frames f _ _), ?_⟩
    exact .cancels _ []
  · rintro S call next others s l hgrows (hended | ⟨above, hstack, hdisposing⟩)
    · exact .inl (hended.grows hgrows)
    · exact .inr ⟨above, hstack, hdisposing.grows hgrows⟩
  · intro cs s l t fs others hcall hid h ht
    exact h.turn ht (Nat.lt_of_lt_of_le hsize (after_grows _ cs).fibers_size_le)
  · rintro S b l r hripe (hended | ⟨above, hstack, hdisposing⟩)
    · exact .inl hended
    · exact .inr ⟨above, hstack, hdisposing.of_other (by simp) (by simp) _⟩

/-- **An effect that cancels a fiber goes on until the fiber has an outcome**, unless it is stopped by
a cancellation of the connection that it runs under. -/
theorem publishing (hcall : (after cs₀).calls[place]? = some (.work (.looking (.token (.fiber f))) l₀))
    (hc : (after cs₀).store.isCancelled l₀.link = false) (hf : f < (after cs₀).store.fibers.size)
    (cs : List Choice) : (after (cs ++ .call place :: cs₀)).Publishes f l₀ := by
  induction cs with
  | nil =>
    have hhas : (after (.call place :: cs₀)).Has _ _ := .inl (work_of_takes hcall (.looking _ hc))
    obtain hended | ⟨above, hstack, -⟩ := dismissing hcall hc hf [] _ _ hhas rfl
    · exact .published hended
    · exact .goesOn _ _ above hhas rfl hstack
  | cons x cs ih =>
    cases ih with
    | published h => exact .published (h.grows (after_grows _ [x]))
    | stopped m n l above hm hcall hc hid hstack =>
      exact .stopped m n l above ((past_suffix _ [x]).subset hm) hcall hc hid hstack
    | goesOn s l above h hid hstack =>
      obtain ⟨s', l', h', hid'⟩ | ⟨place', rfl, hcall', hends⟩ := has_next h x
      · obtain hended | ⟨above', hstack', -⟩ :=
          dismissing hcall hc hf (x :: cs) s' l' h' (hid'.trans hid)
        · exact .published hended
        · exact .goesOn s' l' above' h' (hid'.trans hid) hstack'
      · obtain ⟨n, rfl, hc'⟩ | ⟨r, rfl, hnil⟩ := hends
        · exact .stopped _ n l above (mem_past_call hcall') rfl hc' hid hstack
        · rw [hnil] at hstack
          cases above <;> cases hstack

/-! ## Fibers that have come to their ends -/

end Session

/-- The fiber has an outcome, or its connection was cancelled. -/
def Store.Dismissed (f : FiberId) (σ : Store) : Prop :=
  σ.Ended f ∨ σ.isCancelled (σ.fiberLink f) = true

/-- The connection of a fiber stays cancelled. -/
theorem Store.Grows.fiber_cancelled {f : FiberId} {σ σ' : Store} (h : σ.Grows σ')
    (hc : σ.isCancelled (σ.fiberLink f) = true) : σ'.isCancelled (σ'.fiberLink f) = true := by
  cases hlink : σ.fiberLink f with
  | none =>
    rw [hlink] at hc
    cases hc
  | some c =>
    rw [h.fiberLink hlink]
    exact h.cancelled _ (hlink ▸ hc)

theorem Store.Dismissed.next {f : FiberId} {σ : Store} {next : Next} (h : σ.Dismissed f)
    (hgrows : σ.Grows next.1) : next.1.Dismissed f :=
  h.imp (·.grows hgrows) hgrows.fiber_cancelled

/-- The result of a fiber is published, unless it is that the fiber was stopped by a cancellation of
its connection. -/
theorem Store.endFiber_dismissed {f : FiberId} {σ : Store} (hf : f < σ.fibers.size) (r : Result) :
    (σ.endFiber f r).1.Dismissed f := by
  unfold endFiber
  split
  · exact .inl (ended_publish hf _)
  · split
    · rename_i h
      exact .inr (Bool.and_eq_true_iff.1 h).2
    · exact .inl (ended_publish hf _)

namespace Session

/-- A fiber whose result was delivered has an outcome, unless its connection was cancelled. -/
theorem dismissed_of_delivered (f : FiberId) (cs : List Choice) : ∀ m ∈ (after cs).past, ∀ e r,
    m.call = some (.deliver e (.fiber f) r) → (after cs).store.Dismissed f := by
  refine invariant (P := fun S => ∀ m ∈ S.past, ∀ e r,
    m.call = some (.deliver e (.fiber f) r) → S.store.Dismissed f) (by simp) ?_ ?_ cs
  · intro cs i ih m hm e r hcall
    obtain rfl | hm := List.mem_cons.1 hm
    · cases hcall
    · exact (ih m hm e r hcall).next (i.step_grows _)
  · intro cs a xs ys hS ih m hm e r hcall
    obtain rfl | hm := List.mem_cons.1 hm
    · cases hcall
      have hbegan : (after cs).Began e (.fiber f) :=
        (entrusted cs).2 (.deliver e (.fiber f) r) (by simp [hS])
      exact Store.endFiber_dismissed (fiber_lt hbegan) r
    · exact (ih m hm e r hcall).next (a.step_grows _)

/-- A step that publishes an outcome tells everybody who listens. -/
theorem told_of_published {f : FiberId} {cs : List Choice} {m : Moment} (hm : m ∈ (after cs).past)
    {o : Outcome Value} (hnone : m.before.outcome? f = none) (hsome : m.next.1.outcome? f = some o) :
    ∀ l ∈ m.before.listeners f, .notify f l o ∈ m.next.2 := by
  obtain ⟨later, earlier, hpast⟩ := List.append_of_mem hm
  obtain ⟨cs', -, -, ⟨i, -, hnext⟩ | ⟨a, -, -, hnext⟩⟩ := exists_of_past hpast
  · rw [hnext] at hsome ⊢
    exact (i.step_tells _).told f o hnone hsome
  · rw [hnext] at hsome ⊢
    exact (a.step_tells _).told f o hnone hsome

/-- A connection that is cancelled was cancelled by the effect for that. -/
theorem exists_cancels_of_isCancelled {c : ConnectionId} {cs : List Choice}
    (h : (after cs).store.isCancelled (some c) = true) :
    ∃ cs₁ place cs₀ ts s₀ l₀, cs = cs₁ ++ .call place :: cs₀ ∧
      (after cs₀).calls[place]? = some (.work s₀ l₀) ∧ l₀.Cancels (after cs₀).store c ts s₀ := by
  rw [Store.isCancelled_some, connectionAt_after, Connection.Operation.isCancelled_replay,
    Option.isNone_iff_eq_none, Connection.Operation.stack_eq_none_iff] at h
  obtain ⟨place, cs₀, cs₁, s₀, l₀, hcs, hcall, hcancels⟩ := exists_cancels h
  exact ⟨cs₁, place, cs₀, _, s₀, l₀, hcs, hcall, hcancels⟩

/-- **Who waits for a fiber.** All who wait for the outcome of a fiber are told of it in the step that
publishes it. When the loop of the fiber has ended, the fiber has an outcome, or its connection was
cancelled, by the effect that does nothing else or by one that cancels the fiber. An effect that
cancels the fiber goes on until the fiber has an outcome, and only a cancellation of the connection
under which the effect itself runs stops it before. -/
theorem fiber_ends (f : FiberId) (cs : List Choice) :
    (∀ m ∈ (after cs).past, ∀ o, m.before.outcome? f = none → m.next.1.outcome? f = some o →
        ∀ l ∈ m.before.listeners f, .notify f l o ∈ m.next.2) ∧
      (∀ m ∈ (after cs).past, ∀ e r, m.call = some (.deliver e (.fiber f) r) →
        (after cs).store.Ended f ∨ ∃ c, (after cs).store.fiberLink f = some c ∧
          ∃ cs₁ place cs₀ ts s₀ l₀, cs = cs₁ ++ .call place :: cs₀ ∧
            (after cs₀).calls[place]? = some (.work s₀ l₀) ∧
              l₀.Cancels (after cs₀).store c ts s₀) ∧
      ∀ cs₁ place cs₀ l₀, cs = cs₁ ++ .call place :: cs₀ →
        (after cs₀).calls[place]? = some (.work (.looking (.token (.fiber f))) l₀) →
        (after cs₀).store.isCancelled l₀.link = false → f < (after cs₀).store.fibers.size →
          (after cs).Publishes f l₀ := by
  refine ⟨fun m hm o hnone hsome => told_of_published hm hnone hsome, fun m hm e r hcall => ?_, ?_⟩
  · refine (dismissed_of_delivered f cs m hm e r hcall).imp_right fun hc => ?_
    cases hlink : (after cs).store.fiberLink f with
    | none =>
      rw [hlink] at hc
      cases hc
    | some c => exact ⟨c, rfl, exists_cancels_of_isCancelled (hlink ▸ hc)⟩
  · rintro cs₁ place cs₀ l₀ rfl hcall hc hf
    exact publishing hcall hc hf cs₁

end Session

end CancelableEffects
