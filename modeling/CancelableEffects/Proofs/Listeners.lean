import CancelableEffects.Proofs.Joiners
import CancelableEffects.Proofs.Promises

/-!
# Listeners — how the promise of a fiber is used

* `Activity.notice?`: the listener that a call tells the outcome of the fiber.
* `Activity.uses?`: what a call does with the promise of a fiber.
* `Next.Serves`, **`Activity.step_serves`**, **`Input.step_serves`**: every step does that with the promise
  and nothing else, and the calls of listeners that become due are the calls that follow it.
-/

namespace CancelableEffects

/-- What is done with the promise of a fiber. -/
abbrev Use := Promise.Act Listener (Outcome Value)

/-- The promise of the fiber. Nobody has used that of a fiber which is not there yet. -/
def Store.promise (f : FiberId) (σ : Store) : Promise Listener (Outcome Value) :=
  (σ.fibers[f]?.map Fiber.promise).getD .empty

/-- The listener that the call tells the outcome of the fiber, and that outcome. The listener of a step
completes the step. -/
def Activity.notice? (f : FiberId) : Activity → Option (Listener × Outcome Value)
  | .notify f' l o => if f' = f then some (l, o) else none
  | .complete (.step s (.outcome f')) (.ok (.outcome o)) =>
    if f' = f then some (.step s, o) else none
  | _ => none

/-- The listeners that the calls tell the outcome of the fiber. -/
def Activity.notices (f : FiberId) (as : List Activity) : List (Listener × Outcome Value) :=
  as.filterMap (Activity.notice? f)

/-- What the call does with the promise of a fiber. -/
def Activity.uses? (σ : Store) : Activity → Option (FiberId × Use)
  | .work (.looking (.program (.outcome f))) l =>
    if σ.isCancelled l.link then none else some (f, .listen (.step σ.boundaries.size))
  | .work (.looking (.token (.cleanup (.unlisten f n)))) l =>
    if σ.isCancelled l.link then none else some (f, .remove n)
  | .listen f l => some (f, .listen l)
  | .notify f (.duel k x) _ => some (f, .call (.duel k x))
  | .complete (.step s (.outcome f)) (.ok (.outcome _)) => some (f, .call (.step s))
  | a => (a.publishes? σ).map fun x => (x.1, .complete x.2)

/-- What is done with the promise of this fiber, if it is there. -/
def Store.addressed (f : FiberId) (x : Option (FiberId × Use)) (σ : Store) : Option Use :=
  x.bind fun x => if x.1 = f ∧ f < σ.fibers.size then some x.2 else none

/-- The promise after the use. -/
def Promise.used (u : Option Use) (p : Promise Listener (Outcome Value)) :
    Promise Listener (Outcome Value) := u.elim p (·.apply p)

/-- The calls of listeners that become due by the use. -/
def Promise.makes (u : Option Use) (p : Promise Listener (Outcome Value)) :
    List (Listener × Outcome Value) := u.elim [] (·.makes p)

/-- The step uses the promise of the fiber so, and not otherwise; the calls of listeners that become due
follow it. -/
structure Next.Serves (f : FiberId) (σ : Store) (x : Option (FiberId × Use)) (next : Next) : Prop where
  promise : next.1.promise f = (σ.promise f).used (σ.addressed f x)
  notices : Activity.notices f next.2 = (σ.promise f).makes (σ.addressed f x)

/-! ## Notices -/

section Notices

variable {f : FiberId} {σ : Store}

theorem Activity.notices_append (as bs : List Activity) :
    notices f (as ++ bs) = notices f as ++ notices f bs := List.filterMap_append

/-- Calls that follow others which tell nobody. -/
theorem Activity.notices_append_of_nil {as : List Activity} (h : notices f as = []) (bs : List Activity) :
    notices f (as ++ bs) = notices f bs := by
  rw [notices_append, h, List.nil_append]

theorem Store.notices_push (link : Link) (t : Token) (σ : Store) :
    Activity.notices f (σ.push link t).2 = [] := by
  unfold Store.push
  split <;> rfl

theorem Store.notices_completeSteps {source : Source} (h : ∀ f, source ≠ .outcome f) (ss : List StepId) :
    Activity.notices f (Store.completeSteps source ss) = [] := by
  refine List.filterMap_eq_nil_iff.2 (List.forall_mem_map.2 fun s _ => ?_)
  cases source with
  | outcome f' => exact absurd rfl (h f')
  | _ => rfl

theorem Code.move_notices {α : Type} (c : Code Prog α) (σ : Store) :
    Activity.notices f (c.move σ).1.2 = [] := by
  cases c with
  | answer k r next =>
    simp only [Code.move, Store.answer]
    split <;> rfl
  | push link p next => exact Store.notices_push _ _ _
  | _ => rfl

end Notices

/-! ## Uses -/

section Serves

variable {f : FiberId} {σ σ' : Store} {x : Option (FiberId × Use)} {next : Next}

/-- A step that leaves the fibers alone and tells nobody. -/
theorem Next.Serves.of_eq (h : next.1.fibers = σ.fibers) (hnotices : Activity.notices f next.2 = []) :
    next.Serves f σ none where
  promise := by rw [Store.promise, h]; rfl
  notices := hnotices

theorem Next.Serves.of_fibers (h : next.Serves f σ' x) (hσ : σ'.fibers = σ.fibers) : next.Serves f σ x where
  promise := by simpa only [Store.promise, Store.addressed, hσ] using h.promise
  notices := by simpa only [Store.promise, Store.addressed, hσ] using h.notices

theorem Next.Serves.calls {calls calls' : List Activity} (h : Next.Serves f σ x (σ', calls))
    (hnotices : Activity.notices f calls' = Activity.notices f calls) : Next.Serves f σ x (σ', calls') :=
  ⟨h.promise, hnotices.trans h.notices⟩

/-- A change of a promise. -/
theorem Store.promise_modifyPromise (f f' : FiberId)
    (change : Promise Listener (Outcome Value) → Promise Listener (Outcome Value)) (σ : Store) :
    (σ.modifyPromise f' change).promise f =
      if f' = f ∧ f < σ.fibers.size then change (σ.promise f) else σ.promise f := by
  simp only [promise, modifyPromise, Array.getElem?_modify]
  by_cases hf : f' = f
  · subst f'
    cases hx : σ.fibers[f]? with
    | none => simp [Nat.not_lt.2 (Array.getElem?_eq_none_iff.1 hx)]
    | some fiber => simp [(Array.getElem?_eq_some_iff.1 hx).1]
  · simp [hf]

/-- A use of a promise changes the promise of its fiber so. -/
theorem Store.promise_modify_used {f' : FiberId} {u : Use}
    {change : Promise Listener (Outcome Value) → Promise Listener (Outcome Value)}
    (h : ∀ p, change p = u.apply p) :
    (σ.modifyPromise f' change).promise f = (σ.promise f).used (σ.addressed f (some (f', u))) := by
  rw [promise_modifyPromise]
  simp only [addressed, Option.bind_some]
  split
  · exact h _
  · rfl

/-- The calls of listeners that become due by a use of the promise of another fiber, or of this one. -/
theorem Store.makes_addressed {f' : FiberId} {u : Use} {ns : List (Listener × Outcome Value)}
    (h : f' = f → f < σ.fibers.size → ns = u.makes (σ.promise f))
    (hother : f' ≠ f ∨ σ.fibers.size ≤ f → ns = []) :
    ns = (σ.promise f).makes (σ.addressed f (some (f', u))) := by
  simp only [addressed, Option.bind_some]
  split
  · rename_i hf
    exact h hf.1 hf.2
  · rename_i hf
    refine hother ?_
    by_cases hf' : f' = f
    · exact .inr (Nat.not_lt.1 fun hlt => hf ⟨hf', hlt⟩)
    · exact .inl hf'

theorem Store.promise_of_getElem? {fiber : Fiber} (h : σ.fibers[f]? = some fiber) :
    σ.promise f = fiber.promise := by rw [promise, h]; rfl

theorem Store.promise_of_le (h : σ.fibers.size ≤ f) : σ.promise f = .empty := by
  rw [promise, Array.getElem?_eq_none h]
  rfl

/-- What a listener is told at once when it is registered. -/
theorem Store.notices_listen (f' : FiberId) (l : Listener) (ns : Nat ⊕ Outcome Value → List Activity)
    (hns : ∀ y, Activity.notices f (ns y) = y.elim (fun _ => []) fun o => if f' = f then [(l, o)] else []) :
    Activity.notices f (((σ.listen f' l).2.map ns).getD []) =
      (σ.promise f).makes (σ.addressed f (some (f', .listen l))) := by
  refine makes_addressed ?_ ?_
  · rintro rfl hlt
    have hfiber : σ.fibers[f']? = some σ.fibers[f'] := Array.getElem?_eq_getElem hlt
    rw [promise_of_getElem? hfiber, listen, hfiber, Option.map_some, Option.map_some, Option.getD_some, hns]
    cases σ.fibers[f'].promise <;> simp [Promise.listen, Promise.Act.makes]
  · intro hother
    cases hfiber : σ.fibers[f']? with
    | none => simp only [listen, hfiber]; rfl
    | some fiber =>
      have hne : f' ≠ f := by
        rintro rfl
        have hlt := (Array.getElem?_eq_some_iff.1 hfiber).1
        exact hother.elim (absurd rfl) fun hle => absurd hlt (Nat.not_lt.2 hle)
      simp only [listen, hfiber, Option.map_some, Option.getD_some, hns]
      cases (fiber.promise.listen l).2 <;> simp [hne]

theorem Store.unlisten_serves (f' : FiberId) (n : Nat) :
    Next.Serves f σ (some (f', .remove n)) (σ.unlisten f' n, []) where
  promise := promise_modify_used fun _ => rfl
  notices := makes_addressed (fun _ _ => rfl) fun _ => rfl

/-- Who publishes an outcome tells everybody who listens. -/
theorem Store.publish_serves (f' : FiberId) (o : Outcome Value) (σ : Store) :
    Next.Serves f σ (some (f', .complete o)) (σ.publish f' o) where
  promise := promise_modify_used fun _ => rfl
  notices := by
    refine makes_addressed ?_ ?_
    · rintro rfl hlt
      have hfiber : σ.fibers[f']? = some σ.fibers[f'] := Array.getElem?_eq_getElem hlt
      rw [promise_of_getElem? hfiber, publish, hfiber]
      simp [Activity.notices, Promise.Act.makes, List.filterMap_map, Function.comp_def,
        Activity.notice?]
    · intro hother
      cases hfiber : σ.fibers[f']? with
      | none => simp only [publish, hfiber]; rfl
      | some fiber =>
        have hne : f' ≠ f := by
          rintro rfl
          have hlt := (Array.getElem?_eq_some_iff.1 hfiber).1
          exact hother.elim (absurd rfl) fun hle => absurd hlt (Nat.not_lt.2 hle)
        exact List.filterMap_eq_nil_iff.2 (List.forall_mem_map.2 fun _ _ => if_neg hne)

/-- A new fiber has a promise that nobody has used. -/
theorem Store.startFiber_serves (p : Prog) (on : Executor) (σ : Store) :
    Next.Serves f σ none (σ.startFiber p on).1 where
  promise := by
    have hfibers : (σ.startFiber p on).1.1.fibers =
      σ.fibers.push { connection := σ.connections.size } := rfl
    change _ = σ.promise f
    simp only [promise, hfibers, Array.getElem?_push]
    split
    · rename_i h
      rw [h, Array.getElem?_eq_none (Nat.le_refl _)]
      rfl
    · rfl
  notices := rfl

/-! ## Loops -/

theorem Store.notices_openStep (source : Source) (link : Link) (σ : Store) :
    Activity.notices f (σ.openStep source link).2 = [] := notices_push _ _ _

/-- A loop that comes to a step tells nobody, unless the calls it makes do. -/
theorem Store.notices_wait {source : Source} {link : Link} (register : StepId → Store → Next × Cleanup)
    {ns : List (Listener × Outcome Value)}
    (h : Activity.notices f (register σ.boundaries.size (σ.openStep source link).1).1.2 = ns) :
    Activity.notices f (σ.wait source link register).calls = ns := by
  simp only [wait, Activity.notices_append, notices_openStep, List.nil_append, h]
  exact List.append_nil _

theorem Store.wait_serves {source : Source} {link : Link} {register : StepId → Store → Next × Cleanup}
    (hfibers : (register σ.boundaries.size (σ.openStep source link).1).1.1.fibers = σ.fibers)
    (hnotices : Activity.notices f (register σ.boundaries.size (σ.openStep source link).1).1.2 = []) :
    Next.Serves f σ none ((σ.wait source link register).store, (σ.wait source link register).calls) :=
  .of_eq hfibers (notices_wait _ hnotices)

/-- Who waits for an outcome listens to the fiber. -/
theorem Store.awaitOutcome_serves (f' : FiberId) (link : Link) (σ : Store) :
    Next.Serves f σ (some (f', .listen (.step σ.boundaries.size)))
      ((σ.awaitOutcome f' link).store, (σ.awaitOutcome f' link).calls) := by
  let answer := (σ.openStep (.outcome f') link).1.listen f' (.step σ.boundaries.size)
  let told (y : Nat ⊕ Outcome Value) : List Activity :=
    y.elim (fun _ => []) fun o => [.complete (.step σ.boundaries.size (.outcome f')) (.ok (.outcome o))]
  have hopen : Next.Serves f (σ.openStep (.outcome f') link).1
      (some (f', .listen (.step σ.boundaries.size))) (answer.1, (answer.2.map told).getD []) := by
    refine ⟨promise_modify_used fun _ => rfl, notices_listen _ _ _ ?_⟩
    rintro (n | o)
    · rfl
    · by_cases hf : f' = f <;> simp [told, Activity.notices, Activity.notice?, hf]
  have hserves : Next.Serves f σ _ _ := hopen.of_fibers rfl
  have hstore : (σ.awaitOutcome f' link).store = answer.1 := by
    simp only [awaitOutcome, wait]
    split <;> rfl
  have hcalls : Activity.notices f (σ.awaitOutcome f' link).calls =
      Activity.notices f ((answer.2.map told).getD []) := by
    refine notices_wait _ ?_
    dsimp only
    split <;> rename_i hanswer <;> rw [show answer.2 = _ from hanswer] <;> rfl
  exact ⟨(congrArg (Store.promise f) hstore).trans hserves.promise, hcalls.trans hserves.notices⟩

theorem Prog.step_serves {p : Prog} {l : Loop} (hc : σ.isCancelled l.link = false) :
    Next.Serves f σ ((Activity.work (.looking (.program p)) l).uses? σ)
      ((p.step l.id l.link σ).store, (p.step l.id l.link σ).calls) := by
  have hpushed : ∀ (link : Link) (t : Token) (σ : Store) (as : List Activity),
      Activity.notices f as = [] → Activity.notices f ((σ.push link t).2 ++ as) = [] :=
    fun link t σ as h => (Activity.notices_append_of_nil (Store.notices_push link t σ) as).trans h
  cases p with
  | outcome f' =>
    have huses : (Activity.work (.looking (.program (.outcome f'))) l).uses? σ =
      some (f', .listen (.step σ.boundaries.size)) := by simp only [Activity.uses?, hc]; rfl
    rw [huses]
    exact σ.awaitOutcome_serves f' l.link
  | racePair p q on =>
    have h : Next.Serves f σ none ((σ.newBoundary (.duel none)).1.startFiber p on).1 :=
      (Store.startFiber_serves p on _).of_fibers rfl
    exact h.calls rfl
  | start p on => exact σ.startFiber_serves p on
  | spawn s p => exact σ.startFiber_serves p _
  | cancelable register => exact .of_eq rfl (hpushed _ _ _ _ rfl)
  | bracket acquire use release => exact .of_eq rfl (hpushed _ _ _ _ rfl)
  | race p q on => exact .of_eq rfl (hpushed _ _ _ _ rfl)
  | both p q on g => exact .of_eq rfl (hpushed _ _ _ _ rfl)
  | joinEach fs => cases fs <;> exact .of_eq rfl rfl
  | permits i n =>
    refine Store.wait_serves rfl ?_
    dsimp only
    split
    · exact Store.notices_completeSteps (by simp) _
    · rfl
  | instant a =>
    cases a with
    | release i n => exact .of_eq rfl (Store.notices_completeSteps (by simp) _)
    | _ => exact .of_eq rfl rfl
  | shift on => exact Store.wait_serves rfl rfl
  | sleep d => exact Store.wait_serves rfl rfl
  | remote c => exact Store.wait_serves rfl rfl
  | awaited p =>
    have h : Next.Serves f (σ.newFuture p).1 none
        (((σ.newFuture p).1.awaitJob (fun s _ => .poll (σ.newFuture p).2 s) true l.link).store,
          ((σ.newFuture p).1.awaitJob (fun s _ => .poll (σ.newFuture p).2 s) true l.link).calls) :=
      Store.wait_serves rfl rfl
    exact h.of_fibers rfl
  | pop c =>
    have h : (σ.popToken c).1.fibers = σ.fibers := rfl
    refine .of_eq ?_ ?_ <;> simp only [Prog.step] <;> split <;> simp_all
    all_goals rfl
  | stored i =>
    refine .of_eq ?_ ?_ <;> simp only [Prog.step] <;> split <;> rfl
  | _ => exact .of_eq rfl rfl

theorem Token.begin_serves {t : Token} {l : Loop} (hc : σ.isCancelled l.link = false) :
    Next.Serves f σ ((Activity.work (.looking (.token t)) l).uses? σ)
      ((t.begin l.link σ).store, (t.begin l.link σ).calls) := by
  cases t with
  | cleanup c =>
    cases c with
    | program i =>
      refine .of_eq ?_ ?_ <;> simp only [Token.begin, Cleanup.begin] <;> split <;> rfl
    | unlisten f' n =>
      have huses : (Activity.work (.looking (.token (.cleanup (.unlisten f' n)))) l).uses? σ =
        some (f', .remove n) := by simp only [Activity.uses?, hc]; rfl
      rw [huses]
      exact Store.unlisten_serves f' n
    | _ => exact .of_eq rfl rfl
  | connection c =>
    have h : (σ.cancel c).1.fibers = σ.fibers := rfl
    refine .of_eq ?_ ?_ <;> simp only [Token.begin] <;> split <;> simp_all
    all_goals rfl
  | fiber f' => refine .of_eq ?_ ?_ <;> simp only [Token.begin] <;> split <;> rfl
  | _ => exact .of_eq rfl rfl

theorem Node.step_serves {n : Node} {l : Loop} (hc : σ.isCancelled l.link = false) :
    Next.Serves f σ ((Activity.work (.looking n) l).uses? σ)
      ((n.step l.id l.link σ).store, (n.step l.id l.link σ).calls) := by
  cases n with
  | program p => exact Prog.step_serves hc
  | token t => exact Token.begin_serves hc
  | sweep of ts =>
    refine .of_eq (congrArg Store.fibers (Store.sweep_store ..)) ?_
    cases ts <;> rfl
  | release g v x => refine .of_eq ?_ ?_ <;> simp only [Node.step] <;> split <;> rfl
  | gate g =>
    refine Store.wait_serves rfl ?_
    dsimp only
    split
    · rfl
    · exact Store.notices_completeSteps (by simp) _
  | result r => exact .of_eq rfl rfl

theorem Frame.resume_serves (fr : Frame) (r : Result) (link : Link) (σ : Store) :
    Next.Serves f σ ((fr.publishes? r).map fun x => (x.1, .complete x.2))
      ((fr.resume r link σ).store, (fr.resume r link σ).calls) := by
  cases fr with
  | publishCancelled f' =>
    cases r with
    | ok v => exact σ.publish_serves f' .cancelled
    | error e => exact .of_eq rfl rfl
  | sweep of t ts first => cases ts <;> exact .of_eq rfl rfl
  | openGate g =>
    cases r with
    | ok v => exact .of_eq rfl (Store.notices_completeSteps (by simp) _)
    | error e => exact .of_eq rfl rfl
  | _ =>
    refine .of_eq ?_ ?_ <;> unfold Frame.resume <;> dsimp only <;> repeat' split
    all_goals rfl

theorem Loop.step_serves (s : Stage) (l : Loop) (σ : Store) :
    Next.Serves f σ ((Activity.work s l).uses? σ) (l.step s σ) := by
  have hwork : ∀ {x} {t : Turn} {s l}, Next.Serves f σ x (t.store, t.calls) →
      Next.Serves f σ x (t.store, t.calls ++ [.work s l]) := fun h =>
    h.calls ((Activity.notices_append _ _).trans (List.append_nil _))
  cases s with
  | looking n =>
    cases hc : σ.isCancelled l.link with
    | true =>
      have huses : (Activity.work (.looking n) l).uses? σ = none := by
        cases n with
        | program p => cases p <;> simp [Activity.uses?, hc, Activity.publishes?, Loop.publishes?]
        | token t =>
          cases t with
          | cleanup c => cases c <;> simp [Activity.uses?, hc, Activity.publishes?, Loop.publishes?]
          | _ => rfl
        | _ => rfl
      rw [huses, l.step_of_cancelled hc]
      exact .of_eq rfl rfl
    | false =>
      rw [l.step_of_not_cancelled hc]
      exact hwork (Node.step_serves hc)
  | handing r =>
    obtain ⟨e, link, _ | ⟨fr, fs⟩, k⟩ := l
    · exact .of_eq rfl rfl
    · exact hwork (fr.resume_serves r link σ)
  | delaying c => exact hwork (.of_eq (c.move_fibers σ) (c.move_notices σ))
  | suspending c => exact hwork (.of_eq (c.move_fibers σ) (c.move_notices σ))
  | mapping c => exact hwork (.of_eq (c.move_fibers σ) (c.move_notices σ))
  | leaving b => refine .of_eq ?_ ?_ <;> simp only [Loop.step, Store.leave] <;> split <;> rfl

/-! ## Calls and inputs -/

theorem Store.endFiber_serves (f' : FiberId) (r : Result) (σ : Store) :
    Next.Serves f σ (((Sink.fiber f').publishes? r σ).map fun x => (x.1, .complete x.2))
      (σ.endFiber f' r) := by
  cases r with
  | ok v => exact (Store.publish_serves f' _ _).of_fibers rfl
  | error e =>
    simp only [Store.endFiber, Sink.publishes?]
    split
    · exact .of_eq rfl rfl
    · exact (Store.publish_serves f' _ _).of_fibers rfl

theorem Sink.receive_serves (k : Sink) (r : Result) (σ : Store) :
    Next.Serves f σ ((k.publishes? r σ).map fun x => (x.1, .complete x.2)) (k.receive r σ) := by
  cases k with
  | fiber f' => exact σ.endFiber_serves f' r
  | acquired g =>
    have hgate : ∀ (σ : Store) (as : List Activity), Activity.notices f as = [] →
        Activity.notices f ((σ.openGate g).2 ++ as) = [] := fun σ as h =>
      (Activity.notices_append_of_nil (Store.notices_completeSteps (by simp) _) as).trans h
    refine .of_eq ?_ ?_ <;> simp only [Sink.receive, Store.endAcquire] <;> repeat' split
    all_goals first
      | rfl
      | exact hgate _ _ rfl
  | _ =>
    refine .of_eq ?_ ?_ <;> simp only [Sink.receive, Store.report, Store.endSide] <;> repeat' split
    all_goals rfl

theorem Store.startFuture_notices (j : FutureId) (waker : Option JobId) (σ : Store) :
    Activity.notices f (σ.startFuture j waker).2 = [] := by
  unfold Store.startFuture
  split <;> rfl

theorem Store.dropFuture_notices (j : FutureId) (σ : Store) :
    Activity.notices f (σ.dropFuture j).2 = [] := by
  unfold Store.dropFuture
  repeat' split
  all_goals rfl

theorem Task.step_notices (t : Task) (σ : Store) : Activity.notices f (t.step σ).2 = [] := by
  cases t with
  | job j =>
    simp only [Task.step]
    split
    · rename_i x _
      cases x with
      | timer due s => exact Store.notices_completeSteps (by simp) _
      | poll f s => exact (Activity.notices_append_of_nil (Store.startFuture_notices _ _ _) _).trans rfl
      | drop f => exact Store.dropFuture_notices _ _
      | _ => rfl
    · rfl
  | resume s => exact Store.notices_completeSteps (by simp) _
  | _ => rfl

theorem Code.advance_serves {α : Type} {again : Code Prog α → Activity}
    {done : Except String α → Store → Next} (ha : ∀ c, Activity.notices f [again c] = [])
    (hfibers : ∀ o σ, (done o σ).1.fibers = σ.fibers)
    (hnotices : ∀ o σ, Activity.notices f (done o σ).2 = []) (c : Code Prog α) (σ : Store) :
    Next.Serves f σ none (c.advance again done σ) := by
  refine .of_eq (Code.advance_fibers hfibers c σ) ?_
  have hm : Activity.notices f (c.move σ).1.2 = [] := c.move_notices σ
  unfold Code.advance
  generalize c.move σ = m at hm
  obtain ⟨⟨σ', calls⟩, o | c'⟩ := m
  · exact hnotices o σ'
  · exact (Activity.notices_append_of_nil hm _).trans (ha c')

/-- Who is told the outcome of a fiber may tell others, but not of that. -/
theorem Store.endDuel_quiet (k : DuelId) (side : Side) (o : Outcome Value) (σ : Store) :
    (σ.endDuel k side o).1.fibers = σ.fibers ∧ Activity.notices f (σ.endDuel k side o).2 = [] := by
  constructor <;> simp only [Store.endDuel] <;> repeat' split
  all_goals rfl

theorem Completer.complete_quiet (c : Completer) (r : Result) (σ : Store) :
    (c.complete r σ).1.fibers = σ.fibers ∧ Activity.notices f (c.complete r σ).2 = [] := by
  cases c <;> constructor <;> simp only [Completer.complete, Store.completeBoundary,
    Store.completeCallback, Store.completeStep] <;> repeat' split
  all_goals rfl

/-- When a listener is called, the promise is left as it is, and nobody else is told. -/
theorem Next.Serves.of_call {f' : FiberId} {l : Listener} (h : next.1.fibers = σ.fibers)
    (hnotices : Activity.notices f next.2 = []) : next.Serves f σ (some (f', .call l)) where
  promise := by
    rw [Store.promise, h]
    unfold Store.addressed
    simp only [Option.bind_some]
    split <;> rfl
  notices := by
    rw [hnotices]
    unfold Store.addressed
    simp only [Option.bind_some]
    split <;> rfl

/-- **A call does with the promise of a fiber what it has to, and nothing else**, and the calls of listeners
that become due follow it. -/
theorem Activity.step_serves {a : Activity} (h : ∀ f s o, a ≠ .notify f (.step s) o) (σ : Store) :
    Next.Serves f σ (a.uses? σ) (a.step σ) := by
  cases a with
  | work s l => exact l.step_serves s σ
  | registering c b =>
    exact Code.advance_serves (fun _ => rfl) (fun o _ => by cases o <;> rfl) (fun o _ => by cases o <;> rfl) c σ
  | registeringStep c s =>
    exact Code.advance_serves (fun _ => rfl) (fun o _ => by cases o <;> rfl) (fun o _ => by cases o <;> rfl) c σ
  | calling c s =>
    exact Code.advance_serves (fun _ => rfl) (fun o _ => by cases o <;> rfl) (fun o _ => by cases o <;> rfl) c σ
  | fillSlot s c => refine .of_eq ?_ ?_ <;> simp only [Activity.step, Store.fillSlot] <;> split <;> rfl
  | deliver e k r => exact k.receive_serves r σ
  | complete c r =>
    obtain ⟨hfibers, hnotices⟩ := c.complete_quiet (f := f) r σ
    unfold Activity.uses?
    split
    all_goals first
      | exact .of_call hfibers hnotices
      | exact .of_eq hfibers hnotices
      | simp_all
  | notify f' l o =>
    cases l with
    | step s => exact absurd rfl (h f' s o)
    | duel k x => exact .of_call (σ.endDuel_quiet (f := f) k x o).1 (σ.endDuel_quiet k x o).2
  | listen f' l =>
    refine ⟨Store.promise_modify_used fun _ => rfl, ?_⟩
    have hlisten := Store.notices_listen (f := f) (σ := σ) f' l
      (fun y => y.elim (fun _ => []) fun o => [.notify f' l o]) ?_
    · refine .trans ?_ hlisten
      simp only [Activity.step]
      cases (σ.listen f' l).2 with
      | none => rfl
      | some y => cases y <;> rfl
    · rintro (n | o)
      · rfl
      · by_cases hf : f' = f <;> simp [Activity.notices, Activity.notice?, hf]
  | execute on t =>
    cases on with
    | immediate => exact .of_eq (t.step_fibers σ) (t.step_notices σ)
    | _ => exact .of_eq rfl rfl
  | startRight left q on parent k => exact (σ.startFiber_serves q on).calls rfl
  | tie left right parent k =>
    exact .of_eq rfl ((Activity.notices_append_of_nil (Store.notices_push _ _ _) _).trans rfl)
  | polling j =>
    refine .of_eq ?_ ?_ <;> simp only [Activity.step, Store.poll] <;> repeat' split
    all_goals rfl
  | _ => exact .of_eq rfl rfl

/-- **An input leaves the promises alone.** -/
theorem Input.step_serves (i : Input) (σ : Store) : Next.Serves f σ none (i.step σ) := by
  cases i with
  | move c => exact .of_eq (c.move_fibers σ) (c.move_notices σ)
  | run p label cancelable => cases cancelable <;> exact .of_eq rfl rfl
  | pushPair link left right => exact .of_eq rfl (Store.notices_push _ _ _)
  | tick queue place => refine .of_eq ?_ ?_ <;> simp only [Input.step] <;> split <;> rfl
  | ready place => refine .of_eq ?_ ?_ <;> simp only [Input.step] <;> split <;> rfl
  | startFuture j => exact .of_eq (σ.startFuture_fibers j none) (σ.startFuture_notices j none)
  | dropFuture j => exact .of_eq (σ.dropFuture_fibers j) (σ.dropFuture_notices j)
  | _ => exact .of_eq rfl rfl

end Serves

end CancelableEffects
