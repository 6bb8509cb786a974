import CancelableEffects.Proofs.Endings
import CancelableEffects.Proofs.Permits

/-!
# Arrivals — permits are granted in the order in which they were asked for

* `Semaphore.queued`, `Semaphore.granted`, `Semaphore.admitted`: the tickets that had to wait, those of
  them whose wait is over, and those that did not have to wait.
* **`Semaphore.queued_eq`**: the first of those who waited are granted, and the others still wait.
* `Activity.wakes?`, `Session.waking`, `Session.woken`: the steps that are completed with permits, by
  pending calls and so far.
* **`Activity.step_wakes`**: a step completes those whom its request served.
* `Session.Continues`: the wait of a step is over, and its loop has gone on or is about to.
* **`Session.granted_in_order`**: permits are granted in the order in which they were asked for, and who is
  overtaken on the way back has its permits.
-/

namespace CancelableEffects

namespace Semaphore

variable {T : Type}

/-- The tickets that the request serves: its own if it need not wait, or those whose wait is over. -/
def served (s : Semaphore T) : Request T → List T
  | .acquire n ticket => if s.admits n then [ticket] else []
  | .tryAcquire _ => []
  | .release n => (s.release n).2

/-- The tickets that had to wait, in the order in which they came, when the semaphore held `n` permits
at first. -/
def queued (n : Nat) : List (Request T) → List T
  | [] => []
  | .acquire k ticket :: rs => queued n rs ++ if (serve n rs).admits k then [] else [ticket]
  | _ :: rs => queued n rs

/-- The tickets whose wait is over, in the order in which they were served. -/
def granted (n : Nat) : List (Request T) → List T
  | [] => []
  | .release k :: rs => granted n rs ++ ((serve n rs).release k).2
  | _ :: rs => granted n rs

/-- The tickets that did not have to wait. -/
def admitted (n : Nat) : List (Request T) → List T
  | [] => []
  | .acquire k ticket :: rs => (if (serve n rs).admits k then [ticket] else []) ++ admitted n rs
  | _ :: rs => admitted n rs

/-- The tickets that were served, waiting or not. -/
def answered (n : Nat) : List (Request T) → List T
  | [] => []
  | r :: rs => (serve n rs).served r ++ answered n rs

/-- Those whom a release serves are the first in the queue, and the others stay there. -/
theorem feed_tickets (n : Nat) (ws : List (Waiter T)) :
    (feed n ws).2.2 ++ (feed n ws).2.1.map Waiter.ticket = ws.map Waiter.ticket := by
  induction ws generalizing n with
  | nil => rfl
  | cons w ws ih =>
    unfold feed
    split
    · rfl
    · split
      · rfl
      · exact congrArg (w.ticket :: ·) (ih _)

variable (n : Nat) (rs : List (Request T))

/-- **First come, first served**: of those who had to wait, the first ones were served, in the order in
which they came, and the others are still in the queue, in that order. -/
theorem queued_eq : queued n rs = granted n rs ++ (serve n rs).waiting.map Waiter.ticket := by
  induction rs with
  | nil => rfl
  | cons r rs ih =>
    cases r with
    | acquire k ticket =>
      simp only [queued, granted, serve, grant, Semaphore.acquire, ih]
      split
      · exact List.append_nil _
      · rw [List.map_append, List.append_assoc]
        rfl
    | tryAcquire k =>
      simp only [queued, granted, serve, grant, Semaphore.tryAcquire, ih]
      split <;> rfl
    | release k =>
      simp only [queued, granted, serve, grant, Semaphore.release, ih, List.append_assoc]
      rw [feed_tickets]

/-- Who asks for permits has to wait or does not. -/
theorem tickets_perm : (tickets rs).Perm (queued n rs ++ admitted n rs) := by
  induction rs with
  | nil => exact .refl _
  | cons r rs ih =>
    cases r with
    | acquire k ticket =>
      simp only [tickets, queued, admitted]
      split
      · rw [List.append_nil, List.singleton_append]
        exact (ih.cons ticket).trans List.perm_middle.symm
      · rw [List.nil_append, List.append_assoc, List.singleton_append]
        exact (ih.cons ticket).trans List.perm_middle.symm
    | tryAcquire k => exact ih
    | release k => exact ih

theorem answered_perm : (answered n rs).Perm (granted n rs ++ admitted n rs) := by
  induction rs with
  | nil => exact .refl _
  | cons r rs ih =>
    cases r with
    | acquire k ticket =>
      simp only [answered, served, granted, admitted]
      split
      · exact (ih.cons ticket).trans List.perm_middle.symm
      · exact ih
    | tryAcquire k => exact ih
    | release k =>
      simp only [answered, served, granted, admitted]
      refine (ih.append_left _).trans ?_
      rw [← List.append_assoc]
      exact List.perm_append_comm.append_right _

theorem granted_sublist : (granted n rs).Sublist (queued n rs) := by
  rw [queued_eq]
  exact List.sublist_append_left _ _

/-- Who was served asked for permits. -/
theorem answered_subset : answered n rs ⊆ tickets rs := fun _ ht =>
  (tickets_perm n rs).mem_iff.2 <| (List.mem_append.1 ((answered_perm n rs).mem_iff.1 ht)).elim
    (fun h => List.mem_append_left _ ((granted_sublist n rs).subset h)) (List.mem_append_right _)

variable {n rs}

end Semaphore

/-! ## Completions with permits -/

/-- The step that the call completes with permits of the semaphore. -/
def Activity.wakes? (i : SemaphoreId) : Activity → Option StepId
  | .complete (.step t source) _ => if source = .permits i then some t else none
  | _ => none

/-- The steps that are completed with permits of the semaphore after a request. -/
def Store.wakes (i : SemaphoreId) (σ : Store) :
    Option (SemaphoreId × Semaphore.Request StepId) → List StepId
  | none => []
  | some (j, r) => if j = i then ((σ.semaphores[i]?).map (·.served r)).getD [] else []

section Steps

variable {i : SemaphoreId} {σ : Store}

theorem Activity.of_wakes? {a : Activity} {t : StepId} (h : a.wakes? i = some t) :
    ∃ r, a = .complete (.step t (.permits i)) r := by
  unfold wakes? at h
  split at h
  · split at h
    · subst_vars
      cases h
      exact ⟨_, rfl⟩
    · cases h
  · cases h

theorem Activity.wakes_eq_nil {as : List Activity} (h : ∀ a ∈ as, a.wakes? i = none) :
    as.filterMap (·.wakes? i) = [] := List.filterMap_eq_nil_iff.2 h

theorem Store.wakes_push (link : Link) (t : Token) (σ : Store) :
    (σ.push link t).2.filterMap (·.wakes? i) = [] := by
  unfold Store.push
  split <;> rfl

theorem Store.wakes_completeSteps (source : Source) (ss : List StepId) :
    (Store.completeSteps source ss).filterMap (·.wakes? i) = if source = .permits i then ss else [] := by
  have hone : ∀ s, (Activity.complete (.step s source) (.ok .unit)).wakes? i =
      if source = .permits i then some s else none := fun _ => rfl
  rw [Store.completeSteps, List.filterMap_map]
  split
  · rename_i hsource
    simp only [Function.comp_def, hone, if_pos hsource, List.filterMap_some]
  · rename_i hsource
    exact List.filterMap_eq_nil_iff.2 fun s _ => (hone s).trans (if_neg hsource)

theorem Store.wakes_publish (f : FiberId) (o : Outcome Value) (σ : Store) :
    (σ.publish f o).2.filterMap (·.wakes? i) = [] :=
  Activity.wakes_eq_nil (List.forall_mem_map.2 fun _ _ => rfl)

theorem Code.move_wakes {α : Type} (c : Code Prog α) (σ : Store) :
    (c.move σ).1.2.filterMap (·.wakes? i) = [] := by
  cases c with
  | answer k r next =>
    simp only [Code.move, Store.answer]
    split <;> rfl
  | push link p next => exact Store.wakes_push _ _ _
  | _ => rfl

theorem Code.advance_wakes {α : Type} {again : Code Prog α → Activity}
    {done : Except String α → Store → Next} (ha : ∀ c, (again c).wakes? i = none)
    (hd : ∀ o σ, (done o σ).2.filterMap (·.wakes? i) = []) (c : Code Prog α) (σ : Store) :
    (c.advance again done σ).2.filterMap (·.wakes? i) = [] := by
  have hm := c.move_wakes (i := i) σ
  unfold Code.advance
  generalize c.move σ = m at hm
  obtain ⟨⟨σ', calls⟩, o | c'⟩ := m
  · exact hd o σ'
  · rw [List.filterMap_append, hm]
    simp [ha c']

theorem Store.wait_wakes {source : Source} {link : Link} (register : StepId → Store → Next × Cleanup) :
    (σ.wait source link register).calls.filterMap (·.wakes? i) =
      (register σ.boundaries.size (σ.openStep source link).1).1.2.filterMap (·.wakes? i) := by
  simp only [Store.wait, List.filterMap_append]
  rw [show (σ.openStep source link).2.filterMap (·.wakes? i) = [] from Store.wakes_push _ _ _]
  simp [Activity.wakes?]

theorem Prog.step_wakes (p : Prog) (e : ExecutionId) (link : Link) (σ : Store) :
    (p.step e link σ).calls.filterMap (·.wakes? i) = σ.wakes i (p.request σ.boundaries.size) := by
  cases p with
  | cancelable register =>
    simp only [Prog.step, List.filterMap_append]
    rw [show (σ.openStep .user link).2.filterMap (·.wakes? i) = [] from Store.wakes_push _ _ _]
    rfl
  | bracket acquire use release =>
    simp only [Prog.step, List.filterMap_append]
    rw [Store.wakes_push]
    rfl
  | race p q on =>
    simp only [Prog.step, Store.fork, List.filterMap_append]
    rw [Store.wakes_push]
    rfl
  | both p q on f =>
    simp only [Prog.step, Store.fork, List.filterMap_append]
    rw [Store.wakes_push]
    rfl
  | joinEach fs => cases fs <;> rfl
  | outcome f =>
    refine (Store.wait_wakes _).trans ?_
    dsimp only
    split <;> rfl
  | permits j n =>
    refine (Store.wait_wakes _).trans ?_
    have hsemaphores : (σ.openStep (.permits j) link).1.semaphores = σ.semaphores := rfl
    have hacquire : ∀ x : Semaphore StepId, (x.acquire n σ.boundaries.size).2 = x.admits n := fun x => by
      unfold Semaphore.acquire
      split <;> simp [*]
    simp only [Store.wakes, Prog.request, hsemaphores, hacquire]
    by_cases hj : j = i
    · subst hj
      rw [if_pos rfl]
      cases σ.semaphores[j]? with
      | none => rfl
      | some x =>
        simp only [Option.map_some, Option.getD_some, Semaphore.served]
        split
        · rw [Store.wakes_completeSteps, if_pos rfl]
        · rfl
    · rw [if_neg hj]
      split
      · rw [Store.wakes_completeSteps, if_neg (by simpa using hj)]
      · rfl
  | instant a =>
    cases a with
    | release j n =>
      refine (Store.wakes_completeSteps _ _).trans ?_
      simp only [Store.wakes, Prog.request, Source.permits.injEq]
      by_cases hj : j = i
      · subst hj
        cases σ.semaphores[j]? <;> rfl
      · rw [if_neg hj, if_neg hj]
    | tryAcquire j n =>
      simp only [Store.wakes, Prog.request]
      split
      · cases σ.semaphores[i]? <;> rfl
      · rfl
    | _ => rfl
  | shift on => exact Store.wait_wakes _
  | sleep d => exact Store.wait_wakes _
  | remote c => exact Store.wait_wakes _
  | awaited p => exact Store.wait_wakes _
  | pop c =>
    simp only [Prog.step]
    split <;> rfl
  | stored k =>
    simp only [Prog.step]
    split <;> rfl
  | _ => rfl

theorem Token.begin_wakes (t : Token) (link : Link) (σ : Store) :
    (t.begin link σ).calls.filterMap (·.wakes? i) = [] := by
  cases t with
  | cleanup c =>
    cases c with
    | program k =>
      simp only [Token.begin, Cleanup.begin]
      split <;> rfl
    | _ => rfl
  | connection c =>
    simp only [Token.begin]
    split <;> rfl
  | fiber f =>
    simp only [Token.begin]
    split <;> rfl
  | _ => rfl

theorem Frame.resume_wakes (f : Frame) (r : Result) (link : Link) (σ : Store) :
    (f.resume r link σ).calls.filterMap (·.wakes? i) = [] := by
  cases f with
  | sweep of t ts first => cases ts <;> rfl
  | openGate g =>
    cases r with
    | ok v => exact (Store.wakes_completeSteps _ _).trans (if_neg (by simp))
    | error e => rfl
  | publishCancelled f =>
    cases r with
    | ok v => exact Store.wakes_publish _ _ _
    | error e => rfl
  | _ =>
    unfold Frame.resume
    dsimp only
    repeat' split
    all_goals rfl

theorem Loop.step_wakes (s : Stage) (l : Loop) (σ : Store) :
    (l.step s σ).2.filterMap (·.wakes? i) = σ.wakes i ((Activity.work s l).request σ) := by
  have hon : ∀ (t : Turn) (l : Loop), (t.on l).2.filterMap (·.wakes? i) =
      t.calls.filterMap (·.wakes? i) := fun t l => by
    rw [Turn.on, List.filterMap_append]
    exact List.append_nil _
  cases s with
  | looking n =>
    cases hc : σ.isCancelled l.link with
    | true => cases n <;> simp [Loop.step, Activity.request, hc, Store.wakes, Activity.wakes?]
    | false =>
      rw [l.step_of_not_cancelled hc, hon]
      cases n with
      | program p =>
        simp only [Activity.request, hc]
        exact p.step_wakes l.id l.link σ
      | token t => exact t.begin_wakes l.link σ
      | sweep of ts => cases ts <;> rfl
      | release g v x =>
        simp only [Node.step]
        split <;> rfl
      | gate g =>
        refine (Store.wait_wakes _).trans ?_
        dsimp only
        split
        · rfl
        · exact (Store.wakes_completeSteps _ _).trans (if_neg (by simp))
      | _ => rfl
  | handing r =>
    obtain ⟨e, link, _ | ⟨f, fs⟩, k⟩ := l
    · rfl
    · exact (hon _ _).trans (f.resume_wakes r link σ)
  | delaying c => exact (hon _ _).trans (c.move_wakes σ)
  | suspending c => exact (hon _ _).trans (c.move_wakes σ)
  | mapping c => exact (hon _ _).trans (c.move_wakes σ)
  | leaving b =>
    simp only [Loop.step, Store.leave]
    split <;> rfl

theorem Sink.receive_wakes (k : Sink) (r : Result) (σ : Store) :
    (k.receive r σ).2.filterMap (·.wakes? i) = [] := by
  cases k with
  | fiber f =>
    simp only [Sink.receive, Store.endFiber]
    repeat' split
    · exact Store.wakes_publish _ _ _
    · rfl
    · exact Store.wakes_publish _ _ _
  | acquired g =>
    simp only [Sink.receive, Store.endAcquire]
    repeat' split
    · rfl
    · rw [List.filterMap_append, Store.openGate, Store.wakes_completeSteps, if_neg (by simp)]
      rfl
    · rfl
    · rfl
  | side k x =>
    simp only [Sink.receive, Store.endSide]
    repeat' split
    all_goals rfl
  | _ =>
    simp only [Sink.receive, Store.report]
    repeat' split
    all_goals rfl

theorem Store.startFuture_wakes (f : FutureId) (waker : Option JobId) (σ : Store) :
    (σ.startFuture f waker).2.filterMap (·.wakes? i) = [] := by
  unfold Store.startFuture
  split <;> rfl

theorem Store.dropFuture_wakes (f : FutureId) (σ : Store) :
    (σ.dropFuture f).2.filterMap (·.wakes? i) = [] := by
  unfold Store.dropFuture
  repeat' split
  all_goals rfl

theorem Task.step_wakes (t : Task) (σ : Store) : (t.step σ).2.filterMap (·.wakes? i) = [] := by
  cases t with
  | job j =>
    simp only [Task.step]
    split
    · rename_i x _
      cases x with
      | timer due s => exact (Store.wakes_completeSteps _ _).trans (if_neg (by simp))
      | poll f s =>
        simp only [Job.step, List.filterMap_append, Store.startFuture_wakes]
        rfl
      | drop f => exact Store.dropFuture_wakes _ _
      | _ => rfl
    · rfl
  | resume s => exact (Store.wakes_completeSteps _ _).trans (if_neg (by simp))
  | _ => rfl

/-- **A step completes with permits those whom its request has served**, and no others. -/
theorem Activity.step_wakes (a : Activity) (σ : Store) :
    (a.step σ).2.filterMap (·.wakes? i) = σ.wakes i (a.request σ) := by
  cases a with
  | work s l => exact l.step_wakes s σ
  | registering c b => exact Code.advance_wakes (fun _ => rfl) (fun o σ => by cases o <;> rfl) c σ
  | registeringStep c s => exact Code.advance_wakes (fun _ => rfl) (fun o σ => by cases o <;> rfl) c σ
  | calling c s => exact Code.advance_wakes (fun _ => rfl) (fun o σ => by cases o <;> rfl) c σ
  | deliver e k r => exact k.receive_wakes r σ
  | execute on t =>
    cases on with
    | immediate => exact t.step_wakes σ
    | _ => rfl
  | fillSlot s c =>
    simp only [Activity.step, Store.fillSlot]
    split <;> rfl
  | complete c r =>
    cases c <;> simp only [Activity.step, Completer.complete, Store.completeBoundary,
      Store.completeCallback, Store.completeStep] <;> repeat' split
    all_goals rfl
  | notify f l o =>
    cases l with
    | step s => rfl
    | duel k x =>
      simp only [Activity.step, Store.endDuel]
      repeat' split
      all_goals rfl
  | listen f l =>
    simp only [Activity.step]
    split <;> rfl
  | tie left right parent k =>
    simp only [Activity.step, List.filterMap_append, Store.wakes_push]
    rfl
  | polling j =>
    simp only [Activity.step, Store.poll]
    repeat' split
    all_goals rfl
  | _ => rfl

/-- Who asks for permits with a wait opens a step of the semaphore for that. -/
theorem Activity.step_of_acquire {a : Activity} {n : Nat} {t : StepId}
    (h : a.request σ = some (i, .acquire n t)) :
    ∃ st, (a.step σ).1.step? t = some st ∧ st.source = .permits i := by
  obtain ⟨rfl, -⟩ := Activity.lt_of_acquire h
  cases a with
  | work s l =>
    cases s with
    | looking node =>
      cases node with
      | program p =>
        simp only [Activity.request] at h
        split at h
        · cases h
        · rename_i hc
          cases p with
          | permits i' n' =>
            obtain ⟨rfl, -⟩ : i' = i ∧ n' = n := by simpa [Prog.request] using h
            refine ⟨{ source := .permits i', link := l.link }, ?_, rfl⟩
            simp only [Activity.step, l.step_of_not_cancelled (by simpa using hc)]
            exact σ.step?_openStep (.permits i') l.link
          | instant x => cases x <;> simp [Prog.request] at h
          | _ => cases h
      | _ => cases h
    | _ => cases h
  | _ => cases h

/-- An input completes nobody with permits. -/
theorem Input.step_wakes (x : Input) (σ : Store) : (x.step σ).2.filterMap (·.wakes? i) = [] := by
  cases x with
  | move c => exact c.move_wakes σ
  | run p label cancelable => cases cancelable <;> rfl
  | pushPair link left right => exact Store.wakes_push _ _ _
  | tick queue place =>
    simp only [Input.step]
    split <;> rfl
  | ready place =>
    simp only [Input.step]
    split <;> rfl
  | startFuture f => exact Store.startFuture_wakes _ _ _
  | dropFuture f => exact Store.dropFuture_wakes _ _
  | _ => rfl

theorem Moment.of_request {a : Activity} {next : Next} {r : Semaphore.Request StepId}
    (h : Moment.request i ⟨some a, σ, next⟩ = some r) : a.request σ = some (i, r) := by
  unfold Moment.request at h
  split at h
  · obtain ⟨⟨j, r'⟩, hrequest, hr⟩ := Option.bind_eq_some_iff.1 h
    split at hr
    · rename_i hj
      cases hr
      exact hrequest.trans (by rw [← show j = i from hj])
    · cases hr
  · cases h

end Steps

/-! ## The order in which waiters go on -/

namespace Session

open Semaphore

variable {S : Session} {cs : List Choice} {i : SemaphoreId} {n : Nat} {next : Next} {a : Activity}
  {xs ys : List Activity} {t u : StepId}

/-- The steps that pending calls complete with permits of the semaphore. -/
def waking (i : SemaphoreId) (S : Session) : List StepId := S.calls.filterMap (·.wakes? i)

/-- The steps that were completed with permits of the semaphore so far, the latest first. -/
def woken (i : SemaphoreId) (S : Session) : List StepId :=
  S.past.filterMap fun m => m.call.bind (·.wakes? i)

theorem woken_call (S : Session) (a : Activity) (others : List Activity) :
    (S.record (some a) next others).woken i = (a.wakes? i).toList ++ S.woken i := by
  simp only [woken, record_past, List.filterMap_cons, Option.bind_some]
  cases a.wakes? i <;> rfl

theorem waking_call (S : Session) (a : Activity) (others : List Activity) :
    (S.record (some a) (a.step S.store) others).waking i =
      S.store.wakes i (a.request S.store) ++ others.filterMap (·.wakes? i) := by
  rw [waking, record_calls, List.filterMap_append, a.step_wakes]

theorem waking_input (S : Session) (x : Input) :
    (S.record none (x.step S.store) S.calls).waking i = S.waking i := by
  rw [waking, record_calls, List.filterMap_append, x.step_wakes]
  rfl

theorem waking_eq (hS : S.calls = xs ++ a :: ys) :
    (S.waking i).Perm ((a.wakes? i).toList ++ (xs ++ ys).filterMap (·.wakes? i)) := by
  rw [waking, hS, List.filterMap_append, List.filterMap_append, List.filterMap_cons]
  cases a.wakes? i with
  | none => exact .refl _
  | some t => exact List.perm_middle

theorem requests_input (S : Session) (x : Input) :
    (S.record none (x.step S.store) S.calls).requests i = S.requests i := by
  rw [requests_record]
  simp [Moment.request]

/-- Nobody is completed with permits of a semaphore before it is there. -/
theorem wakes_eq_nil (cs : List Choice) (h : (after cs).store.semaphores.size ≤ i) :
    (after cs).waking i = [] ∧ (after cs).woken i = [] := by
  refine invariant (P := fun S => S.store.semaphores.size ≤ i → S.waking i = [] ∧ S.woken i = [])
    (fun _ => ⟨rfl, rfl⟩) ?_ ?_ cs h
  · intro cs x ih hle
    rw [waking_input]
    refine ih (Nat.le_trans (Nat.le_of_not_lt fun hlt => ?_) hle)
    have hsame := x.step_semaphores hlt
    rw [record_store, Array.getElem?_eq_none (Nat.le_refl _), eq_comm, Array.getElem?_eq_none_iff] at hsame
    exact absurd hlt (Nat.not_lt.2 hsame)
  · intro cs a xs ys hS ih hle
    rw [record_store, a.step_semaphores, Store.size_granted] at hle
    obtain ⟨hwaking, hwoken⟩ := ih hle
    have hsplit := waking_eq (i := i) hS
    rw [hwaking, List.nil_perm, List.append_eq_nil_iff] at hsplit
    have hwakes : (after cs).store.wakes i (a.request (after cs).store) = [] := by
      rw [Store.wakes.eq_def]
      split
      · rfl
      · split
        · rw [Array.getElem?_eq_none hle]
          rfl
        · rfl
    rw [waking_call, woken_call, hwakes, hsplit.1, hsplit.2, hwoken]
    exact ⟨rfl, rfl⟩

/-- A step of the semaphore whose wait ended with a value was completed with permits. -/
theorem woken_of_ended {st : Step} {v : Value} (hs : (after cs).store.step? t = some st)
    (hsource : st.source = .permits i) (hended : .ok v ∈ (after cs).endings t) :
    t ∈ (after cs).woken i := by
  refine invariant (P := fun S => ∀ st, S.store.step? t = some st → st.source = .permits i →
    .ok v ∈ S.endings t → t ∈ S.woken i) (fun st hs => nomatch hs) ?_ ?_ cs st hs hsource hended
  · intro cs x ih st hs
    have hstep : (x.step (after cs).store).1.step? t = (after cs).store.step? t := by
      simp only [Store.step?, (x.step_does _).keeper?]
      rfl
    exact ih st (hstep ▸ hs)
  · intro cs a xs ys hS ih st' hs' hsource hended
    rw [woken_call]
    rw [endings_call] at hended
    cases hs : (after cs).store.step? t with
    | none =>
      rw [Activity.ending?_of_none hs, (waits_end t cs).absent hs] at hended
      exact absurd hended List.not_mem_nil
    | some st =>
      obtain ⟨st'', hs'', hsame, -⟩ := (a.step_grows (after cs).store).step hs
      cases hs'.symm.trans hs''
      rw [hsame] at hsource
      refine List.mem_append.2 ((List.mem_append.1 hended).imp (fun hnow => ?_) (ih st hs hsource))
      obtain rfl | ⟨hcancelled, -⟩ := Activity.of_ending hs (Option.mem_toList.1 hnow)
      · simp [Activity.wakes?, hsource]
      · cases hcancelled

/-- Those who are completed with permits of the semaphore, now or before, are those whom it served, and
who was completed waits no more. -/
structure Wakes (i : SemaphoreId) (n : Nat) (S : Session) : Prop where
  account : (S.waking i ++ S.woken i).Perm (answered n (S.requests i))
  step : ∀ t ∈ tickets (S.requests i), ∃ st, S.store.step? t = some st ∧ st.source = .permits i
  ended : ∀ t ∈ S.woken i, S.endings t ≠ []

theorem Serves.wakes_eq (h : S.Serves i n) (a : Activity) :
    S.store.wakes i (a.request S.store) =
      ((Moment.request i ⟨some a, S.store, next⟩).map (serve n (S.requests i)).served).getD [] := by
  simp only [Moment.request, if_pos h.lt, Option.bind_some]
  cases a.request S.store with
  | none => rfl
  | some x =>
    obtain ⟨j, r⟩ := x
    by_cases hj : j = i
    · simp [Store.wakes, hj, h.semaphore]
    · simp [Store.wakes, hj]

/-- A call keeps the account of those who are completed. -/
theorem Wakes.call (h : (after cs).Wakes i n) (hserves : (after cs).Serves i n)
    (hS : (after cs).calls = xs ++ a :: ys) :
    ((after cs).record (some a) (a.step (after cs).store) (xs ++ ys)).Wakes i n := by
  have hgrows := a.step_grows (after cs).store
  refine ⟨?_, fun t ht => ?_, fun t ht => ?_⟩
  · have hanswered : answered n (((after cs).record (some a) (a.step (after cs).store)
        (xs ++ ys)).requests i) = (after cs).store.wakes i (a.request (after cs).store) ++
          answered n ((after cs).requests i) := by
      rw [requests_record, hserves.wakes_eq]
      cases Moment.request i ⟨some a, (after cs).store, a.step (after cs).store⟩ <;> rfl
    rw [hanswered, waking_call, woken_call, List.append_assoc]
    refine .append_left _ ?_
    calc (xs ++ ys).filterMap (·.wakes? i) ++ ((a.wakes? i).toList ++ (after cs).woken i)
      _ = ((xs ++ ys).filterMap (·.wakes? i) ++ (a.wakes? i).toList) ++ (after cs).woken i :=
        (List.append_assoc ..).symm
      _ |>.Perm (((a.wakes? i).toList ++ (xs ++ ys).filterMap (·.wakes? i)) ++ (after cs).woken i) :=
        List.perm_append_comm.append_right _
      _ |>.Perm ((after cs).waking i ++ (after cs).woken i) := (waking_eq hS).symm.append_right _
      _ |>.Perm (answered n ((after cs).requests i)) := h.account
  · rw [requests_record] at ht
    have hold : ∀ t ∈ tickets ((after cs).requests i), ∃ st,
        (a.step (after cs).store).1.step? t = some st ∧ st.source = .permits i := fun t ht => by
      obtain ⟨st, hs, hsource⟩ := h.step t ht
      obtain ⟨st', hs', hsame, -⟩ := hgrows.step hs
      exact ⟨st', hs', hsame.trans hsource⟩
    cases hr : Moment.request i ⟨some a, (after cs).store, a.step (after cs).store⟩ with
    | none =>
      rw [hr] at ht
      exact hold t ht
    | some r =>
      rw [hr] at ht
      cases r with
      | acquire k ticket =>
        obtain rfl | ht := List.mem_cons.1 ht
        · exact Activity.step_of_acquire (Moment.of_request hr)
        · exact hold t ht
      | _ => exact hold t ht
  · rw [woken_call] at ht
    rw [endings_call]
    obtain ht | ht := List.mem_append.1 ht
    · have hwakes := Option.mem_toList.1 ht
      have hwaking : t ∈ (after cs).waking i :=
        (waking_eq hS).mem_iff.2 (List.mem_append_left _ (Option.mem_toList.2 hwakes))
      obtain ⟨st, hs, hsource⟩ := h.step t <| answered_subset n _ <|
        h.account.mem_iff.1 (List.mem_append_left _ hwaking)
      obtain ⟨r, rfl⟩ := Activity.of_wakes? hwakes
      -- it completes the step, unless that was over before
      cases hlive : st.live with
      | true =>
        have hending : (Activity.complete (.step t (.permits i)) r).ending? t (after cs).store = some r :=
          if_pos ⟨rfl, by simp [Store.completesStep, hs, hlive, hsource]⟩
        rw [hending]
        exact List.cons_ne_nil _ _
      | false =>
        intro hnil
        have hendings := (List.append_eq_nil_iff.1 hnil).2
        cases hlive.symm.trans ((completed_as_ended hs).2.2.2 hendings)
    · exact fun hnil => h.ended t ht (List.append_eq_nil_iff.1 hnil).2

/-- **Who is completed with permits of a semaphore was served by it**, and who was served is completed. -/
theorem wakes (n : Nat) (cs₀ cs : List Choice) :
    (after (cs ++ .input (.semaphore n) :: cs₀)).Wakes (after cs₀).store.semaphores.size n := by
  refine invariant_from (P := fun S => S.Wakes (after cs₀).store.semaphores.size n) ?_ ?_
    (fun cs a xs ys hS h => h.call (serves n cs₀ cs) hS) cs
  · obtain ⟨hwaking, hwoken⟩ := wakes_eq_nil cs₀ (Nat.le_refl _)
    have hrequests : (after (.input (.semaphore n) :: cs₀)).requests
        (after cs₀).store.semaphores.size = [] := by
      change ((after cs₀).record none _ _).requests _ = []
      rw [requests_record, requests_eq_nil]
      simp [Moment.request]
    have hwoken' : (after (.input (.semaphore n) :: cs₀)).woken
        (after cs₀).store.semaphores.size = [] := hwoken
    refine ⟨?_, by simp [hrequests, tickets], by simp [hwoken']⟩
    change (waking _ ((after cs₀).record none _ _) ++ _).Perm _
    rw [waking_input, hwaking, hwoken', hrequests]
    exact .refl _
  · intro cs x h
    refine ⟨?_, fun t ht => ?_, h.ended⟩
    · rw [waking_input, requests_input]
      exact h.account
    · rw [requests_input] at ht
      obtain ⟨st, hs, hsource⟩ := h.step t ht
      obtain ⟨st', hs', hsame, -⟩ := (x.step_grows _).step hs
      exact ⟨st', hs', hsame.trans hsource⟩

/-- The wait is over: its loop has gone on, or does so in the course of calls that are pending. -/
inductive Continues (t : StepId) (S : Session) : Prop
  /-- The loop has gone on. -/
  | resumed (r : Result) (l : Loop) (h : (r, l) ∈ S.resumptions t)
  /-- The loop is on its way to the boundary, which is ready. -/
  | arrives (r : Result) (l : Loop) (h : .work (.leaving t) l ∈ S.calls)
    (hready : S.store.boundary? t = some (.ready r))
  /-- A call completes the boundary. -/
  | completed (r : Result) (h : .complete (.boundary t) r ∈ S.calls)
  /-- A call completes the step. -/
  | woken (source : Source) (r : Result) (h : .complete (.step t source) r ∈ S.calls)

theorem continues_of_offered {r : Result} (h : r ∈ (after cs).offers t) : (after cs).Continues t := by
  have htells := tells t cs
  have hoffers := List.ne_nil_of_mem h
  rw [Tells] at htells
  cases hb : (after cs).store.boundary? t with
  | none =>
    rw [hb] at htells
    exact absurd htells.1 hoffers
  | some x =>
    rw [hb] at htells
    cases x with
    | registering => exact absurd htells.1 hoffers
    | parked l => exact absurd htells.1 hoffers
    | ready r' =>
      obtain ⟨l, hl⟩ := List.length_eq_one_iff.1 htells.2.1
      obtain ⟨a, ha, hleaver⟩ := List.mem_filterMap.1 (hl ▸ List.mem_singleton.2 rfl : l ∈ (after cs).leaving t)
      exact .arrives r' l (Activity.of_leaver? hleaver ▸ ha) hb
    | resumed =>
      obtain ⟨-, r', l, -, -, hres⟩ := htells
      exact .resumed r' l (hres ▸ List.mem_singleton.2 rfl)

/-- Who waits no more goes on. -/
theorem continues_of_ended {st : Step} (hs : (after cs).store.step? t = some st)
    (h : (after cs).endings t ≠ []) : (after cs).Continues t := by
  obtain ⟨r, hr⟩ := List.exists_mem_of_ne_nil _ h
  rw [← (completed_as_ended hs).1] at hr
  obtain hr | hr := List.mem_append.1 hr
  · exact .completed r (mem_completions.1 hr)
  · exact continues_of_offered hr

/-- Who was served goes on. -/
theorem Wakes.continues (h : (after cs).Wakes i n) (ht : t ∈ answered n ((after cs).requests i)) :
    (after cs).Continues t := by
  obtain ht' | ht' := List.mem_append.1 (h.account.mem_iff.2 ht)
  · obtain ⟨a, ha, hwakes⟩ := List.mem_filterMap.1 ht'
    obtain ⟨r, rfl⟩ := Activity.of_wakes? hwakes
    exact .woken _ r ha
  · obtain ⟨st, hs, -⟩ := h.step t (answered_subset n _ ht)
    exact continues_of_ended hs (h.ended t ht')

/-- Who has gone on with permits was completed with them. -/
theorem woken_of_resumed {st : Step} {v : Value} {l : Loop} (hs : (after cs).store.step? t = some st)
    (hsource : st.source = .permits i) (h : (.ok v, l) ∈ (after cs).resumptions t) :
    t ∈ (after cs).woken i := by
  rw [resumptions_eq, Option.mem_toList, Option.bind_eq_some_iff] at h
  obtain ⟨r, hr, h⟩ := h
  obtain ⟨l', -, h⟩ := Option.map_eq_some_iff.1 h
  cases h
  refine woken_of_ended (v := v) hs hsource ?_
  rw [← (completed_as_ended hs).1]
  exact List.mem_append_right _ (List.mem_of_getLast? hr)

/-- Those whom a release has served are completed one after the other: `new` are the calls that came up
since, and `rest` those that were pending before. -/
inductive Serving (i : SemaphoreId) (ts : List StepId) (rest : List Activity) (S : Session) : Prop
  | over (h : ∀ t ∈ ts, t ∈ S.woken i)
  | continues (done todo : List StepId) (new : List Activity) (hts : ts = done ++ todo)
    (hdone : ∀ t ∈ done, t ∈ S.woken i)
    (hcalls : S.calls = new ++ (Store.completeSteps (.permits i) todo ++ rest))

/-- It stays so if the innermost call always goes first. -/
theorem Serving.step {ts : List StepId} {rest : List Activity} (h : S.Serving i ts rest) {x : Choice}
    (hx : ∀ place, x = .call place → place = 0) : (S.step x).Serving i ts rest := by
  have hmono : ∀ t ∈ S.woken i, t ∈ (S.step x).woken i := fun t ht =>
    ((past_suffix_step S x).sublist.filterMap _).subset ht
  obtain h | ⟨done, todo, new, rfl, hdone, hcalls⟩ := h
  · exact .over fun t ht => hmono t (h t ht)
  have hdone' : ∀ t ∈ done, t ∈ (S.step x).woken i := fun t ht => hmono t (hdone t ht)
  cases x with
  | input x =>
    refine .continues done todo ((x.step S.store).2 ++ new) rfl hdone' ?_
    rw [List.append_assoc, ← hcalls]
    rfl
  | call place =>
    obtain rfl := hx place rfl
    cases new with
    | cons a new =>
      refine .continues done todo ((a.step S.store).2 ++ new) rfl hdone' ?_
      rw [step_call (by rw [hcalls]; rfl), record_calls, hcalls, List.append_assoc]
      rfl
    | nil =>
      cases todo with
      | nil => exact .over fun t ht => hdone' t (by simpa using ht)
      | cons t todo =>
        have hcall : S.calls[0]? = some (.complete (.step t (.permits i)) (.ok .unit)) := by
          rw [hcalls]
          rfl
        have ht : t ∈ (S.step (.call 0)).woken i := by
          rw [step_call hcall, woken_call]
          exact List.mem_append_left _ (by simp [Activity.wakes?])
        refine .continues (done ++ [t]) todo
          ((Activity.complete (.step t (.permits i)) (.ok .unit)).step S.store).2 (by simp) ?_ ?_
        · exact fun t' ht' => (List.mem_append.1 ht').elim (hdone' t') fun h =>
            List.mem_singleton.1 h ▸ ht
        · rw [step_call hcall, record_calls, hcalls]
          rfl

end Session

end CancelableEffects
