import CancelableEffects.Proofs.Listeners
import CancelableEffects.Proofs.Resolutions

/-!
# Exchanges — every listener of a fiber is told once

* `Session.exchange`: the promise of a fiber with its users, as the past tells.
* **`Session.exchanged`**: that is the promise of the fiber, and the calls of listeners that are due are the
  pending ones.
* `Session.numbered`: the clean-up of a wait takes out the listener of that wait.
* **`Session.listeners_told_once`**: every listener of a promise is told once.
-/

namespace CancelableEffects

open Promise (Exchange)

/-- What was done with the promise of the fiber at the moment. -/
def Moment.use? (f : FiberId) (m : Moment) : Option Use :=
  m.before.addressed f (m.call.bind (·.uses? m.before))

/-- The listener that is called by the call, with what it is told of the fiber. A step that listens is
told when it is completed. -/
def Activity.tells? (f : FiberId) : Activity → Option (Listener × Outcome Value)
  | .notify f' (.duel k x) o => if f' = f then some (.duel k x, o) else none
  | .complete (.step s (.outcome f')) (.ok (.outcome o)) =>
    if f' = f then some (.step s, o) else none
  | _ => none

section Tells

variable {f : FiberId} {a : Activity} {σ : Store} {l : Listener} {o : Outcome Value}

theorem Activity.notice?_eq_tells? (h : ∀ f s o, a ≠ .notify f (.step s) o) : a.notice? f = a.tells? f := by
  cases a with
  | notify f' l o =>
    cases l with
    | step s => exact absurd rfl (h f' s o)
    | duel k x => rfl
  | complete c r =>
    unfold notice? tells?
    split <;> simp_all
  | _ => rfl

theorem Activity.uses?_of_tells (h : a.tells? f = some (l, o)) (σ : Store) :
    a.uses? σ = some (f, .call l) := by
  unfold tells? at h
  split at h
  · obtain ⟨rfl, rfl, rfl⟩ := by simpa using h
    rfl
  · obtain ⟨rfl, rfl, rfl⟩ := by simpa using h
    rfl
  · cases h

/-- Who calls a listener tells it an outcome. -/
theorem Activity.tells?_of_uses (h : a.uses? σ = some (f, .call l)) : ∃ o, a.tells? f = some (l, o) := by
  unfold uses? at h
  split at h
  · split at h <;> cases h
  · split at h <;> cases h
  · cases h
  · rename_i o
    cases h
    exact ⟨o, if_pos rfl⟩
  · rename_i o
    cases h
    exact ⟨o, if_pos rfl⟩
  · obtain ⟨x, -, hx⟩ := Option.map_eq_some_iff.1 h
    cases hx

end Tells

/-! ## The number of a wait -/

section Numbers

variable {f : FiberId} {s : StepId} {n : Nat} {σ : Store} {link : Link}

theorem Store.fillSlot_notMem_push (t : Token) (c : Cleanup) :
    .fillSlot s c ∉ (σ.push link t).2 := by
  unfold Store.push
  split <;> simp

theorem Store.fillSlot_notMem_completeSteps (source : Source) (ss : List StepId) (c : Cleanup) :
    .fillSlot s c ∉ Store.completeSteps source ss := by
  simp [Store.completeSteps]

/-- A loop that comes to a step fills its slot with what the registration returns. -/
theorem Store.of_fillSlot_wait {source : Source} {register : StepId → Store → Next × Cleanup} {c : Cleanup}
    (h : .fillSlot s c ∈ (σ.wait source link register).calls)
    (hcalls : .fillSlot s c ∉ (register σ.boundaries.size (σ.openStep source link).1).1.2) :
    s = σ.boundaries.size ∧ c = (register σ.boundaries.size (σ.openStep source link).1).2 := by
  simp only [wait, List.mem_append, List.mem_singleton, Activity.fillSlot.injEq] at h
  obtain (h | h) | h := h
  · exact absurd h (fillSlot_notMem_push _ _)
  · exact absurd h hcalls
  · exact h

/-- **Who waits for an outcome takes itself out under its own number.** -/
theorem Node.of_unlisten {x : Node} {e : ExecutionId}
    (h : .fillSlot s (.unlisten f n) ∈ (x.step e link σ).calls) :
    x = .program (.outcome f) ∧ s = σ.boundaries.size ∧ f < σ.fibers.size ∧
      ((σ.promise f).listen (.step s)).2 = .inl n := by
  have hpush : ∀ {link : Link} {t : Token} {σ : Store} {as : List Activity},
      .fillSlot s (.unlisten f n) ∈ (σ.push link t).2 ++ as → .fillSlot s (.unlisten f n) ∈ as := fun h =>
    (List.mem_append.1 h).resolve_left (Store.fillSlot_notMem_push _ _)
  cases x with
  | program p =>
    cases p with
    | outcome f' =>
      obtain ⟨rfl, hc⟩ := Store.of_fillSlot_wait (σ := σ) h (by
        dsimp only
        split <;> simp)
      dsimp only at hc
      split at hc
      · rename_i m hanswer
        cases hc
        obtain ⟨fiber, hfiber, hlisten⟩ := Option.map_eq_some_iff.1 hanswer
        refine ⟨rfl, rfl, (Array.getElem?_eq_some_iff.1 hfiber).1, ?_⟩
        have hthere : σ.fibers[f]? = some fiber := hfiber
        rw [Store.promise_of_getElem? hthere]
        exact hlisten
      · cases hc
      · cases hc
    | cancelable register => simpa using hpush h
    | bracket acquire use release => simpa using hpush h
    | race p q on => simpa using hpush h
    | both p q on g => simpa using hpush h
    | joinEach fs => cases fs <;> simp [Node.step, Prog.step] at h
    | permits i n =>
      obtain ⟨-, hc⟩ := Store.of_fillSlot_wait (σ := σ) h (by
        dsimp only
        split
        · exact Store.fillSlot_notMem_completeSteps _ _ _
        · simp)
      cases hc
    | instant a =>
      cases a with
      | release i n => exact absurd h (Store.fillSlot_notMem_completeSteps _ _ _)
      | _ => simp [Node.step, Prog.step, Instant.perform] at h
    | shift on => cases (Store.of_fillSlot_wait (σ := σ) h (by simp)).2
    | sleep d => cases (Store.of_fillSlot_wait (σ := σ) h (by simp)).2
    | remote c => cases (Store.of_fillSlot_wait (σ := σ) h (by simp)).2
    | awaited p => cases (Store.of_fillSlot_wait (σ := (σ.newFuture p).1) h (by simp)).2
    | pop c =>
      simp only [Node.step, Prog.step] at h
      split at h <;> simp at h
    | stored i =>
      simp only [Node.step, Prog.step] at h
      split at h <;> simp at h
    | _ => simp [Node.step, Prog.step, Store.startFiber] at h
  | token t =>
    have hmem : s ∈ Activity.registrations (t.begin link σ).calls := List.mem_filterMap.2 ⟨_, h, rfl⟩
    rw [t.begin_registrations] at hmem
    cases hmem
  | sweep of ts => cases ts <;> simp [Node.step, Store.sweep] at h
  | release g v x =>
    simp only [Node.step] at h
    split at h <;> simp at h
  | gate g =>
    obtain ⟨-, hc⟩ := Store.of_fillSlot_wait (σ := σ) h (by
      dsimp only
      split
      · simp
      · exact Store.fillSlot_notMem_completeSteps _ _ _)
    cases hc
  | result r => simp [Node.step] at h

/-- Nobody else does. -/
theorem Activity.of_unlisten {a : Activity} (h : .fillSlot s (.unlisten f n) ∈ (a.step σ).2) :
    ∃ l, a = .work (.looking (.program (.outcome f))) l ∧ σ.isCancelled l.link = false ∧
      s = σ.boundaries.size ∧ f < σ.fibers.size ∧ ((σ.promise f).listen (.step s)).2 = .inl n := by
  have hmem : s ∈ registrations (a.step σ).2 := List.mem_filterMap.2 ⟨_, h, rfl⟩
  obtain hnil | ⟨s', hregisters, -⟩ | ⟨-, hlt⟩ := a.step_registers σ
  · rw [hnil] at hmem
    cases hmem
  · -- who has been registering the step returns a program
    refine absurd h ?_
    cases a with
    | registeringStep c s' =>
      have hmove : .fillSlot s (.unlisten f n) ∉ (c.move σ).1.2 := fun hmove => by
        have hmem : s ∈ registrations (c.move σ).1.2 := List.mem_filterMap.2 ⟨_, hmove, rfl⟩
        rw [c.move_registrations] at hmem
        cases hmem
      rw [step, Code.advance]
      generalize c.move σ = m at hmove
      obtain ⟨⟨σ', calls⟩, o | c'⟩ := m
      · cases o <;> simp [Store.registeredStep]
      · simpa using hmove
    | fillSlot s c =>
      simp only [step, Store.fillSlot]
      split <;> simp
    | _ => cases hregisters
  · have hnone : σ.keeper? σ.boundaries.size = none := Store.keeper?_size
    have hthere : σ.boundaries.size < (a.step σ).1.boundaries.keepers.size := by
      rw [Boundaries.aligned]
      exact hlt
    obtain ⟨x, hx⟩ : ∃ x, (a.step σ).1.keeper? σ.boundaries.size = some x :=
      ⟨_, Array.getElem?_eq_getElem hthere⟩
    obtain ⟨x, l, rfl, hc, -⟩ := of_new_keeper hnone hx
    rw [Activity.step, l.step_of_not_cancelled hc, Turn.on, List.mem_append] at h
    obtain ⟨rfl, hrest⟩ := Node.of_unlisten (h.resolve_right (by simp))
    exact ⟨l, rfl, hc, hrest⟩

end Numbers

namespace Session

variable {f : FiberId} {S : Session}

/-- The promise of the fiber with all its users, as the past tells. -/
def exchange (f : FiberId) (S : Session) : Exchange Listener (Outcome Value) :=
  .after (S.past.filterMap (·.use? f))

/-- The listeners that were called, each with what it was told of the fiber, oldest first. -/
def told (f : FiberId) (S : Session) : List (Listener × Outcome Value) :=
  (S.past.filterMap fun m => m.call.bind (·.tells? f)).reverse

/-- The promise of the fiber is that of its users, and the calls of listeners that are due are pending. -/
structure Exchanged (f : FiberId) (S : Session) : Prop where
  promise : S.store.promise f = (S.exchange f).promise
  due : (S.exchange f).due.Perm (Activity.notices f S.calls)
  told : (S.exchange f).told = S.told f

theorem exchange_record (call : Option Activity) (next : Next) (others : List Activity) :
    (S.record call next others).exchange f =
      ((⟨call, S.store, next⟩ : Moment).use? f).elim (S.exchange f) (S.exchange f).step := by
  simp only [exchange, record_past, List.filterMap_cons]
  cases (⟨call, S.store, next⟩ : Moment).use? f <;> rfl

theorem exchange_call (a : Activity) (next : Next) (others : List Activity) :
    (S.record (some a) next others).exchange f =
      (S.store.addressed f (a.uses? S.store)).elim (S.exchange f) (S.exchange f).step :=
  exchange_record _ _ _

theorem told_record (a : Activity) (next : Next) (others : List Activity) :
    (S.record (some a) next others).told f = S.told f ++ (a.tells? f).toList := by
  simp only [told, record_past, List.filterMap_cons, Option.bind_some]
  cases a.tells? f with
  | none => exact (List.append_nil _).symm
  | some c => exact List.reverse_cons

/-- Nobody tells the outcome of a fiber that is not there. -/
theorem lt_of_notice {cs : List Choice} (h : (after cs).Exchanged f) {l : Listener} {o : Outcome Value}
    (hmem : (l, o) ∈ Activity.notices f (after cs).calls) : f < (after cs).store.fibers.size := by
  have hsound : ((after cs).exchange f).Sound := Exchange.sound _
  have hget := hsound.same _ (List.mem_append_left _ (h.due.mem_iff.2 hmem))
  rw [← h.promise] at hget
  refine Nat.lt_of_not_le fun hle => ?_
  rw [Store.promise, Array.getElem?_eq_none hle] at hget
  cases hget

theorem Exchanged.call {cs : List Choice} {a : Activity} {xs ys : List Activity}
    (h : (after cs).Exchanged f) (hS : (after cs).calls = xs ++ a :: ys) :
    ((after cs).record (some a) (a.step (after cs).store) (xs ++ ys)).Exchanged f := by
  have hnotices : Activity.notices f (after cs).calls =
      Activity.notices f xs ++ ((a.notice? f).toList ++ Activity.notices f ys) := by
    rw [hS, Activity.notices_append]
    congr 1
    simp only [Activity.notices, List.filterMap_cons]
    cases a.notice? f <;> rfl
  have hrest : Activity.notices f ((a.step (after cs).store).2 ++ (xs ++ ys)) =
      Activity.notices f (a.step (after cs).store).2 ++ (Activity.notices f xs ++ Activity.notices f ys) := by
    rw [Activity.notices_append, Activity.notices_append]
  have hsound : ((after cs).exchange f).Sound := Exchange.sound _
  by_cases hstep : ∃ f s o, a = .notify f (.step s) o
  · -- the listener of a step is told when it completes the step
    obtain ⟨f', s, o, rfl⟩ := hstep
    have hsame : ((after cs).record (some (.notify f' (.step s) o))
        ((Activity.notify f' (.step s) o).step (after cs).store) (xs ++ ys)).exchange f =
        (after cs).exchange f := exchange_record _ _ _
    refine ⟨hsame ▸ h.promise, ?_, ?_⟩
    · rw [hsame, record_calls, hrest]
      refine h.due.trans (hnotices ▸ ?_)
      exact List.perm_append_comm_assoc _ _ _
    · rw [hsame, told_record]
      exact h.told.trans (List.append_nil _).symm
  obtain ⟨hpromise, hnext⟩ := a.step_serves (f := f) (fun f s o ha => hstep ⟨f, s, o, ha⟩) (after cs).store
  rw [Activity.notice?_eq_tells? fun f s o ha => hstep ⟨f, s, o, ha⟩] at hnotices
  cases htells : a.tells? f with
  | some c =>
    obtain ⟨l, o⟩ := c
    rw [htells, Option.toList_some] at hnotices
    have hmem : (l, o) ∈ Activity.notices f (after cs).calls := by simp [hnotices]
    have huse : (after cs).store.addressed f (a.uses? (after cs).store) = some (.call l) := by
      rw [Activity.uses?_of_tells htells]
      exact if_pos ⟨rfl, lt_of_notice h hmem⟩
    have hnew : ((after cs).record (some a) (a.step (after cs).store) (xs ++ ys)).exchange f =
        ((after cs).exchange f).step (.call l) := by rw [exchange_call, huse, Option.elim_some]
    rw [huse] at hpromise hnext
    obtain ⟨hdue, htold⟩ := Exchange.step_call (hsound.find?_due (h.due.mem_iff.2 hmem))
    refine ⟨?_, ?_, ?_⟩
    · rw [hnew]
      exact hpromise.trans h.promise
    · rw [hnew, record_calls, hrest, hnext]
      refine List.Perm.cons_inv (hdue.symm.trans (h.due.trans ?_))
      rw [hnotices]
      exact List.perm_middle
    · rw [hnew, htold, told_record, htells, h.told]
      rfl
  | none =>
    rw [htells, Option.toList_none, List.nil_append] at hnotices
    cases huse : (after cs).store.addressed f (a.uses? (after cs).store) with
    | none =>
      have hnew : ((after cs).record (some a) (a.step (after cs).store) (xs ++ ys)).exchange f =
          (after cs).exchange f := by rw [exchange_call, huse, Option.elim_none]
      rw [huse] at hpromise hnext
      refine ⟨?_, ?_, ?_⟩
      · rw [hnew]
        exact hpromise.trans h.promise
      · rw [hnew, record_calls, hrest, hnext, ← hnotices]
        exact h.due
      · rw [hnew, told_record, htells, h.told]
        exact (List.append_nil _).symm
    | some u =>
      have hnew : ((after cs).record (some a) (a.step (after cs).store) (xs ++ ys)).exchange f =
          ((after cs).exchange f).step u := by rw [exchange_call, huse, Option.elim_some]
      have hother : ∀ l, u ≠ .call l := by
        rintro l rfl
        obtain ⟨⟨f', u⟩, huses, hu⟩ := Option.bind_eq_some_iff.1 huse
        split at hu
        · rename_i hf
          cases hf.1
          cases hu
          obtain ⟨o, ho⟩ := Activity.tells?_of_uses huses
          cases htells.symm.trans ho
        · cases hu
      rw [huse] at hpromise hnext
      obtain ⟨hdue, htold⟩ := ((after cs).exchange f).step_other hother
      refine ⟨?_, ?_, ?_⟩
      · rw [hnew]
        exact hpromise.trans (congrArg u.apply h.promise)
      · rw [hnew, hdue, record_calls, hrest, hnext, ← hnotices, h.promise]
        exact (h.due.append_right _).trans List.perm_append_comm
      · rw [hnew, htold, told_record, htells, h.told]
        exact (List.append_nil _).symm

/-- **The promise of a fiber is that of its users**, and the calls of listeners that are due are pending. -/
theorem exchanged (f : FiberId) (cs : List Choice) : (after cs).Exchanged f := by
  refine invariant (P := fun S => S.Exchanged f) ⟨rfl, .refl _, rfl⟩ ?_ (fun cs a xs ys hS h => h.call hS) cs
  intro cs i h
  obtain ⟨hpromise, hnext⟩ := i.step_serves (f := f) (after cs).store
  refine ⟨hpromise.trans h.promise, ?_, h.told⟩
  rw [record_calls, Activity.notices_append, hnext]
  exact h.due

/-- Who is registered keeps the number. -/
theorem registered_record {call : Option Activity} {next : Next} {others : List Activity} {n : Nat}
    {l : Listener} (h : (S.exchange f).registered[n]? = some l) :
    ((S.record call next others).exchange f).registered[n]? = some l := by
  rw [exchange_record]
  cases (⟨call, S.store, next⟩ : Moment).use? f with
  | none => exact h
  | some u => exact (List.getElem?_append_left (List.getElem?_eq_some_iff.1 h).1).trans h

/-- **The clean-up of a wait takes out the listener of that wait**, which has the number. -/
theorem numbered (f : FiberId) (cs : List Choice) : ∀ s n,
    .fillSlot s (.unlisten f n) ∈ (after cs).calls ∨ .unlisten f n ∈ (after cs).cleanups s →
      ((after cs).exchange f).registered[n]? = some (.step s) := by
  refine invariant (P := fun S => ∀ s n,
    .fillSlot s (.unlisten f n) ∈ S.calls ∨ .unlisten f n ∈ S.cleanups s →
      (S.exchange f).registered[n]? = some (.step s)) (by simp [cleanups]) ?_ ?_ cs
  · intro cs i ih s n h
    refine registered_record (ih s n (h.imp_left fun h => ?_))
    refine (List.mem_append.1 h).resolve_left fun hnew => ?_
    have hmem : s ∈ Activity.registrations (i.step (after cs).store).2 :=
      List.mem_filterMap.2 ⟨_, hnew, rfl⟩
    rw [i.step_registrations] at hmem
    cases hmem
  · intro cs a xs ys hS ih s n h
    have hothers : ∀ b ∈ xs ++ ys, b ∈ (after cs).calls := fun b hb => by
      rw [hS]
      exact (List.sublist_cons_self a ys).append_left xs |>.subset hb
    rw [cleanups_call, List.mem_append] at h
    obtain h | h | h := h
    · obtain hnew | hold := List.mem_append.1 h
      · -- the wait has just been opened
        obtain ⟨l, rfl, hc, rfl, hlt, hlisten⟩ := Activity.of_unlisten hnew
        have huse : (⟨some (.work (.looking (.program (.outcome f))) l), (after cs).store,
            (Activity.work (.looking (.program (.outcome f))) l).step (after cs).store⟩ : Moment).use? f =
            some (.listen (.step (after cs).store.boundaries.size)) := by
          simp [Moment.use?, Activity.uses?, hc, Store.addressed, hlt]
        rw [exchange_record, huse]
        have hsound : ((after cs).exchange f).Sound := Exchange.sound _
        rw [(exchanged f cs).promise] at hlisten
        show (((after cs).exchange f).registered ++ [Listener.step _])[n]? = _
        cases hp : ((after cs).exchange f).promise with
        | pending ls next =>
          rw [hp] at hlisten
          cases hlisten
          rw [hsound.next _ _ hp]
          exact List.getElem?_concat_length
        | complete o =>
          rw [hp] at hlisten
          cases hlisten
      · exact registered_record (ih s n (.inl (hothers _ hold)))
    · have hreturns : a = .fillSlot s (.unlisten f n) := Activity.of_returns? (Option.mem_toList.1 h)
      exact registered_record (ih s n (.inl (by simp [hS, hreturns])))
    · exact registered_record (ih s n (.inr h))

/-- Who runs the clean-up of a wait takes its listener out. All else stays as it is: the outcomes and the
connections of the fibers, whoever else listens, and the rest of the store. -/
theorem of_unlistening {cs : List Choice} {m : Moment} (hm : m ∈ (after cs).past) {n : Nat} {l : Loop}
    (hcall : m.call = some (.work (.looking (.token (.cleanup (.unlisten f n)))) l))
    (hc : m.before.isCancelled l.link = false) :
    m.next.2 = [.work (.handing (.ok .unit)) l] ∧ { m.next.1 with fibers := m.before.fibers } = m.before ∧
      ∀ f', m.next.1.fiberLink f' = m.before.fiberLink f' ∧
        m.next.1.outcome? f' = m.before.outcome? f' ∧ (m.next.1.promise f').waiting =
          if f' = f then (m.before.promise f').waiting.filter (·.1 != n)
          else (m.before.promise f').waiting := by
  obtain ⟨later, earlier, hpast⟩ := List.append_of_mem hm
  obtain ⟨-, -, -, ⟨i, hnone, -⟩ | ⟨a, -, hsome, hnext⟩⟩ := exists_of_past hpast
  · cases hnone.symm.trans hcall
  cases hsome.symm.trans hcall
  have hnext : m.next = (m.before.unlisten f n, [.work (.handing (.ok .unit)) l]) := by
    rw [hnext, Activity.step, l.step_of_not_cancelled hc]
    rfl
  rw [hnext]
  refine ⟨rfl, rfl, fun f' => ⟨Store.fiberLink_modifyPromise _ _ _, ?_, ?_⟩⟩
  · have htells := (Store.unlisten_tells (σ := m.before) f n []).outcome f'
    simpa [Store.published] using htells
  · change ((m.before.modifyPromise f (·.remove n)).promise f').waiting = _
    rw [Store.promise_modifyPromise]
    split
    · rename_i hf
      rw [Promise.waiting_remove, if_pos hf.1.symm]
    · rename_i hf
      by_cases hne : f' = f
      · -- nobody listens to a fiber that is not there
        rw [if_pos hne, Store.promise_of_le (Nat.not_lt.1 fun hlt => hf ⟨hne.symm, hlt⟩)]
        rfl
      · exact (if_neg hne).symm

/-- **Every listener of a promise is told once.** Whoever completes a promise, listens to it, takes listeners
out or is called as a listener, in any order:
* the first outcome that is offered is the outcome, for good;
* every listener that was registered was taken out while it waited, or waits, or is to be called, or was
  called, and that once; once there is an outcome nobody waits;
* nobody is called before there is an outcome, and all are told that one; when who completes a promise calls
  the listeners, and these do what they like meanwhile, all calls that were due were made once all have
  returned;
* who is taken out under a number is the one that was registered under it, counted from zero. All others
  wait on, and nobody is called.

The promise of a fiber is used like that. The calls that are due are the pending ones, so that they are made;
those that were made are the calls of listeners in the past. Who waits for the outcome and is cancelled takes
out the listener of its own wait. The step that does so leaves the fibers and all others as they are. -/
theorem listeners_told_once :
    (∀ (L O : Type) [DecidableEq L] (acts : List (Promise.Act L O)),
      let x := Exchange.after acts
      x.promise.get = (acts.filterMap Promise.Act.offer?).getLast? ∧
      (∀ o, x.promise.get = some o →
        x.promise.waiting = [] ∧ ∀ later : List (Promise.Act L O),
          (Exchange.after (later ++ acts)).promise.get = some o) ∧
      x.registered = (acts.filterMap Promise.Act.listener?).reverse ∧
      x.registered.Perm
        (x.removed ++ x.promise.waiting.map (·.2) ++ x.due.map (·.1) ++ x.told.map (·.1)) ∧
      (∀ c ∈ x.due ++ x.told, x.promise.get = some c.2) ∧
      ∀ n, let y := x.step (.remove n)
        y.promise.waiting = x.promise.waiting.filter (·.1 != n) ∧ y.promise.get = x.promise.get ∧
        y.registered = x.registered ∧ y.due = x.due ∧ y.told = x.told ∧
        (∀ l, (n, l) ∈ x.promise.waiting → x.registered[n]? = some l ∧ y.removed = x.removed ++ [l]) ∧
        ((∀ l, (n, l) ∉ x.promise.waiting) → y.removed = x.removed)) ∧
    (∀ (L O : Type) [DecidableEq L] (body : L → O → List (Promise.Act L O)) (agenda : List (Promise.Act L O)),
      (∀ l o, ∀ a ∈ body l o, a.called? = none) → (∀ a ∈ agenda, a.called? = none) →
      ∀ n, let w := Promise.Work.after body agenda n
        w.agenda = [] → (Exchange.after w.acts).due = []) ∧
    ∀ f cs, let S := after cs
      let x := S.exchange f
      S.store.promise f = x.promise ∧ x.due.Perm (Activity.notices f S.calls) ∧ x.told = S.told f ∧
      (∀ s n, .unlisten f n ∈ S.cleanups s → x.registered[n]? = some (.step s)) ∧
      ∀ m ∈ S.past, ∀ n l, m.call = some (.work (.looking (.token (.cleanup (.unlisten f n)))) l) →
        m.before.isCancelled l.link = false →
        m.next.2 = [.work (.handing (.ok .unit)) l] ∧
        { m.next.1 with fibers := m.before.fibers } = m.before ∧
        ∀ f', m.next.1.fiberLink f' = m.before.fiberLink f' ∧
          m.next.1.outcome? f' = m.before.outcome? f' ∧ (m.next.1.promise f').waiting =
            if f' = f then (m.before.promise f').waiting.filter (·.1 != n)
            else (m.before.promise f').waiting := by
  refine ⟨fun L O _ acts => ?_, fun L O _ body agenda hbody hagenda n h =>
    Promise.Work.due_of_returned hbody hagenda n h, fun f cs => ?_⟩
  · intro x
    have hsound : x.Sound := Exchange.sound acts
    exact ⟨Exchange.get_after acts,
      fun o ho => ⟨Promise.waiting_of_get ho, fun later => Exchange.get_stays ho later⟩,
      Exchange.registered_after acts, hsound.fates, hsound.same, Exchange.remove_step acts⟩
  · intro S x
    obtain ⟨hpromise, hdue, htold⟩ := exchanged f cs
    exact ⟨hpromise, hdue, htold, fun s n h => numbered f cs s n (.inr h),
      fun m hm n l hcall hc => of_unlistening hm hcall hc⟩

end Session

end CancelableEffects
