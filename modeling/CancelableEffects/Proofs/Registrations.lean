import CancelableEffects.Proofs.Endings

/-!
# Registrations — the registration of a step returns one clean-up at most

* `Activity.registers?`: the step that a call registers, or whose clean-up it brings.
* **`Activity.step_registers`**: a registration goes on as one call, and begins when a loop opens the
  step.
* `Activity.returns?`, `Session.cleanups`: the clean-up that the registration of a step has returned.
* **`Session.registered_once`**: a step has one registration at most, and that returns one clean-up.
-/

namespace CancelableEffects

/-- The step that the call registers, or whose clean-up it brings. -/
def Activity.registers? : Activity → Option StepId
  | .registeringStep _ s | .fillSlot s _ => some s
  | _ => none

/-- The clean-up with which the registration of the step returns. -/
def Activity.returns? (s : StepId) : Activity → Option Cleanup
  | .fillSlot s' c => if s' = s then some c else none
  | _ => none

theorem Activity.of_returns? {a : Activity} {s : StepId} {c : Cleanup} (h : a.returns? s = some c) :
    a = .fillSlot s c := by
  unfold returns? at h
  split at h
  · split at h
    · subst_vars
      cases h
      rfl
    · cases h
  · cases h

/-! ## The registrations of a step's calls -/

section Steps

variable {σ : Store}

/-- The steps that the calls register. -/
def Activity.registrations (as : List Activity) : List StepId := as.filterMap Activity.registers?

theorem Activity.registrations_append (as bs : List Activity) :
    registrations (as ++ bs) = registrations as ++ registrations bs := List.filterMap_append

/-- Calls that follow others which register nothing. -/
theorem Activity.registrations_append_of_nil {as : List Activity} (h : registrations as = [])
    (bs : List Activity) : registrations (as ++ bs) = registrations bs := by
  rw [registrations_append, h, List.nil_append]

theorem Store.registrations_push (link : Link) (t : Token) (σ : Store) :
    Activity.registrations (σ.push link t).2 = [] := by
  unfold Store.push
  split <;> rfl

theorem Store.registrations_completeSteps (source : Source) (ss : List StepId) :
    Activity.registrations (Store.completeSteps source ss) = [] :=
  List.filterMap_eq_nil_iff.2 (List.forall_mem_map.2 fun _ _ => rfl)

theorem Store.registrations_publish (f : FiberId) (o : Outcome Value) (σ : Store) :
    Activity.registrations (σ.publish f o).2 = [] :=
  List.filterMap_eq_nil_iff.2 (List.forall_mem_map.2 fun _ _ => rfl)

theorem Code.move_registrations {α : Type} (c : Code Prog α) (σ : Store) :
    Activity.registrations (c.move σ).1.2 = [] := by
  cases c with
  | answer k r next =>
    simp only [Code.move, Store.answer]
    split <;> rfl
  | push link p next => exact Store.registrations_push _ _ _
  | _ => rfl

/-- A closure goes on as one call, or is over. -/
theorem Code.advance_registrations {α : Type} (again : Code Prog α → Activity)
    (done : Except String α → Store → Next) (c : Code Prog α) (σ : Store) :
    (∃ c', Activity.registrations (c.advance again done σ).2 = Activity.registrations [again c']) ∨
      ∃ o, Activity.registrations (c.advance again done σ).2 =
        Activity.registrations (done o (c.move σ).1.1).2 := by
  have hm := c.move_registrations σ
  unfold Code.advance
  generalize c.move σ = m at hm
  obtain ⟨⟨σ', calls⟩, o | c'⟩ := m
  · exact .inr ⟨o, rfl⟩
  · refine .inl ⟨c', ?_⟩
    exact Activity.registrations_append_of_nil hm _

/-- A loop that comes to a step registers that, unless the calls it makes do. -/
theorem Store.wait_registrations {source : Source} {link : Link}
    (register : StepId → Store → Next × Cleanup)
    (h : Activity.registrations (register σ.boundaries.size (σ.openStep source link).1).1.2 = []) :
    Activity.registrations (σ.wait source link register).calls = [σ.boundaries.size] := by
  have hpush : Activity.registrations (σ.openStep source link).2 = [] := Store.registrations_push _ _ _
  simp only [Store.wait, Activity.registrations_append, hpush, h]
  rfl

/-- A program registers the step at which it waits, and no other. -/
theorem Prog.step_registrations (p : Prog) (e : ExecutionId) (link : Link) (σ : Store) :
    Activity.registrations (p.step e link σ).calls = [] ∨
      Activity.registrations (p.step e link σ).calls = [σ.boundaries.size] ∧
        (p.step e link σ).stage = .leaving σ.boundaries.size := by
  have hpushed : ∀ (link : Link) (t : Token) (σ : Store) (as : List Activity),
      Activity.registrations ((σ.push link t).2 ++ as) = Activity.registrations as :=
    fun link t σ => Activity.registrations_append_of_nil (Store.registrations_push link t σ)
  cases p with
  | cancelable register => exact .inr ⟨hpushed _ _ _ _, rfl⟩
  | bracket acquire use release => exact .inl (hpushed _ _ _ _)
  | race p q on => exact .inl (hpushed _ _ _ _)
  | both p q on f => exact .inl (hpushed _ _ _ _)
  | joinEach fs => cases fs <;> exact .inl rfl
  | outcome f =>
    refine .inr ⟨Store.wait_registrations _ ?_, rfl⟩
    dsimp only
    split <;> rfl
  | permits j n =>
    refine .inr ⟨Store.wait_registrations _ ?_, rfl⟩
    dsimp only
    split
    · exact Store.registrations_completeSteps _ _
    · rfl
  | instant a =>
    cases a with
    | release j n => exact .inl (Store.registrations_completeSteps _ _)
    | _ => exact .inl rfl
  | shift on => exact .inr ⟨Store.wait_registrations _ rfl, rfl⟩
  | sleep d => exact .inr ⟨Store.wait_registrations _ rfl, rfl⟩
  | remote c => exact .inr ⟨Store.wait_registrations _ rfl, rfl⟩
  | awaited p => exact .inr ⟨Store.wait_registrations _ rfl, rfl⟩
  | pop c =>
    simp only [Prog.step]
    split <;> exact .inl rfl
  | stored k =>
    simp only [Prog.step]
    split <;> exact .inl rfl
  | _ => exact .inl rfl

theorem Token.begin_registrations (t : Token) (link : Link) (σ : Store) :
    Activity.registrations (t.begin link σ).calls = [] := by
  cases t with
  | cleanup c =>
    cases c with
    | program k =>
      simp only [Token.begin, Cleanup.begin]
      split <;> rfl
    | _ => rfl
  | connection c =>
    simp only [Token.begin]
    split <;> rfl
  | fiber f =>
    simp only [Token.begin]
    split <;> rfl
  | _ => rfl

/-- A loop registers the step to which it comes, and no other. -/
theorem Node.step_registrations (n : Node) (e : ExecutionId) (link : Link) (σ : Store) :
    Activity.registrations (n.step e link σ).calls = [] ∨
      Activity.registrations (n.step e link σ).calls = [σ.boundaries.size] ∧
        (n.step e link σ).stage = .leaving σ.boundaries.size := by
  cases n with
  | program p => exact p.step_registrations e link σ
  | token t => exact .inl (t.begin_registrations link σ)
  | sweep of ts => cases ts <;> exact .inl rfl
  | release g v x =>
    simp only [Node.step]
    split <;> exact .inl rfl
  | gate g =>
    refine .inr ⟨Store.wait_registrations _ ?_, rfl⟩
    dsimp only
    split
    · rfl
    · exact Store.registrations_completeSteps _ _
  | result r => exact .inl rfl

theorem Frame.resume_registrations (f : Frame) (r : Result) (link : Link) (σ : Store) :
    Activity.registrations (f.resume r link σ).calls = [] := by
  cases f with
  | sweep of t ts first => cases ts <;> rfl
  | openGate g =>
    cases r with
    | ok v => exact Store.registrations_completeSteps _ _
    | error e => rfl
  | publishCancelled f =>
    cases r with
    | ok v => exact Store.registrations_publish _ _ _
    | error e => rfl
  | _ =>
    unfold Frame.resume
    dsimp only
    repeat' split
    all_goals rfl

theorem Sink.receive_registrations (k : Sink) (r : Result) (σ : Store) :
    Activity.registrations (k.receive r σ).2 = [] := by
  cases k with
  | fiber f =>
    simp only [Sink.receive, Store.endFiber]
    repeat' split
    · exact Store.registrations_publish _ _ _
    · rfl
    · exact Store.registrations_publish _ _ _
  | acquired g =>
    simp only [Sink.receive, Store.endAcquire]
    repeat' split
    · rfl
    · exact Activity.registrations_append_of_nil (Store.registrations_completeSteps _ _) _
    · rfl
    · rfl
  | side k x =>
    simp only [Sink.receive, Store.endSide]
    repeat' split
    all_goals rfl
  | _ =>
    simp only [Sink.receive, Store.report]
    repeat' split
    all_goals rfl

theorem Store.startFuture_registrations (f : FutureId) (waker : Option JobId) (σ : Store) :
    Activity.registrations (σ.startFuture f waker).2 = [] := by
  unfold Store.startFuture
  split <;> rfl

theorem Store.dropFuture_registrations (f : FutureId) (σ : Store) :
    Activity.registrations (σ.dropFuture f).2 = [] := by
  unfold Store.dropFuture
  repeat' split
  all_goals rfl

theorem Task.step_registrations (t : Task) (σ : Store) : Activity.registrations (t.step σ).2 = [] := by
  cases t with
  | job j =>
    simp only [Task.step]
    split
    · rename_i x _
      cases x with
      | timer due s => exact Store.registrations_completeSteps _ _
      | poll f s => exact Activity.registrations_append_of_nil (Store.startFuture_registrations _ _ _) _
      | drop f => exact Store.dropFuture_registrations _ _
      | _ => rfl
    · rfl
  | resume s => exact Store.registrations_completeSteps _ _
  | _ => rfl

/-- **A registration goes on as one call at most, and begins when a loop opens the step.** -/
theorem Activity.step_registers (a : Activity) (σ : Store) :
    registrations (a.step σ).2 = [] ∨ (∃ s, a.registers? = some s ∧ registrations (a.step σ).2 = [s]) ∨
      registrations (a.step σ).2 = [σ.boundaries.size] ∧
        σ.boundaries.size < (a.step σ).1.boundaries.size := by
  have hon : ∀ (t : Turn) (l : Loop), registrations (t.on l).2 = registrations t.calls := fun t l => by
    rw [Turn.on, registrations_append]
    exact List.append_nil _
  have hcode : ∀ {α : Type} {again : Code Prog α → Activity} {done : Except String α → Store → Next}
      (c : Code Prog α), (∀ c, (again c).registers? = none) →
        (∀ o σ, registrations (done o σ).2 = []) → registrations (c.advance again done σ).2 = [] := by
    intro α again done c hagain hdone
    obtain ⟨c', h⟩ | ⟨o, h⟩ := c.advance_registrations again done σ
    · rw [h]
      exact List.filterMap_cons_none (hagain c')
    · rw [h, hdone]
  cases a with
  | work s l =>
    cases s with
    | looking n =>
      cases hc : σ.isCancelled l.link with
      | true =>
        refine .inl ?_
        rw [Activity.step, l.step_of_cancelled hc]
        rfl
      | false =>
        rw [Activity.step, l.step_of_not_cancelled hc, hon]
        refine (n.step_registrations l.id l.link σ).imp_right fun h => .inr ⟨h.1, ?_⟩
        rcases n.step_pledges hc l.id with ⟨hstays, -⟩ | ⟨-, -, x, hx, -⟩
        · exact absurd h.2 (hstays _)
        · have hlt := (Array.getElem?_eq_some_iff.1 hx).1
          rwa [Boundaries.aligned] at hlt
    | handing r =>
      obtain ⟨e, link, _ | ⟨f, fs⟩, k⟩ := l
      · exact .inl rfl
      · exact .inl ((hon _ _).trans (f.resume_registrations r link σ))
    | delaying c => exact .inl ((hon _ _).trans (c.move_registrations σ))
    | suspending c => exact .inl ((hon _ _).trans (c.move_registrations σ))
    | mapping c => exact .inl ((hon _ _).trans (c.move_registrations σ))
    | leaving b =>
      refine .inl ?_
      simp only [Activity.step, Loop.step, Store.leave]
      split <;> rfl
  | registering c b => exact .inl (hcode c (fun _ => rfl) fun o σ => by cases o <;> rfl)
  | calling c s => exact .inl (hcode c (fun _ => rfl) fun o σ => by cases o <;> rfl)
  | registeringStep c s =>
    obtain ⟨c', h⟩ | ⟨o, h⟩ := c.advance_registrations (.registeringStep · s) (Store.registeredStep s) σ
    · exact .inr (.inl ⟨s, rfl, h⟩)
    · cases o with
      | ok p => exact .inr (.inl ⟨s, rfl, h⟩)
      | error m => exact .inl h
  | deliver e k r => exact .inl (k.receive_registrations r σ)
  | execute on t =>
    cases on with
    | immediate => exact .inl (t.step_registrations σ)
    | _ => exact .inl rfl
  | fillSlot s c =>
    simp only [Activity.step, Store.fillSlot]
    split <;> exact .inl rfl
  | complete c r =>
    refine .inl ?_
    cases c <;> simp only [Activity.step, Completer.complete, Store.completeBoundary,
      Store.completeCallback, Store.completeStep] <;> repeat' split
    all_goals rfl
  | notify f l o =>
    cases l with
    | step s => exact .inl rfl
    | duel k x =>
      refine .inl ?_
      simp only [Activity.step, Store.endDuel]
      repeat' split
      all_goals rfl
  | listen f l =>
    simp only [Activity.step]
    split <;> exact .inl rfl
  | tie left right parent k =>
    exact .inl (registrations_append_of_nil (Store.registrations_push _ _ _) _)
  | polling j =>
    refine .inl ?_
    simp only [Activity.step, Store.poll]
    repeat' split
    all_goals rfl
  | _ => exact .inl rfl

/-- Nothing that the outside world does begins a registration. -/
theorem Input.step_registrations (i : Input) (σ : Store) :
    Activity.registrations (i.step σ).2 = [] := by
  cases i with
  | move c => exact c.move_registrations σ
  | pushPair link left right => exact Store.registrations_push _ _ _
  | startFuture f => exact Store.startFuture_registrations _ _ _
  | dropFuture f => exact Store.dropFuture_registrations _ _
  | tick queue place =>
    simp only [Input.step]
    split <;> rfl
  | ready place =>
    simp only [Input.step]
    split <;> rfl
  | _ => rfl

end Steps

/-! ## Sessions -/

namespace Session

variable {S : Session} {s : StepId}

/-- The clean-ups with which the registration of the step has returned, the latest first. -/
def cleanups (s : StepId) (S : Session) : List Cleanup :=
  S.past.filterMap fun m => m.call.bind (·.returns? s)

theorem cleanups_call (S : Session) (a : Activity) (others : List Activity) :
    (S.record (some a) (a.step S.store) others).cleanups s = (a.returns? s).toList ++ S.cleanups s := by
  simp only [cleanups, record_past, List.filterMap_cons, Option.bind_some]
  cases a.returns? s <;> rfl

/-- Boundaries that are there stay there. -/
theorem bound_mono {m n : Nat} (b : BoundaryId) (h : m ≤ n) :
    (if b < m then 1 else 0) ≤ if b < n then 1 else 0 := by
  by_cases hb : b < m
  · simp only [if_pos hb, if_pos (Nat.lt_of_lt_of_le hb h), Nat.le_refl]
  · simp only [if_neg hb, Nat.zero_le]

/-- **A step has one registration at most, and that returns one clean-up**, but not while it is going
on. -/
theorem registered_once (s : StepId) (cs : List Choice) :
    (Activity.registrations (after cs).calls).count s + ((after cs).cleanups s).length ≤
      if s < (after cs).store.boundaries.size then 1 else 0 := by
  refine invariant (P := fun S => (Activity.registrations S.calls).count s + (S.cleanups s).length ≤
    if s < S.store.boundaries.size then 1 else 0) (Nat.zero_le _) ?_ ?_ cs
  · intro cs i h
    have hle := bound_mono s (i.step_grows (after cs).store).boundaries_le
    have hsame : ((after cs).record none (i.step (after cs).store) (after cs).calls).cleanups s =
      (after cs).cleanups s := rfl
    rw [record_calls, Activity.registrations_append_of_nil (i.step_registrations _), hsame, record_store]
    exact Nat.le_trans h hle
  · intro cs a xs ys hS h
    have hle := bound_mono s (a.step_grows (after cs).store).boundaries_le
    -- the call itself, and the clean-up with which it returns
    have hown : (a.returns? s).toList.length ≤ a.registers?.toList.count s := by
      cases hreturns : a.returns? s with
      | none => exact Nat.zero_le _
      | some c =>
        rw [Activity.of_returns? hreturns]
        simp [Activity.registers?]
    have hbefore : (Activity.registrations (after cs).calls).count s =
        (Activity.registrations (xs ++ ys)).count s + a.registers?.toList.count s := by
      rw [hS]
      simp only [Activity.registrations, List.filterMap_append, List.filterMap_cons, List.count_append]
      cases a.registers? with
      | none => simp
      | some s' =>
        simp only [List.count_cons, Option.toList_some, List.count_nil]
        omega
    rw [cleanups_call, record_calls, record_store, Activity.registrations_append, List.count_append,
      List.length_append]
    rw [hbefore] at h
    rcases a.step_registers (after cs).store with hnext | ⟨s', hs', hnext⟩ | ⟨hnext, hlt⟩
    · rw [hnext]
      simp only [List.count_nil]
      omega
    · cases hreturns : a.returns? s with
      | none =>
        rw [hs'] at h
        rw [hnext]
        simp only [Option.toList_some, Option.toList_none, List.length_nil] at h ⊢
        omega
      | some c =>
        -- what has returned does not go on
        have hfill : Activity.registrations ((Activity.fillSlot s c).step (after cs).store).2 = [] := by
          simp only [Activity.step, Store.fillSlot]
          split <;> rfl
        cases hfill.symm.trans (Activity.of_returns? hreturns ▸ hnext)
    · rw [hnext]
      simp only [List.count_cons, List.count_nil, beq_iff_eq]
      by_cases hs : (after cs).store.boundaries.size = s
      · subst hs
        rw [if_neg (Nat.lt_irrefl _)] at h
        rw [if_pos rfl, if_pos hlt]
        omega
      · rw [if_neg hs]
        omega

/-- When the registration returns, the step is there, and it has not returned before. -/
theorem of_returning {cs : List Choice} {c : Cleanup} (h : .fillSlot s c ∈ (after cs).calls) :
    s < (after cs).store.boundaries.size ∧ (after cs).cleanups s = [] := by
  have honce := registered_once s cs
  have hpos : 0 < (Activity.registrations (after cs).calls).count s :=
    List.count_pos_iff.2 (List.mem_filterMap.2 ⟨_, h, rfl⟩)
  split at honce
  · exact ⟨‹_›, List.eq_nil_of_length_eq_zero (by omega)⟩
  · omega

/-- No registration of a boundary that is not there has returned. -/
theorem cleanups_of_new {cs : List Choice} (h : (after cs).store.boundaries.size ≤ s) :
    (after cs).cleanups s = [] := by
  have honce := registered_once s cs
  rw [if_neg (Nat.not_lt.2 h)] at honce
  exact List.eq_nil_of_length_eq_zero (by omega)

end Session

end CancelableEffects
