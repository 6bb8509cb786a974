import CancelableEffects.Machine.Run

/-!
# Sessions — everything that can happen while programs run

Any call that is pending may take the next step, so the calls of several threads interleave in every
way; a machine that works on one stack of calls is the special case that always picks the first.
Between two steps the outside world may act.

* `Input`: what the outside world can do.
* `Moment`: one step of the past.
* `Session`: a store, the pending calls and the past; `Session.after` is the session after some
  choices.
* **`Session.invariant_from`**, **`Session.invariant`**: what holds after some choices, or at first, and
  is kept by inputs and calls holds from then on.
* `Session.exists_of_past`: every moment of the past is a step of an earlier session.
* `Session.Made`, `Session.exists_made`, `Session.exists_of_later`: the moment that comes with a choice;
  every moment comes with one of the choices, and a later one with a later choice.
* `Session.after_replicate`: a run of a machine is a session.
-/

namespace CancelableEffects

/-- What the outside world can do. -/
inductive Input where
  /-- A closure outside the machine makes a move. -/
  | move (c : Code Prog Unit)
  /-- An observed run is started, under a connection of its own if it can be cancelled. -/
  | run (p : Prog) (label : Option String) (cancelable : Bool)
  | connection
  | pushPair (link left right : Link)
  | dropToken (link : Link)
  | semaphore (permits : Nat)
  /-- A task of a named queue is run. -/
  | tick (queue : String) (place : Nat)
  /-- A task of the pool of threads is run. -/
  | ready (place : Nat)
  | job (j : JobId)
  /-- Somebody looks whether the future of a job has ended. -/
  | poll (j : JobId)
  | elapse (now : Nat)
  | future (p : Prog)
  | startFuture (f : FutureId)
  | finishFuture (f : FutureId)
  | dropFuture (f : FutureId)
  /-- The command in progress holds a connection, or no longer does. -/
  | hold (link : Link)

/-- The calls an input makes, and the store they find. -/
def Input.step (i : Input) (σ : Store) : Next :=
  match i with
  | .move c => (c.move σ).1
  | .run p label cancelable =>
    let (σ, link) := if cancelable then σ.newConnection.map id some else (σ, none)
    let (σ, r) := σ.newRun label link none
    (σ, [.start (.program p) link (.observer r)])
  | .connection => (σ.newConnection.1, [])
  | .pushPair link left right => σ.push link (.connections left right)
  | .dropToken link => (σ.dropToken link, [])
  | .semaphore n => ({ σ with semaphores := σ.semaphores.push { available := n } }, [])
  | .tick queue place =>
    match (σ.queue queue)[place]? with
    | some t => (σ.setQueue queue ((σ.queue queue).eraseIdx place), [.execute .immediate t])
    | none => (σ, [])
  | .ready place =>
    match σ.ready[place]? with
    | some t => ({ σ with ready := σ.ready.eraseIdx place }, [.execute .immediate t])
    | none => (σ, [])
  | .job j => (σ, [.execute .immediate (.job j)])
  | .poll j => (σ, [.polling j])
  | .elapse now => ({ σ with now := max σ.now now }, [])
  | .future p => ((σ.newFuture p).1, [])
  | .startFuture f => σ.startFuture f none
  | .finishFuture f => (σ.finishFuture f, [])
  | .dropFuture f => σ.dropFuture f
  | .hold link => ({ σ with inHand := link }, [])

/-- One step of the past: the call that took it, or none for an input, the store it found, and what
followed. -/
structure Moment where
  call : Option Activity
  before : Store
  next : Next

/-- A store, the pending calls, and the past, the latest moment first. -/
structure Session where
  store : Store := {}
  calls : List Activity := []
  past : List Moment := []

/-- What happens next: a pending call takes a step, or the outside world acts. -/
inductive Choice where
  | call (place : Nat)
  | input (i : Input)

namespace Session

/-- The session after one more moment; `others` are the calls that were pending besides. -/
def record (S : Session) (call : Option Activity) (next : Next) (others : List Activity) :
    Session :=
  ⟨next.1, next.2 ++ others, ⟨call, S.store, next⟩ :: S.past⟩

/-- The session after one more choice. Where no call is pending at the place, nothing happens. -/
def step (S : Session) : Choice → Session
  | .call place =>
    match S.calls[place]? with
    | some a => S.record (some a) (a.step S.store) (S.calls.eraseIdx place)
    | none => S
  | .input i => S.record none (i.step S.store) S.calls

/-- The session after some choices, the latest first. -/
def after : List Choice → Session
  | [] => {}
  | c :: cs => (after cs).step c

@[simp] theorem record_store (S : Session) (call : Option Activity) (next : Next)
    (others : List Activity) : (S.record call next others).store = next.1 := rfl

@[simp] theorem record_calls (S : Session) (call : Option Activity) (next : Next)
    (others : List Activity) : (S.record call next others).calls = next.2 ++ others := rfl

@[simp] theorem record_past (S : Session) (call : Option Activity) (next : Next)
    (others : List Activity) :
    (S.record call next others).past = ⟨call, S.store, next⟩ :: S.past := rfl

/-- The past is never changed. -/
theorem past_suffix_step (S : Session) (c : Choice) : S.past <:+ (S.step c).past := by
  unfold step
  split
  · split
    · exact List.suffix_cons _ _
    · exact List.suffix_refl _
  · exact List.suffix_cons _ _

theorem past_suffix (cs₀ cs : List Choice) : (after cs₀).past <:+ (after (cs ++ cs₀)).past := by
  induction cs with
  | nil => exact List.suffix_refl _
  | cons c cs ih => exact ih.trans (past_suffix_step _ c)

theorem step_call {S : Session} {place : Nat} {a : Activity} (h : S.calls[place]? = some a) :
    S.step (.call place) = S.record (some a) (a.step S.store) (S.calls.eraseIdx place) := by
  simp only [step, h]

theorem past_call {S : Session} {place : Nat} {a : Activity} (h : S.calls[place]? = some a) :
    (S.step (.call place)).past = ⟨some a, S.store, a.step S.store⟩ :: S.past := by
  rw [step_call h, record_past]

/-- What holds after the choices `cs₀` and is kept by the inputs and the calls holds from then on. -/
theorem invariant_from {P : Session → Prop} {cs₀ : List Choice} (base : P (after cs₀))
    (input : ∀ cs (i : Input), P (after (cs ++ cs₀)) → P ((after (cs ++ cs₀)).record none
      (i.step (after (cs ++ cs₀)).store) (after (cs ++ cs₀)).calls))
    (call : ∀ cs a xs ys, (after (cs ++ cs₀)).calls = xs ++ a :: ys → P (after (cs ++ cs₀)) →
      P ((after (cs ++ cs₀)).record (some a) (a.step (after (cs ++ cs₀)).store) (xs ++ ys)))
    (cs : List Choice) : P (after (cs ++ cs₀)) := by
  induction cs with
  | nil => exact base
  | cons c cs ih =>
    cases c with
    | input i => exact input cs i ih
    | call place =>
      change P ((after (cs ++ cs₀)).step (.call place))
      unfold step
      dsimp only
      split
      · rename_i a ha
        obtain ⟨hlt, rfl⟩ := List.getElem?_eq_some_iff.1 ha
        rw [List.eraseIdx_eq_take_drop_succ]
        refine call cs _ _ _ ?_ ih
        rw [← List.drop_eq_getElem_cons hlt, List.take_append_drop]
      · exact ih

/-- What holds at first and is kept by the inputs and the calls holds after all choices. -/
theorem invariant {P : Session → Prop} (init : P {})
    (input : ∀ cs (i : Input), P (after cs) →
      P ((after cs).record none (i.step (after cs).store) (after cs).calls))
    (call : ∀ cs a xs ys, (after cs).calls = xs ++ a :: ys → P (after cs) →
      P ((after cs).record (some a) (a.step (after cs).store) (xs ++ ys)))
    (cs : List Choice) : P (after cs) := by
  have h := @invariant_from P [] init (fun cs i => input _ i) (fun cs => call _) cs
  rwa [List.append_nil] at h

/-- Every moment of the past is a step that an earlier session took. -/
theorem exists_of_past {cs : List Choice} {later earlier : List Moment} {m : Moment}
    (h : (after cs).past = later ++ m :: earlier) :
    ∃ cs', (after cs').past = earlier ∧ m.before = (after cs').store ∧
      ((∃ i : Input, m.call = none ∧ m.next = i.step m.before) ∨
        ∃ a ∈ (after cs').calls, m.call = some a ∧ m.next = a.step m.before) := by
  refine invariant (P := fun S => ∀ later, S.past = later ++ m :: earlier → ∃ cs',
    (after cs').past = earlier ∧ m.before = (after cs').store ∧
      ((∃ i : Input, m.call = none ∧ m.next = i.step m.before) ∨
        ∃ a ∈ (after cs').calls, m.call = some a ∧ m.next = a.step m.before)) ?_ ?_ ?_ cs later h
  · simp
  · intro cs i ih later h
    cases later with
    | nil =>
      cases h
      exact ⟨cs, rfl, rfl, .inl ⟨i, rfl, rfl⟩⟩
    | cons m' later => exact ih later (List.cons.inj h).2
  · intro cs a xs ys hS ih later h
    cases later with
    | nil =>
      cases h
      exact ⟨cs, rfl, rfl, .inr ⟨a, by simp [hS], rfl, rfl⟩⟩
    | cons m' later => exact ih later (List.cons.inj h).2

/-- The moment is what happened with the choice `x` after the others. -/
structure Made (cs : List Choice) (x : Choice) (m : Moment) : Prop where
  past : (after (x :: cs)).past = m :: (after cs).past
  before : m.before = (after cs).store
  store : (after (x :: cs)).store = m.next.1
  how : (∃ i : Input, x = .input i ∧ m.call = none ∧ m.next = i.step m.before) ∨
    ∃ place a, x = .call place ∧ (after cs).calls[place]? = some a ∧ m.call = some a ∧
      m.next = a.step m.before

/-- The call that was chosen takes its step. -/
theorem Made.of_call {cs : List Choice} {place : Nat} {m : Moment} {a : Activity} (hm : Made cs (.call place) m)
    (h : (after cs).calls[place]? = some a) : m.call = some a ∧ m.next = a.step (after cs).store := by
  obtain ⟨i, hi, -⟩ | ⟨place', a', hplace, ha, hsome, hnext⟩ := hm.how
  · cases hi
  · cases hplace
    cases h.symm.trans ha
    exact ⟨hsome, hm.before ▸ hnext⟩

/-- The moment at which a pending call takes its step. -/
theorem made_call {cs : List Choice} {place : Nat} {a : Activity} (h : (after cs).calls[place]? = some a) :
    Made cs (.call place) ⟨some a, (after cs).store, a.step (after cs).store⟩ where
  past := past_call h
  before := rfl
  store := congrArg store (step_call h)
  how := .inr ⟨place, a, rfl, h, rfl, rfl⟩

/-- With a choice nothing happens, or one more moment. -/
theorem made_or (cs : List Choice) (x : Choice) :
    after (x :: cs) = after cs ∨ ∃ m, Made cs x m := by
  cases x with
  | input i => exact .inr ⟨_, rfl, rfl, rfl, .inl ⟨i, rfl, rfl, rfl⟩⟩
  | call place =>
    cases ha : (after cs).calls[place]? with
    | none =>
      left
      change (after cs).step (.call place) = after cs
      simp only [step, ha]
    | some a => exact .inr ⟨_, made_call ha⟩

/-- A call that is pending stays so until it takes its step. -/
theorem call_next {cs : List Choice} {a : Activity} (h : a ∈ (after cs).calls) (c : Choice) :
    a ∈ (after (c :: cs)).calls ∨ ∃ place, c = .call place ∧ (after cs).calls[place]? = some a := by
  cases c with
  | input i => exact .inl (List.mem_append_right _ h)
  | call place =>
    cases hb : (after cs).calls[place]? with
    | none =>
      have hsame : after (.call place :: cs) = after cs := by
        change (after cs).step (.call place) = after cs
        simp only [step, hb]
      exact .inl (hsame ▸ h)
    | some b =>
      by_cases hab : b = a
      · exact .inr ⟨place, rfl, hab ▸ hb⟩
      · have hnew : after (.call place :: cs) = _ := step_call hb
        rw [hnew, record_calls]
        obtain ⟨i, hi⟩ := List.getElem?_of_mem h
        refine .inl (List.mem_append_right _ (List.mem_eraseIdx_iff_getElem?.2 ⟨i, ?_, hi⟩))
        rintro rfl
        exact hab (Option.some.inj (hb.symm.trans hi))

/-- Every moment after the choices `cs₀` happened with one of the choices after them. -/
theorem exists_of_later {cs cs₀ : List Choice} {later earlier : List Moment} {m : Moment}
    (h : (after (cs ++ cs₀)).past = later ++ m :: earlier) (hearlier : (after cs₀).past <:+ earlier) :
    ∃ cs₂ x cs₁, cs = cs₂ ++ x :: cs₁ ∧ (after (cs₁ ++ cs₀)).past = earlier ∧
      Made (cs₁ ++ cs₀) x m := by
  induction cs generalizing later with
  | nil =>
    have hlength := hearlier.length_le
    rw [List.nil_append] at h
    rw [h, List.length_append, List.length_cons] at hlength
    omega
  | cons x cs ih =>
    obtain hsame | ⟨m', hm'⟩ := made_or (cs ++ cs₀) x
    · rw [List.cons_append, hsame] at h
      obtain ⟨cs₂, y, cs₁, rfl, hrest⟩ := ih h
      exact ⟨x :: cs₂, y, cs₁, rfl, hrest⟩
    · rw [List.cons_append, hm'.past] at h
      cases later with
      | nil =>
        cases h
        exact ⟨[], x, cs, rfl, rfl, hm'⟩
      | cons m'' later =>
        obtain ⟨cs₂, y, cs₁, rfl, hrest⟩ := ih (List.cons.inj h).2
        exact ⟨x :: cs₂, y, cs₁, rfl, hrest⟩

/-- Every moment of the past happened with one of the choices. -/
theorem exists_made {cs : List Choice} {later earlier : List Moment} {m : Moment}
    (h : (after cs).past = later ++ m :: earlier) :
    ∃ cs₂ x cs₁, cs = cs₂ ++ x :: cs₁ ∧ (after cs₁).past = earlier ∧ Made cs₁ x m := by
  have h' : (after (cs ++ [])).past = later ++ m :: earlier := by rwa [List.append_nil]
  obtain ⟨cs₂, x, cs₁, hcs, hrest⟩ := exists_of_later h' List.nil_suffix
  rw [List.append_nil] at hrest
  exact ⟨cs₂, x, cs₁, hcs, hrest⟩

/-- A machine works like a session that always picks the innermost call. -/
theorem after_replicate (fuel : Nat) (cs : List Choice) :
    let S := after (List.replicate fuel (.call 0) ++ cs)
    Machine.run fuel ⟨(after cs).store, (after cs).calls⟩ = ⟨S.store, S.calls⟩ := by
  induction fuel with
  | zero => rfl
  | succ fuel ih =>
    rw [Machine.run_add fuel 1, ih, List.replicate_succ, List.cons_append]
    change Machine.run 1 _ = ⟨((after _).step (.call 0)).store, ((after _).step (.call 0)).calls⟩
    generalize after (List.replicate fuel (.call 0) ++ cs) = S
    obtain ⟨σ, _ | ⟨a, calls⟩, past⟩ := S <;> rfl

end Session

end CancelableEffects
