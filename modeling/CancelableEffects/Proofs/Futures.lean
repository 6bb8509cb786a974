import CancelableEffects.Proofs.Errands
import CancelableEffects.Proofs.Observers
import CancelableEffects.Proofs.Sides
import Mathlib.Data.List.Pairwise

/-!
# Futures — a future runs once, gives what its run gives, and is cancelled if it is dropped before

* `Moment.starts`: the programs that begin to run for a future.
* `Session.Happened`, `Session.Met`: what was done to a future.
* **`Session.made_starts`**: the program of a future begins with the first poll, unless it was dropped before.
* **`Session.started_nodup`**: no program of a future begins twice.
* **`Session.start_of_run`**: the run of a future is that of its program, under a connection.
* **`Session.isSilent_iff`**, **`Session.ready_iff`**: a future is ready when the execution of its run has ended.
* `Session.Cancelling`, **`Session.cancelling_later`**: a connection is cancelled, or is about to be.
* **`Session.future_life`**: all of this.
-/

namespace CancelableEffects

/-- The kept program that the call begins to run for an observer. -/
def Activity.kept? : Activity → Option ProgramId
  | .start (.token (.cleanup (.program p))) _ (.observer _) => some p
  | _ => none

/-- The kept programs that are about to run for an observer after this moment. -/
def Moment.starts (m : Moment) : List ProgramId := m.next.2.filterMap Activity.kept?

theorem Activity.kept?_of_observes? {a : Activity} (h : a.observes? = none) : a.kept? = none := by
  unfold Activity.kept?
  split
  · cases h
  · rfl

/-- Whether the run was cancelled and has ended without a result. -/
def Store.isSilent (r : RunId) (σ : Store) : Bool := σ.runs[r]?.any Run.silent

/-- The execution of the run ends silently at this moment. -/
def Moment.isSilent (r : RunId) (m : Moment) : Bool :=
  match m.call with
  | some (.deliver _ (.observer i) x) => i == r && m.before.runs[r]?.any (m.before.silences · x)
  | _ => false

/-- A report tells when a run has ended silently. -/
theorem Store.report_isSilent (r i : RunId) (e : ExecutionId) (x : Result) (σ : Store) (next : Next) :
    (σ.report i x).1.isSilent r =
      (σ.isSilent r || Moment.isSilent r ⟨some (.deliver e (.observer i) x), σ, next⟩) := by
  unfold Store.report Moment.isSilent
  dsimp only
  split
  · rename_i hnone
    by_cases hi : i = r
    · subst hi
      simp [hnone]
    · simp [hi]
  · rename_i run hrun
    by_cases hi : i = r
    · subst hi
      cases hs : σ.silences run x with
      | true => simp [Store.isSilent, Store.emit, Array.getElem?_modify, hrun, hs]
      | false => simp [Store.isSilent, Store.emit?, Array.getElem?_modify, hrun, hs]
    · cases hs : σ.silences run x <;>
        simp [Store.isSilent, Store.emit, Store.emit?, Array.getElem?_modify, hi]

/-- A silent end is the delivery of a cancellation under a cancelled connection. -/
theorem Moment.isSilent_iff {r : RunId} {m : Moment} : m.isSilent r = true ↔ ∃ e x run,
    m.call = some (.deliver e (.observer r) x) ∧ m.before.runs[r]? = some run ∧ m.before.silences run x = true := by
  unfold Moment.isSilent
  split
  · rename_i e i x hcall
    rw [Bool.and_eq_true, beq_iff_eq, Option.any_eq_true]
    constructor
    · rintro ⟨rfl, run, hrun, hs⟩
      exact ⟨e, x, run, hcall, hrun, hs⟩
    · rintro ⟨e', x', run, hcall', hrun, hs⟩
      cases hcall.symm.trans hcall'
      exact ⟨rfl, run, hrun, hs⟩
  · rename_i hnot
    refine iff_of_false Bool.false_ne_true ?_
    rintro ⟨e, x, run, hcall, -⟩
    exact hnot e r x hcall

/-- Where the loop of a run waits. -/
theorem Store.of_waitsAt {r : RunId} {σ : Store} {b : BoundaryId} (h : σ.waitsAt r = some b) :
    ∃ l, σ.boundary? b = some (.parked l) ∧ l.sink = .observer r := by
  obtain ⟨hlt, hfound, -⟩ := Array.findIdx?_eq_some_iff_getElem.1 h
  split at hfound
  · rename_i e link fs r' hcell
    cases eq_of_beq hfound
    exact ⟨⟨e, link, fs, .observer r⟩, by rw [Store.boundary?, Array.getElem?_eq_getElem hlt, hcell], rfl⟩
  · cases hfound

/-- An execution that looks at the token of a connection cancels that. -/
theorem Activity.step_cancels (c : ConnectionId) (e : ExecutionId) (k : Sink) (σ : Store) :
    ((Activity.work (.looking (.token (.connection (some c)))) ⟨e, none, [], k⟩).step σ).1 =
      (σ.cancel (some c)).1 := by
  have hactive : σ.isCancelled none = false := rfl
  simp only [Activity.step, Loop.step, hactive, Node.step, Token.begin, Bool.false_eq_true, if_false]
  rcases σ.cancel (some c) with ⟨σ', _ | ts⟩ <;> rfl

namespace Session

variable {S : Session} {cs cs₀ : List Choice} {x : Choice} {m : Moment} {f : FutureId} {y : Future} {r : RunId}
  {c : ConnectionId}

/-! ## What was done to a future -/

/-- What the choice does to a future. -/
def errand? (S : Session) : Choice → Option Errand
  | .call place => S.calls[place]?.bind fun a => a.errand? S.store
  | .input i => i.errand?

/-- The errand was done with one of the choices, to a future that was there. -/
def Happened (d : Errand) (cs : List Choice) : Prop :=
  ∃ x cs₁, x :: cs₁ <:+ cs ∧ d.future < (after cs₁).store.futures.size ∧ (after cs₁).errand? x = some d

/-- Something was done to the future. -/
def Met (f : FutureId) (cs : List Choice) : Prop := ∃ d : Errand, d.future = f ∧ Happened d cs

theorem attends (S : Session) (x : Choice) : S.store.Attends (S.errand? x) (S.step x).store := by
  cases x with
  | input i => exact i.step_attends S.store
  | call place =>
    simp only [errand?, step]
    cases S.calls[place]? with
    | none => exact .of_eq rfl rfl
    | some a => exact a.step_attends S.store

theorem happened_cons {d : Errand} : Happened d (x :: cs) ↔
    (d.future < (after cs).store.futures.size ∧ (after cs).errand? x = some d) ∨ Happened d cs := by
  constructor
  · rintro ⟨x', cs₁, hsuffix, h⟩
    obtain heq | hsuffix := List.suffix_cons_iff.1 hsuffix
    · cases heq
      exact .inl h
    · exact .inr ⟨x', cs₁, hsuffix, h⟩
  · rintro (h | ⟨x', cs₁, hsuffix, h⟩)
    · exact ⟨x, cs, List.suffix_refl _, h⟩
    · exact ⟨x', cs₁, hsuffix.trans (List.suffix_cons _ _), h⟩

theorem met_cons : Met f (x :: cs) ↔
    (∃ d : Errand, d.future = f ∧ f < (after cs).store.futures.size ∧ (after cs).errand? x = some d) ∨ Met f cs := by
  constructor
  · rintro ⟨d, rfl, h⟩
    exact (happened_cons.1 h).imp (fun h => ⟨d, rfl, h⟩) fun h => ⟨d, rfl, h⟩
  · rintro (⟨d, rfl, h⟩ | ⟨d, rfl, h⟩)
    · exact ⟨d, rfl, happened_cons.2 (.inl h)⟩
    · exact ⟨d, rfl, happened_cons.2 (.inr h)⟩

/-- A future stays. -/
theorem future_later (hy : (after cs₀).store.futures[f]? = some y) (cs : List Choice) :
    ∃ y', (after (cs ++ cs₀)).store.futures[f]? = some y' ∧ y.Grows y' := by
  induction cs with
  | nil => exact ⟨y, hy, .refl y⟩
  | cons x cs ih =>
    obtain ⟨y', hy', hgrows⟩ := ih
    exact ⟨_, ((after (cs ++ cs₀)).attends x).old f y' hy', hgrows.trans (Future.met_grows ..)⟩

/-- A future was there before, or it is new. -/
theorem future_cases (hy : (after (x :: cs)).store.futures[f]? = some y) :
    (∃ y₀, (after cs).store.futures[f]? = some y₀ ∧
      y = y₀.met (after cs).store.runs.size f ((after cs).errand? x)) ∨
    (after cs).store.futures[f]? = none ∧ y = { program := (after cs).store.programs.size } ∧
      f = (after cs).store.futures.size ∧
      (after cs).store.programs.size < (after (x :: cs)).store.programs.size := by
  have hattends := (after cs).attends x
  cases hy₀ : (after cs).store.futures[f]? with
  | none => exact .inr ⟨rfl, hattends.new f y hy₀ hy⟩
  | some y₀ => exact .inl ⟨y₀, rfl, Option.some.inj (hy.symm.trans (hattends.old f y₀ hy₀))⟩

/-- Only to a future that is there something was done. -/
theorem lt_of_met (h : Met f cs) : f < (after cs).store.futures.size := by
  obtain ⟨d, rfl, x, cs₁, ⟨w, rfl⟩, hlt, -⟩ := h
  obtain ⟨y', hy', -⟩ := future_later (Array.getElem?_eq_getElem hlt) (w ++ [x])
  rw [List.append_assoc] at hy'
  exact (Array.getElem?_eq_some_iff.1 hy').1

theorem not_met_of_new (hf : f = (after cs).store.futures.size) : ¬Met f (x :: cs) := by
  subst hf
  rw [met_cons]
  rintro (⟨-, -, hlt, -⟩ | hmet)
  · exact Nat.lt_irrefl _ hlt
  · exact Nat.lt_irrefl _ (lt_of_met hmet)

/-- A future is fresh as long as nothing was done to it. -/
theorem fresh_iff (hy : (after cs).store.futures[f]? = some y) : y.Fresh ↔ ¬Met f cs := by
  induction cs generalizing y with
  | nil => exact absurd (Array.getElem?_eq_some_iff.1 hy).1 (Nat.not_lt_zero _)
  | cons x cs ih =>
    rw [met_cons]
    obtain ⟨y₀, hy₀, rfl⟩ | ⟨hnone, rfl, hf, -⟩ := future_cases hy
    · have hlt := (Array.getElem?_eq_some_iff.1 hy₀).1
      by_cases hnow : ∃ d : Errand, d.future = f ∧ (after cs).errand? x = some d
      · obtain ⟨d, hd, hx⟩ := hnow
        refine iff_of_false ?_ fun h => h (.inl ⟨d, hd, hlt, hx⟩)
        rw [hx, Future.met]
        simp only [hd, if_true]
        exact d.leave_not_fresh _ y₀
      · have hsame : y₀.met (after cs).store.runs.size f ((after cs).errand? x) = y₀ := by
          cases hx : (after cs).errand? x with
          | none => rfl
          | some d => exact if_neg fun hd => hnow ⟨d, hd, hx⟩
        rw [hsame, ih hy₀]
        refine not_congr ⟨.inr, fun h => h.resolve_left ?_⟩
        rintro ⟨d, hd, -, hx⟩
        exact hnow ⟨d, hd, hx⟩
    · exact iff_of_true ⟨rfl, rfl⟩ (met_cons.not.1 (not_met_of_new hf))

/-- A future is over when it has given its result or was dropped. -/
theorem finished_iff (hy : (after cs).store.futures[f]? = some y) :
    y.finished = true ↔ Happened (.finish f) cs ∨ Happened (.drop f) cs := by
  induction cs generalizing y with
  | nil => exact absurd (Array.getElem?_eq_some_iff.1 hy).1 (Nat.not_lt_zero _)
  | cons x cs ih =>
    obtain ⟨y₀, hy₀, rfl⟩ | ⟨hnone, rfl, hf, -⟩ := future_cases hy
    · have hlt := (Array.getElem?_eq_some_iff.1 hy₀).1
      have hnow : (y₀.met (after cs).store.runs.size f ((after cs).errand? x)).finished = true ↔
          (after cs).errand? x = some (.finish f) ∨ (after cs).errand? x = some (.drop f) ∨ y₀.finished = true :=
        Future.met_finished ..
      rw [hnow, ih hy₀, happened_cons, happened_cons]
      simp only [Errand.future, hlt, true_and]
      tauto
    · exact iff_of_false Bool.false_ne_true fun h => not_met_of_new hf (h.elim (fun h => ⟨_, rfl, h⟩) fun h => ⟨_, rfl, h⟩)

/-! ## The programs of the futures -/

theorem program_lt (hy : (after cs).store.futures[f]? = some y) : y.program < (after cs).store.programs.size := by
  induction cs generalizing y with
  | nil => exact absurd (Array.getElem?_eq_some_iff.1 hy).1 (Nat.not_lt_zero _)
  | cons x cs ih =>
    obtain ⟨y₀, hy₀, rfl⟩ | ⟨-, rfl, -, hlt⟩ := future_cases hy
    · rw [(Future.met_grows _ _ _ y₀).program]
      exact Nat.lt_of_lt_of_le (ih hy₀) ((after cs).attends x).programs
    · exact hlt

/-- Two futures have different programs. -/
theorem program_unique {f' : FutureId} {y' : Future} (hy : (after cs).store.futures[f]? = some y)
    (hy' : (after cs).store.futures[f']? = some y') (h : y'.program = y.program) : f' = f := by
  induction cs generalizing y y' with
  | nil => exact absurd (Array.getElem?_eq_some_iff.1 hy).1 (Nat.not_lt_zero _)
  | cons x cs ih =>
    obtain ⟨y₀, hy₀, rfl⟩ | ⟨-, rfl, hf, -⟩ := future_cases hy <;>
      obtain ⟨y₀', hy₀', rfl⟩ | ⟨-, rfl, hf', -⟩ := future_cases hy'
    · rw [(Future.met_grows _ _ _ y₀).program, (Future.met_grows _ _ _ y₀').program] at h
      exact ih hy₀ hy₀' h
    · rw [(Future.met_grows _ _ _ y₀).program] at h
      exact absurd (program_lt hy₀) (h ▸ Nat.lt_irrefl _)
    · rw [(Future.met_grows _ _ _ y₀').program] at h
      exact absurd (program_lt hy₀') (h ▸ Nat.lt_irrefl _)
    · rw [hf, hf']

/-! ## The first poll -/

theorem made_of_poll (hm : Made cs x m) (h : (after cs).errand? x = some (.poll f)) : ∃ waker rest,
    m.next.1 = ((after cs).store.startFuture f waker).1 ∧
      m.next.2 = ((after cs).store.startFuture f waker).2 ++ rest ∧ ∀ a ∈ rest, a.observes? = none := by
  obtain ⟨i, rfl, -, hnext⟩ | ⟨place, a, rfl, ha, -, hnext⟩ := hm.how
  · rw [hm.before] at hnext
    cases i <;> cases h
    exact ⟨none, [], by rw [hnext]; rfl, by rw [hnext, List.append_nil]; rfl, by simp⟩
  · rw [hm.before] at hnext
    have herrand : a.errand? (after cs).store = some (.poll f) := by
      simpa only [errand?, ha, Option.bind_some] using h
    obtain ⟨j, s, rfl, hjob⟩ := Activity.of_errand?_poll herrand
    have hstep : m.next = (Job.poll f s).step j (after cs).store := by
      rw [hnext, Activity.step, Executor.submit, Task.step, hjob]
    exact ⟨some j, [.polling j], by rw [hstep]; rfl, by rw [hstep]; rfl, by simp [Activity.observes?]⟩

theorem made_of_drop (hm : Made cs x m) (h : (after cs).errand? x = some (.drop f)) : ∃ σ : Store,
    σ.futures = (after cs).store.futures ∧ σ.runs = (after cs).store.runs ∧
      σ.connections = (after cs).store.connections ∧ m.next = σ.dropFuture f := by
  obtain ⟨i, rfl, -, hnext⟩ | ⟨place, a, rfl, ha, -, hnext⟩ := hm.how
  · rw [hm.before] at hnext
    cases i <;> cases h
    exact ⟨_, rfl, rfl, rfl, hnext⟩
  · rw [hm.before] at hnext
    have herrand : a.errand? (after cs).store = some (.drop f) := by
      simpa only [errand?, ha, Option.bind_some] using h
    obtain ⟨j, rfl, hjob⟩ := Activity.of_errand?_drop herrand
    refine ⟨(after cs).store.setJob j .over, rfl, rfl, rfl, ?_⟩
    rw [hnext, Activity.step, Executor.submit, Task.step, hjob]
    rfl

/-- Programs begin for an observer only by a poll, or without being kept. -/
theorem kept_of_made (hm : Made cs x m) (h : ∀ f, (after cs).errand? x ≠ some (.poll f)) : m.starts = [] := by
  have hunobserved : ∀ {as : List Activity}, (∀ a ∈ as, a.observes? = none) → as.filterMap Activity.kept? = [] :=
    fun has => List.filterMap_eq_nil_iff.2 fun a ha => Activity.kept?_of_observes? (has a ha)
  obtain ⟨i, rfl, -, hnext⟩ | ⟨place, a, rfl, ha, -, hnext⟩ := hm.how <;> rw [hm.before] at hnext <;>
    rw [Moment.starts, hnext]
  · obtain hstep | ⟨-, ⟨p, label, cancelable, rfl⟩ | ⟨f, rfl⟩⟩ := i.step_observes (after cs).store
    · exact hunobserved hstep.calls
    · cases cancelable <;> rfl
    · exact absurd rfl (h f)
  · obtain hstep | ⟨-, j, f, s, rfl, hjob⟩ | ⟨e, i, y, rfl⟩ := a.step_observes (after cs).store
    · exact hunobserved hstep.calls
    · refine absurd ?_ (h f)
      simp [errand?, ha, Activity.errand?, hjob, Job.errand?]
    · refine hunobserved ?_
      change ∀ a ∈ ((after cs).store.report i y).2, _
      unfold Store.report
      repeat' split
      all_goals simp

/-- The programs that begin for an observer are those of fresh futures that are polled. -/
theorem starts_cases (hm : Made cs x m) :
    (∃ f y waker rest, (after cs).errand? x = some (.poll f) ∧ (after cs).store.futures[f]? = some y ∧ y.Fresh ∧
      m.next.2 = ((after cs).store.startFuture f waker).2 ++ rest ∧ m.starts = [y.program]) ∨
    m.starts = [] ∧ ∀ f y, (after cs).errand? x = some (.poll f) → (after cs).store.futures[f]? = some y →
      ¬y.Fresh := by
  by_cases h : ∃ f, (after cs).errand? x = some (.poll f)
  · obtain ⟨f, hf⟩ := h
    obtain ⟨waker, rest, -, hcalls, hrest⟩ := made_of_poll hm hf
    have hrest : rest.filterMap Activity.kept? = [] :=
      List.filterMap_eq_nil_iff.2 fun a ha => Activity.kept?_of_observes? (hrest a ha)
    have hstarts : m.starts = ((after cs).store.startFuture f waker).2.filterMap Activity.kept? := by
      rw [Moment.starts, hcalls, List.filterMap_append, hrest, List.append_nil]
    by_cases hfresh : ∃ y, (after cs).store.futures[f]? = some y ∧ y.Fresh
    · obtain ⟨y, hy, hfresh⟩ := hfresh
      refine .inl ⟨f, y, waker, rest, hf, hy, hfresh, hcalls, ?_⟩
      rw [hstarts, (Store.startFuture_of_fresh hy hfresh waker).2.2]
      rfl
    · refine .inr ⟨?_, fun f' y hf' hy h => ?_⟩
      · rw [hstarts, Store.startFuture_of_not_fresh (fun y hy h => hfresh ⟨y, hy, h⟩)]
        rfl
      · cases hf.symm.trans hf'
        exact hfresh ⟨y, hy, h⟩
  · exact .inr ⟨kept_of_made hm fun f hf => h ⟨f, hf⟩, fun f y hf => absurd ⟨f, hf⟩ h⟩

/-- **The program of a future begins with the first poll**, unless the future was dropped before. -/
theorem made_starts (hm : Made cs x m) (hy : (after cs).store.futures[f]? = some y) :
    y.program ∈ m.starts ↔ (after cs).errand? x = some (.poll f) ∧ y.Fresh := by
  obtain ⟨f', y', waker, rest, hf', hy', hfresh, -, hstarts⟩ | ⟨hnone, hnot⟩ := starts_cases hm
  · rw [hstarts, List.mem_singleton, hf']
    constructor
    · intro hprogram
      cases program_unique hy hy' hprogram.symm
      cases hy.symm.trans hy'
      exact ⟨rfl, hfresh⟩
    · rintro ⟨heq, -⟩
      cases heq
      cases hy.symm.trans hy'
      rfl
  · rw [hnone]
    exact iff_of_false List.not_mem_nil fun h => hnot f y h.1 hy h.2

/-- The kept programs that began to run for an observer, or are about to. -/
def started (S : Session) : List ProgramId := S.past.flatMap Moment.starts

/-- When the program of a future has begun, the future was polled. -/
theorem met_of_started (hy : (after cs).store.futures[f]? = some y) (h : y.program ∈ (after cs).started) :
    Met f cs := by
  obtain ⟨m, hm, hp⟩ := List.mem_flatMap.1 h
  obtain ⟨later, earlier, hpast⟩ := List.append_of_mem hm
  obtain ⟨cs₂, x, cs₁, rfl, -, hmade⟩ := exists_made hpast
  obtain ⟨f', y', -, -, herrand, hy', -, -, hstarts⟩ | ⟨hnone, -⟩ := starts_cases hmade
  · obtain ⟨y'', hy'', hgrows⟩ := future_later hy' (cs₂ ++ [x])
    rw [List.append_assoc] at hy''
    rw [hstarts, List.mem_singleton] at hp
    cases program_unique hy hy'' (hgrows.program.trans hp.symm)
    exact ⟨.poll f, rfl, x, cs₁, List.suffix_append _ _, (Array.getElem?_eq_some_iff.1 hy').1, herrand⟩
  · rw [hnone] at hp
    cases hp

/-- **No program of a future begins twice.** -/
theorem started_nodup (cs : List Choice) : (after cs).started.Nodup := by
  induction cs with
  | nil => exact List.nodup_nil
  | cons x cs ih =>
    obtain hsame | ⟨m, hm⟩ := made_or cs x
    · rwa [hsame]
    · rw [started, hm.past, List.flatMap_cons, ← started]
      obtain ⟨f, y, -, -, -, hy, hfresh, -, hstarts⟩ | ⟨hnone, -⟩ := starts_cases hm
      · rw [hstarts]
        exact List.nodup_cons.2 ⟨fun h => (fresh_iff hy).1 hfresh (met_of_started hy h), ih⟩
      · rwa [hnone]

/-! ## The run of a future -/

theorem Made.comes_iff {a : Activity} (hm : Made cs x m) :
    (after (x :: cs)).Comes a ↔ a ∈ m.next.2 ∨ (after cs).Comes a := by
  obtain ⟨i, rfl, -, hnext⟩ | ⟨place, b, rfl, hb, -, hnext⟩ := hm.how <;> rw [hnext, hm.before]
  · exact comes_input
  · rw [after, step_call hb]
    exact comes_call hb

theorem Made.mem_calls {a : Activity} (hm : Made cs x m) (ha : a ∈ m.next.2) : a ∈ (after (x :: cs)).calls := by
  obtain ⟨i, rfl, -, hnext⟩ | ⟨place, b, rfl, hb, -, hnext⟩ := hm.how <;> rw [hnext, hm.before] at ha
  · exact List.mem_append_left _ ha
  · rw [after, step_call hb]
    exact List.mem_append_left _ ha

/-- **The run of a future is that of its program**, under a connection. -/
theorem start_of_run (hy : (after cs).store.futures[f]? = some y) (hr : y.run = some r) :
    ∃ c, (after cs).Comes (.start (.token (.cleanup (.program y.program))) (some c) (.observer r)) := by
  induction cs generalizing y with
  | nil => exact absurd (Array.getElem?_eq_some_iff.1 hy).1 (Nat.not_lt_zero _)
  | cons x cs ih =>
    obtain ⟨y₀, hy₀, rfl⟩ | ⟨-, rfl, -, -⟩ := future_cases hy
    · have hprogram := (Future.met_grows (after cs).store.runs.size f ((after cs).errand? x) y₀).program
      rw [hprogram]
      have hold : y₀.run = some r → ∃ c, (after (x :: cs)).Comes
          (.start (.token (.cleanup (.program y₀.program))) (some c) (.observer r)) := fun hr₀ => by
        obtain ⟨c, hc⟩ := ih hy₀ hr₀
        obtain hsame | ⟨m, hm⟩ := made_or cs x
        · exact ⟨c, hsame ▸ hc⟩
        · exact ⟨c, hm.comes_iff.2 (.inr hc)⟩
      by_cases hpoll : (after cs).errand? x = some (.poll f) ∧ y₀.Fresh
      · obtain ⟨hpoll, hfresh⟩ := hpoll
        obtain hsame | ⟨m, hm⟩ := made_or cs x
        · rw [hsame, hy₀] at hy
          exact hold ((congrArg Future.run (Option.some.inj hy)).trans hr)
        · obtain ⟨waker, rest, -, hcalls, -⟩ := made_of_poll hm hpoll
          have hrun : r = (after cs).store.runs.size := by
            rw [hpoll] at hr
            simpa [Future.met, Errand.future, Errand.leave, hfresh] using hr.symm
          refine ⟨(after cs).store.connections.size, hm.comes_iff.2 (.inl ?_)⟩
          rw [hcalls, (Store.startFuture_of_fresh hy₀ hfresh waker).2.2, hrun]
          exact List.mem_append_left _ (.head _)
      · exact hold ((Future.met_run fun h => hpoll h).symm.trans hr)
    · cases hr

/-- A run begins once. -/
theorem start_unique {n n' : Node} {link link' : Link} (h : (after cs).Comes (.start n link (.observer r)))
    (h' : (after cs).Comes (.start n' link' (.observer r))) : n' = n ∧ link' = link := by
  have hall : ∀ {a : Activity}, (after cs).Comes a ↔ a ∈ (after cs).past.filterMap Moment.call ++ (after cs).calls := by
    intro a
    simp [Comes, or_comm]
  have hobserved : (after cs).observed =
      ((after cs).past.filterMap Moment.call ++ (after cs).calls).filterMap Activity.observes? := by
    rw [observed, List.filterMap_append, List.filterMap_filterMap]
    rfl
  have hnodup := (observing cs).nodup
  rw [hobserved, List.map_filterMap] at hnodup
  have hapart := List.pairwise_filterMap.1 hnodup
  have : Std.Symm fun a a' : Activity => ∀ i, a.observes?.map Prod.fst = some i →
      ∀ i', a'.observes?.map Prod.fst = some i' → i ≠ i' := ⟨fun a a' h i hi i' hi' => (h i' hi' i hi).symm⟩
  by_contra hne
  refine hapart.forall (hall.1 h) (hall.1 h') (fun heq => ?_) r rfl r rfl rfl
  cases heq
  exact hne ⟨rfl, rfl⟩

/-! ## The result of a future -/

theorem Made.isSilent (hm : Made cs x m) (r : RunId) :
    (after (x :: cs)).store.isSilent r = ((after cs).store.isSilent r || m.isSilent r) := by
  have hnone : ∀ {next : Next}, next.1.runs = (after cs).store.runs ∨ next.Observes (after cs).store →
      next.1.isSilent r = (after cs).store.isSilent r := by
    rintro next (hruns | hnext)
    · rw [Store.isSilent, hruns, Store.isSilent]
    · obtain ⟨run, -, -, hempty, hruns, -⟩ := hnext.begins
      rw [Store.isSilent, hruns, Store.isSilent, Array.getElem?_push]
      split
      · rename_i h
        simp [h, hempty.2]
      · rfl
  have hother : (∀ e y, m.call ≠ some (.deliver e (.observer r) y)) → m.isSilent r = false := fun hnot =>
    Bool.eq_false_iff.2 fun h => by
      obtain ⟨e, y, -, hcall, -⟩ := Moment.isSilent_iff.1 h
      exact hnot e y hcall
  rw [hm.store]
  obtain ⟨i, -, hcall, hnext⟩ | ⟨place, a, -, ha, hcall, hnext⟩ := hm.how
  · rw [hother fun e y h => absurd (hcall.symm.trans h) nofun, Bool.or_false, hnext, hm.before]
    exact hnone ((i.step_observes _).imp Next.Unobserved.runs And.left)
  · by_cases hreport : ∃ e i y, a = .deliver e (.observer i) y
    · obtain ⟨e, i, y, rfl⟩ := hreport
      obtain ⟨call, before, next⟩ := m
      obtain rfl : call = _ := hcall
      obtain rfl : before = _ := hm.before
      rw [hnext]
      exact Store.report_isSilent r i e y _ next
    · rw [hnext, hm.before, hother fun e y h => hreport ⟨e, r, y, Option.some.inj (hcall.symm.trans h)⟩,
        Bool.or_false]
      obtain h | h | h := a.step_observes (after cs).store
      · exact hnone (.inl h.runs)
      · exact hnone (.inr h.1)
      · exact absurd h hreport

/-- **A run is silent when its execution has ended silently.** -/
theorem isSilent_iff (r : RunId) (cs : List Choice) :
    (after cs).store.isSilent r = true ↔ ∃ m ∈ (after cs).past, m.isSilent r = true := by
  induction cs with
  | nil => exact iff_of_false Bool.false_ne_true fun h => List.not_mem_nil h.choose_spec.1
  | cons x cs ih =>
    obtain hsame | ⟨m, hm⟩ := made_or cs x
    · rw [hsame, ih]
    · rw [hm.isSilent, hm.past, Bool.or_eq_true, ih, List.exists_mem_cons_iff, or_comm]

/-- The execution of a run delivers once. -/
theorem delivered_unique {m' : Moment} {e e' : ExecutionId} {z z' : Result} (hm : m ∈ (after cs).past)
    (hcall : m.call = some (.deliver e (.observer r) z)) (hm' : m' ∈ (after cs).past)
    (hcall' : m'.call = some (.deliver e' (.observer r) z')) : m' = m := by
  cases observer_unique (began_of_delivered hm hcall).1 (began_of_delivered hm' hcall').1
  have hle : (after cs).delivered e ≤ 1 := by
    have hledger := ledger e cs
    unfold holders at hledger
    split at hledger <;> omega
  have hdelivers : m.delivers e = true := by simp [Moment.delivers, hcall]
  have hdelivers' : m'.delivers e = true := by simp [Moment.delivers, hcall']
  obtain ⟨later, earlier, hpast⟩ := List.append_of_mem hm
  rw [delivered, hpast, List.countP_append, List.countP_cons_of_pos (p := fun m : Moment => m.delivers e) hdelivers] at hle
  rw [hpast] at hm'
  have hpos : ∀ {ms : List Moment}, m' ∈ ms → 0 < ms.countP fun m => m.delivers e := fun h =>
    List.countP_pos_iff.2 ⟨m', h, hdelivers'⟩
  obtain hm' | hm' := List.mem_append.1 hm'
  · have := hpos hm'
    omega
  · obtain rfl | hm' := List.mem_cons.1 hm'
    · rfl
    · have := hpos hm'
      omega

/-- A run whose execution has ended does not wait. -/
theorem waitsAt_of_delivered {e : ExecutionId} {z : Result} (hm : m ∈ (after cs).past)
    (hcall : m.call = some (.deliver e (.observer r) z)) : (after cs).store.waitsAt r = none := by
  by_contra hwaits
  obtain ⟨b, hb⟩ := Option.ne_none_iff_exists'.1 hwaits
  obtain ⟨l, hl, hsink⟩ := Store.of_waitsAt hb
  have hbegan : (after cs).Began l.id (.observer r) := hsink ▸ (entrusted cs).1 b l hl
  have hid : l.id = e := observer_unique (began_of_delivered hm hcall).1 hbegan
  have hledger := ledger e cs
  have hdelivered : 0 < (after cs).delivered e :=
    List.countP_pos_iff.2 ⟨m, hm, by simp [Moment.delivers, hcall]⟩
  have hparked : 0 < (after cs).parked e := by
    obtain ⟨hlt, hcell⟩ := Array.getElem?_eq_some_iff.1 hl
    exact Array.countP_pos_iff.2 ⟨_, Array.getElem_mem hlt, by simp [hcell, Boundary.parks, hid]⟩
  unfold holders at hledger
  split at hledger <;> omega

/-- A run that begins is there. -/
theorem runLink?_of_start {n : Node} {link : Link} (h : (after cs).Comes (.start n link (.observer r))) :
    (after cs).store.runLink? r = some link := by
  refine (observing cs).there (r, link) ?_
  rcases h with h | ⟨m, hm, hcall⟩
  · exact List.mem_append_right _ (List.mem_filterMap.2 ⟨_, h, rfl⟩)
  · exact List.mem_append_left _ (List.mem_filterMap.2 ⟨m, hm, by rw [Moment.observes?, hcall]; rfl⟩)

/-- A run whose boundary is held can deliver unless it has ended silently. -/
theorem canDeliver_eq_false_iff {held : Std.HashSet Object} {link : Link}
    (hrun : (after cs).store.runLink? r = some link)
    (hheld : ∀ b l, (after cs).store.boundary? b = some (.parked l) → l.sink = .observer r →
      held.contains (.boundary b) = true) :
    (after cs).store.canDeliver held r = false ↔ (after cs).store.isSilent r = true := by
  obtain ⟨run, hrun, -⟩ := Option.map_eq_some_iff.1 hrun
  rw [Store.isSilent, hrun, Option.any_some]
  cases hwaits : (after cs).store.waitsAt r with
  | some b =>
    obtain ⟨l, hl, hsink⟩ := Store.of_waitsAt hwaits
    rw [Store.canDeliver, hwaits]
    refine iff_of_false (fun h => absurd ((hheld b l hl hsink).symm.trans h) nofun) fun hsilent => ?_
    obtain ⟨m, hm, hsilent⟩ := (isSilent_iff r cs).1 (by rw [Store.isSilent, hrun]; exact hsilent)
    obtain ⟨e, x, -, hcall, -⟩ := Moment.isSilent_iff.1 hsilent
    cases hwaits.symm.trans (waitsAt_of_delivered hm hcall)
  | none =>
    rw [Store.canDeliver, hwaits, hrun, Option.any_some, Bool.not_eq_false']

/-- A run has given a result or not. -/
theorem results_cases (r : RunId) (cs : List Choice) :
    (after cs).store.results r = [] ∨ ∃ z, (after cs).store.results r = [z] := by
  have hle := results_le r cs
  rw [Nat.le_one_iff_eq_zero_or_eq_one, List.length_eq_zero_iff, List.length_eq_one_iff] at hle
  exact hle

/-- A run gives the result that its execution has delivered, if it was not silent. -/
theorem results_iff {z : Result} : (after cs).store.results r = [z] ↔ ∃ m ∈ (after cs).past, ∃ e run,
    m.call = some (.deliver e (.observer r) z) ∧ m.before.runs[r]? = some run ∧
      m.before.silences run z = false := by
  have hmem : z ∈ (after cs).store.results r ↔ ∃ m ∈ (after cs).past, m.report? r = some z := by
    rw [results_eq, List.mem_reverse, List.mem_filterMap]
  constructor
  · intro hz
    obtain ⟨m, hm, hreport⟩ := hmem.1 (hz ▸ List.mem_singleton_self z)
    exact ⟨m, hm, Moment.of_report? hreport⟩
  · rintro ⟨m, hm, e, run, hcall, hrun, hs⟩
    have hz := hmem.2 ⟨m, hm, by simp [Moment.report?, hcall, hrun, hs]⟩
    obtain hresults | ⟨x, hresults⟩ := results_cases r cs
    · exact (List.not_mem_nil (hresults ▸ hz)).elim
    · rw [hresults, List.mem_singleton] at hz
      rw [hresults, hz]

/-- A run that was silent has given no result. -/
theorem results_of_isSilent (h : (after cs).store.isSilent r = true) : (after cs).store.results r = [] := by
  refine (results_cases r cs).resolve_right ?_
  rintro ⟨z, hresults⟩
  obtain ⟨m, hm, hsilent⟩ := (isSilent_iff r cs).1 h
  obtain ⟨e, x, run, hcall, hrun, hs⟩ := Moment.isSilent_iff.1 hsilent
  obtain ⟨m', hm', e', run', hcall', hrun', hs'⟩ := results_iff.1 hresults
  cases delivered_unique hm hcall hm' hcall'
  cases hcall.symm.trans hcall'
  cases hrun.symm.trans hrun'
  cases hs.symm.trans hs'

/-- A run was always under its connection. -/
theorem link_of_past {run : Run} {link : Link} (hlink : (after cs).store.runLink? r = some link)
    (hm : m ∈ (after cs).past) (hrun : m.before.runs[r]? = some run) : run.link = link := by
  obtain ⟨later, earlier, hpast⟩ := List.append_of_mem hm
  obtain ⟨cs₂, x, cs₁, rfl, -, hmade⟩ := exists_made hpast
  rw [hmade.before] at hrun
  have hbefore := runLink?_after cs₁ (cs₂ ++ [x]) (congrArg (Option.map Run.link) hrun)
  rw [List.append_assoc] at hbefore
  exact Option.some.inj (hbefore.symm.trans hlink)

/-- **A future is ready when the execution of its run has ended**, and gives what that delivered, or
cancellation if it was silent. `held` are the objects that somebody holds, which are those that last while
nothing is being called: the boundary at which the run waits is one of them, as long as nobody drops what
completes it. -/
theorem ready_iff {held : Std.HashSet Object} (hy : (after cs).store.futures[f]? = some y) (hr : y.run = some r)
    (hfinished : y.finished = false) (hc : (after cs).store.runLink? r = some (some c))
    (hheld : ∀ b l, (after cs).store.boundary? b = some (.parked l) → l.sink = .observer r →
      held.contains (.boundary b) = true) (z : Result) :
    (after cs).store.futureResultIf ((after cs).store.canDeliver held) f = some z ↔
      ∃ m ∈ (after cs).past, ∃ e x run, m.call = some (.deliver e (.observer r) x) ∧
        m.before.runs[r]? = some run ∧ run.link = some c ∧
          z = if m.before.silences run x then .error .cancelled else x := by
  obtain ⟨p, run, finished⟩ := y
  cases hr
  cases hfinished
  have hresult : (after cs).store.futureResultIf ((after cs).store.canDeliver held) f =
      ((after cs).store.results r).head?.or
        (if (after cs).store.canDeliver held r then none else some (.error .cancelled)) := by
    cases hresults : (after cs).store.results r <;> rw [Store.results] at hresults <;>
      simp only [Store.futureResultIf, hy, hresults] <;> rfl
  have hcan := canDeliver_eq_false_iff hc hheld
  rw [hresult]
  constructor
  · intro hz
    obtain hresults | ⟨x, hresults⟩ := results_cases r cs
    · rw [hresults, List.head?_nil, Option.none_or] at hz
      split at hz
      · cases hz
      · rename_i hno
        obtain rfl := Option.some.inj hz
        obtain ⟨m, hm, hsilent⟩ := (isSilent_iff r cs).1 (hcan.1 (Bool.eq_false_iff.2 hno))
        obtain ⟨e, x, run, hcall, hrun, hs⟩ := Moment.isSilent_iff.1 hsilent
        exact ⟨m, hm, e, x, run, hcall, hrun, link_of_past hc hm hrun, by rw [hs]; rfl⟩
    · rw [hresults] at hz
      obtain rfl := Option.some.inj hz
      obtain ⟨m, hm, e, run, hcall, hrun, hs⟩ := results_iff.1 hresults
      exact ⟨m, hm, e, x, run, hcall, hrun, link_of_past hc hm hrun, by rw [hs]; rfl⟩
  · rintro ⟨m, hm, e, x, run, hcall, hrun, -, rfl⟩
    cases hs : m.before.silences run x with
    | true =>
      have hsilent := (isSilent_iff r cs).2 ⟨m, hm, Moment.isSilent_iff.2 ⟨e, x, run, hcall, hrun, hs⟩⟩
      simp only [results_of_isSilent hsilent, hcan.2 hsilent]
      rfl
    | false =>
      rw [results_iff.2 ⟨m, hm, e, run, hcall, hrun, hs⟩]
      rfl

/-! ## Dropping a future -/

/-- A future with a run was polled. -/
theorem happened_of_run (hy : (after cs).store.futures[f]? = some y) (hr : y.run = some r) :
    Happened (.poll f) cs := by
  induction cs generalizing y with
  | nil => exact absurd (Array.getElem?_eq_some_iff.1 hy).1 (Nat.not_lt_zero _)
  | cons x cs ih =>
    rw [happened_cons]
    obtain ⟨y₀, hy₀, rfl⟩ | ⟨-, rfl, -, -⟩ := future_cases hy
    · by_cases hpoll : (after cs).errand? x = some (.poll f) ∧ y₀.Fresh
      · exact .inl ⟨(Array.getElem?_eq_some_iff.1 hy₀).1, hpoll.1⟩
      · exact .inr (ih hy₀ ((Future.met_run hpoll).symm.trans hr))
    · cases hr

/-- To drop a future that is over, or was never polled, cancels nothing. -/
theorem dropped_idle (hm : Made cs x m) (hx : (after cs).errand? x = some (.drop f))
    (hy : (after cs).store.futures[f]? = some y) (h : y.finished = true ∨ y.run = none) :
    m.next.2 = [] ∧ m.next.1.connections = (after cs).store.connections := by
  obtain ⟨σ, hfutures, -, hconnections, hnext⟩ := made_of_drop hm hx
  rw [hnext, Store.dropFuture_of_idle (hfutures ▸ hy) h]
  exact ⟨rfl, hconnections⟩

/-- To drop a future that is under way cancels the connection of its run. -/
theorem dropped_linked (hm : Made cs x m) (hx : (after cs).errand? x = some (.drop f))
    (hy : (after cs).store.futures[f]? = some y) (hfinished : y.finished = false) (hr : y.run = some r)
    (hc : (after cs).store.runLink? r = some (some c)) :
    m.next.2 = [.start (.token (.connection (some c))) none (.warn .droppedFuture)] := by
  obtain ⟨σ, hfutures, hruns, -, hnext⟩ := made_of_drop hm hx
  rw [hnext]
  refine Store.dropFuture_of_linked (hfutures ▸ hy) hfinished ?_
  obtain ⟨run, hrun, hlink⟩ := Option.map_eq_some_iff.1 hc
  rw [Store.futureLink, hr, Option.bind_some, hruns, hrun, Option.bind_some, hlink]

/-- The connection is cancelled, or an execution is about to cancel it. -/
def Cancelling (c : ConnectionId) (k : Sink) (S : Session) : Prop :=
  S.store.isCancelled (some c) = true ∨ .start (.token (.connection (some c))) none k ∈ S.calls ∨
    ∃ e, .work (.looking (.token (.connection (some c)))) ⟨e, none, [], k⟩ ∈ S.calls

/-- **An execution that is begun to cancel a connection does so**, as soon as it has taken its first steps. -/
theorem cancelling_later {k : Sink} (h : (after cs₀).Cancelling c k) (hc : c < (after cs₀).store.connections.size)
    (cs : List Choice) : (after (cs ++ cs₀)).Cancelling c k := by
  induction cs with
  | nil => exact h
  | cons x cs ih =>
    rw [List.cons_append]
    obtain hcancelled | hstart | ⟨e, hwork⟩ := ih
    · exact .inl ((after_grows (cs ++ cs₀) [x]).cancelled _ hcancelled)
    · obtain hstays | ⟨place, rfl, hcall⟩ := call_next hstart x
      · exact .inr (.inl hstays)
      · refine .inr (.inr ⟨(after (cs ++ cs₀)).store.executions, ?_⟩)
        rw [after, step_call hcall]
        exact List.mem_append_left _ (.head _)
    · obtain hstays | ⟨place, rfl, hcall⟩ := call_next hwork x
      · exact .inr (.inr ⟨e, hstays⟩)
      · refine .inl ?_
        have hlt := Nat.lt_of_lt_of_le hc (connections_le cs₀ cs)
        rw [after, step_call hcall, record_store, Activity.step_cancels]
        exact Store.isCancelled_cancel hlt

/-- The connection of a run is there. -/
theorem connection_lt_of_start {n : Node} (h : (after cs).Comes (.start n (some c) (.observer r))) :
    c < (after cs).store.connections.size := by
  have hseat : ⟨some c, .observer r, n⟩ ∈ (after cs).seats := by
    rcases h with h | ⟨m, hm, hcall⟩
    · exact List.mem_append_right _ (List.mem_append_left _ (List.mem_filterMap.2 ⟨_, h, rfl⟩))
    · exact List.mem_append_left _ (List.mem_filterMap.2 ⟨m, hm, by rw [Moment.seat?, hcall]; rfl⟩)
  obtain ⟨c', hc, hlt, -⟩ := (seated cs).there _ hseat
  cases hc
  exact hlt

/-- **The life of a future.** Take any future, and anything that was done to it.
* Its program begins at most once: with the first poll, if nothing was done to the future before, and so never if
  it was dropped before.
* Before the first poll it is not ready.
* To drop a future cancels nothing if it was given up or has given its result before, or was never polled.
* Once it was polled, and before it has given its result or is dropped, it has a run of its program under a
  connection of its own. It is ready exactly when the execution of that has ended: with the result that was
  delivered, or with cancellation if that was silent, because the connection was cancelled. This is so as long
  as somebody holds whatever completes the boundary at which the run waits, among the objects `held`. And to
  drop the future begins an execution that cancels the connection. -/
theorem future_life (hy : (after cs).store.futures[f]? = some y) :
    ((after cs).started.count y.program ≤ 1 ∧ ∀ x m, Made cs x m →
      (y.program ∈ m.starts ↔ (after cs).errand? x = some (.poll f) ∧ ¬Met f cs)) ∧
    (¬Met f cs → ∀ delivers, (after cs).store.futureResultIf delivers f = none) ∧
    (Happened (.finish f) cs ∨ Happened (.drop f) cs ∨ ¬Happened (.poll f) cs → ∀ x m, Made cs x m →
      (after cs).errand? x = some (.drop f) →
        m.next.2 = [] ∧ m.next.1.connections = (after cs).store.connections) ∧
    (Happened (.poll f) cs → ¬Happened (.finish f) cs → ¬Happened (.drop f) cs → ∃ r c,
      y.run = some r ∧
      (∀ n link, (after cs).Comes (.start n link (.observer r)) ↔
        n = .token (.cleanup (.program y.program)) ∧ link = some c) ∧
      (∀ held : Std.HashSet Object, (∀ b l, (after cs).store.boundary? b = some (.parked l) →
          l.sink = .observer r → held.contains (.boundary b) = true) →
        ∀ z, (after cs).store.futureResultIf ((after cs).store.canDeliver held) f = some z ↔
          ∃ m ∈ (after cs).past, ∃ e x run, m.call = some (.deliver e (.observer r) x) ∧
            m.before.runs[r]? = some run ∧ run.link = some c ∧
              z = if m.before.silences run x then .error .cancelled else x) ∧
      ∀ x m, Made cs x m → (after cs).errand? x = some (.drop f) →
        m.next.2 = [.start (.token (.connection (some c))) none (.warn .droppedFuture)] ∧
          ∀ cs', (after (cs' ++ x :: cs)).Cancelling c (.warn .droppedFuture)) := by
  refine ⟨⟨List.nodup_iff_count_le_one.1 (started_nodup cs) _, fun x m hm => ?_⟩, fun hmet delivers => ?_,
    fun hidle x m hm hx => dropped_idle hm hx hy ?_, fun hpoll hfinish hdrop => ?_⟩
  · rw [made_starts hm hy, fresh_iff hy]
  · obtain ⟨p, run, finished⟩ := y
    obtain ⟨rfl, rfl⟩ := (fresh_iff hy).2 hmet
    simp only [Store.futureResultIf, hy]
  · rw [← or_assoc, ← finished_iff hy] at hidle
    refine hidle.imp_right fun hpoll => Option.eq_none_iff_forall_ne_some.2 fun r hr => ?_
    exact hpoll (happened_of_run hy hr)
  · have hfinished : y.finished = false := Bool.eq_false_iff.2 fun h =>
      ((finished_iff hy).1 h).elim hfinish hdrop
    have hrun : y.run ≠ none := fun hr => (fresh_iff hy).1 ⟨hr, hfinished⟩ ⟨_, rfl, hpoll⟩
    obtain ⟨r, hr⟩ := Option.ne_none_iff_exists'.1 hrun
    obtain ⟨c, hstart⟩ := start_of_run hy hr
    have hlink := runLink?_of_start hstart
    refine ⟨r, c, hr, fun n link => ⟨start_unique hstart, ?_⟩,
      fun held hheld => ready_iff hy hr hfinished hlink hheld, fun x m hm hx => ?_⟩
    · rintro ⟨rfl, rfl⟩
      exact hstart
    · have hcalls := dropped_linked hm hx hy hfinished hr hlink
      have hlt := Nat.lt_of_lt_of_le (connection_lt_of_start hstart) (connections_le cs [x])
      refine ⟨hcalls, cancelling_later (.inr (.inl (hm.mem_calls ?_))) hlt⟩
      rw [hcalls]
      exact .head _

/-- A future of a value was polled, and its run has ended. -/
def pollsValue : List Choice :=
  List.replicate 5 (.call 0) ++ [.input (.startFuture 0), .input (.future (.pure (.int 1)))]

/-- The value is ready, and to drop the future cancels the connection of its run. -/
theorem value_is_ready :
    (after pollsValue).store.futures[0]? = some ⟨0, some 0, false⟩ ∧
      (∀ held : Std.HashSet Object, (after pollsValue).store.futureResultIf
        ((after pollsValue).store.canDeliver held) 0 = some (.ok (.int 1))) ∧
      (after (.input (.dropFuture 0) :: pollsValue)).calls =
        [.start (.token (.connection (some 0))) none (.warn .droppedFuture)] ∧
      (after (.call 0 :: .call 0 :: .input (.dropFuture 0) :: pollsValue)).Cancelling 0 (.warn .droppedFuture) := by
  have hy : (after pollsValue).store.futures[0]? = some ⟨0, some 0, false⟩ := rfl
  have hover := (finished_iff hy).not.1 nofun
  have hpolled : Happened (.poll 0) pollsValue :=
    ⟨.input (.startFuture 0), [.input (.future (.pure (.int 1)))], List.suffix_append _ _, Nat.one_pos, rfl⟩
  obtain ⟨-, -, -, hlife⟩ := future_life hy
  obtain ⟨r, c, hr, hstart, hready, hdrop⟩ := hlife hpolled (fun h => hover (.inl h)) fun h => hover (.inr h)
  cases hr
  obtain ⟨-, hc⟩ := (hstart (.token (.cleanup (.program 0))) (some 0)).1
    (.inr ⟨_, .tail _ (.tail _ (.tail _ (.tail _ (.head _)))), rfl⟩)
  cases hc
  refine ⟨hy, fun held => (hready held (fun b l hb => ?_) _).2
    ⟨_, .head _, 0, .ok (.int 1), ⟨none, some 0, [], false, none⟩, rfl, rfl, rfl, rfl⟩, ?_⟩
  · cases hb
  · obtain ⟨hcalls, hcancels⟩ := hdrop (.input (.dropFuture 0)) _ ⟨rfl, rfl, rfl, .inl ⟨_, rfl, rfl, rfl⟩⟩ rfl
    exact ⟨hcalls, hcancels [.call 0, .call 0]⟩

end Session

end CancelableEffects
