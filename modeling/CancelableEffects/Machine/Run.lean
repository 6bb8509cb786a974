import CancelableEffects.Machine.Step

/-!
# Runs — working on calls until nothing is left to do

* `Machine`: a store and the calls in progress, innermost first.
* `Machine.step?`, `Machine.run`: one step, and as many as the fuel allows.
* `Store.external`: what the outside world does next while everybody waits.
* `Store.await`: lets the outside world work until a condition holds.
* `Machine.run_add`: fuel can be spent in two parts.
-/

namespace CancelableEffects

/-- A store and the calls in progress, innermost first. -/
structure Machine where
  store : Store
  calls : List Activity

namespace Machine

/-- One step of the innermost call; there is none when nothing is being called. -/
def step? (m : Machine) : Option Machine :=
  match m with
  | ⟨_, []⟩ => none
  | ⟨σ, a :: calls⟩ =>
    let (σ, new) := a.step σ
    some ⟨σ, new ++ calls⟩

/-- At most `fuel` steps. -/
def run : Nat → Machine → Machine
  | 0, m => m
  | _ + 1, ⟨σ, []⟩ => ⟨σ, []⟩
  | fuel + 1, ⟨σ, a :: calls⟩ =>
    let (σ, new) := a.step σ
    run fuel ⟨σ, new ++ calls⟩

/-- A run with fuel left is one step, if there is one, and a run of the machine it leads to. -/
theorem run_succ (fuel : Nat) (m : Machine) :
    run (fuel + 1) m = match m.step? with
      | none => m
      | some m => run fuel m := by
  obtain ⟨σ, _ | ⟨a, calls⟩⟩ := m <;> rfl

/-- Nothing happens when nothing is being called. -/
theorem run_of_step?_none {m : Machine} (h : m.step? = none) (fuel : Nat) : run fuel m = m := by
  cases fuel with
  | zero => rfl
  | succ fuel => rw [run_succ, h]

/-- Fuel can be spent in two parts. -/
theorem run_add (m n : Nat) (x : Machine) : run (m + n) x = run n (run m x) := by
  induction m generalizing x with
  | zero => simp [run]
  | succ m ih =>
    rw [Nat.succ_add, run_succ, run_succ]
    cases h : x.step? with
    | none => exact (run_of_step?_none h n).symm
    | some y => exact ih y

end Machine

/-- Makes calls until they are over. -/
def Store.exec (fuel : Nat) (calls : List Activity) (σ : Store) : Store :=
  (Machine.run fuel ⟨σ, calls⟩).store

/-- Runs a closure while nothing else is being called; each call it makes may take `fuel` steps. -/
def Code.perform {α : Type} (fuel : Nat) : Code Prog α → Store → Store × Except String α
  | .ret a, σ => (σ, .ok a)
  | .panic m, σ => (σ, .error m)
  | .log s next, σ => next.perform fuel (σ.emit (.line s))
  | .read x next, σ => (next (σ.getVariable x)).perform fuel σ
  | .write x v next, σ => next.perform fuel (σ.setVariable x v)
  | .launch p next, σ =>
    next.perform fuel (σ.exec fuel [.start (.program p) none .discard])
  | .answer c r next, σ =>
    let (σ, calls) := σ.answer c r
    next.perform fuel (σ.exec fuel calls)
  | .push link p next, σ =>
    let (σ, calls) := σ.pushProgram link p
    next.perform fuel (σ.exec fuel calls)
  | .keep p next, σ =>
    let (σ, i) := σ.keep p
    (next i).perform fuel σ

namespace Store

/-- The jobs that poll a future, with their futures. -/
def polls (σ : Store) : List (JobId × FutureId) :=
  σ.jobs.toList.zipIdx.filterMap fun
    | (.poll f _, j) => some (j, f)
    | _ => none

/-- The first job that polls a future which has a result. -/
def finishedPoll (σ : Store) : Option JobId :=
  match σ.polls with
  | [] => none
  | polls =>
    let lasting := σ.lasting
    (polls.find? fun x => (σ.futureResultIf (σ.canDeliver lasting ·) x.2).isSome).map (·.1)

/-- The earliest moment a timer waits for, and the timer. -/
def nextTimer (σ : Store) : Option (Nat × JobId) :=
  σ.jobs.toList.zipIdx.foldl (fun best x =>
    match x.1, best with
    | .timer due _, none => some (due, x.2)
    | .timer due _, some (due', j) => if due < due' then some (due, x.2) else some (due', j)
    | _, best => best) none

/-- What the outside world does next while everybody waits: it runs a ready task, notices that a
future has ended, or lets the time pass up to the next timer, if that is not past the deadline. -/
def external (deadline : Option Nat) (σ : Store) : Option Next :=
  match σ.ready with
  | t :: ts => some ({ σ with ready := ts }, [.execute .immediate t])
  | [] =>
    match σ.finishedPoll with
    | some j => some (σ, [.polling j])
    | none =>
      match σ.nextTimer with
      | none => none
      | some (due, j) =>
        if deadline.all (due ≤ ·) then
          some ({ σ with now := max σ.now due }, [.execute .immediate (.job j)])
        else none

/-- Lets the outside world work until the condition holds or nothing is left to wait for; each turn
may take `fuel` steps. -/
def await (fuel : Nat) (done : Store → Bool) (deadline : Option Nat) : Nat → Store → Store
  | 0, σ => σ
  | turns + 1, σ =>
    if done σ then σ
    else
      match σ.external deadline with
      | none => σ
      | some (σ, calls) => await fuel done deadline turns (σ.exec fuel calls)

end Store

end CancelableEffects
