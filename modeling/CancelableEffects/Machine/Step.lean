import CancelableEffects.Machine.Future
import CancelableEffects.Machine.Loop
import CancelableEffects.Machine.Sink

/-!
# Steps — what one call does

* `Code.move`: one move of a user's closure.
* `Loop.step`: one step of a loop at work.
* `Activity.step`: one step of the machine: the store it leaves and the calls that take the place
  of the one on top.

A loop asks its connection before every node it looks at, and nowhere else: once the connection was
cancelled, the loop ends with the error of cancellation and its frames are dropped.
-/

namespace CancelableEffects

/-! ## Closures -/

/-- One move of a closure: the calls it makes, and its end or what is left of it. -/
def Code.move {α : Type} : Code Prog α → Store → Next × (Except String α ⊕ Code Prog α)
  | .ret a, σ => ((σ, []), .inl (.ok a))
  | .panic m, σ => ((σ, []), .inl (.error m))
  | .log s next, σ => ((σ.emit (.line s), []), .inr next)
  | .read x next, σ => ((σ, []), .inr (next (σ.getVariable x)))
  | .write x v next, σ => ((σ.setVariable x v, []), .inr next)
  | .launch p next, σ => ((σ, [.start (.program p) none .discard]), .inr next)
  | .answer c r next, σ => (σ.answer c r, .inr next)
  | .push link p next, σ => (σ.pushProgram link p, .inr next)
  | .keep p next, σ =>
    let (σ, i) := σ.keep p
    ((σ, []), .inr (next i))

/-- A closure makes one move. `again` is the call with what is left of it, and `done` tells what
follows its end. -/
def Code.advance {α : Type} (again : Code Prog α → Activity)
    (done : Except String α → Store → Next) (c : Code Prog α) (σ : Store) : Next :=
  let ((σ, calls), x) := c.move σ
  match x with
  | .inl r => done r σ
  | .inr c => (σ, calls ++ [again c])

/-- A closure of a loop makes one move. `again` is the stage with what is left of it, and `done` the
one that follows its end. -/
def Code.turn {α : Type} (again : Code Prog α → Stage) (done : Except String α → Stage)
    (c : Code Prog α) (link : Link) (σ : Store) : Turn :=
  let ((σ, calls), x) := c.move σ
  let stage := match x with
    | .inl r => done r
    | .inr c => again c
  { store := σ, calls, stage, link }

/-! ## Loops -/

/-- What follows when the closure of a delay has ended. -/
def Stage.delayed : Except String (Except Error Value) → Stage
  | .ok r => .handing r
  | .error m => .handing (.error (.panic m))

/-- What follows when a closure has ended that computes the next program. -/
def Stage.suspended : Except String Prog → Stage
  | .ok p => .looking (.program p)
  | .error m => .looking (.result (.error (.panic m)))

/-- What follows when a closure has ended that transforms a value. -/
def Stage.mapped : Except String Value → Stage
  | .ok v => .handing (.ok v)
  | .error m => .handing (.error (.panic m))

/-- One step of a loop at work. -/
def Loop.step (s : Stage) (l : Loop) (σ : Store) : Next :=
  match s with
  | .looking n =>
    if σ.isCancelled l.link then (σ, [.deliver l.id l.sink (.error .cancelled)])
    else (n.step l.id l.link σ).on l
  | .handing r =>
    match l.stack with
    | [] => (σ, [.deliver l.id l.sink r])
    | f :: fs => (f.resume r l.link σ).on { l with stack := fs }
  | .delaying c => (c.turn .delaying .delayed l.link σ).on l
  | .suspending c => (c.turn .suspending .suspended l.link σ).on l
  | .mapping c => (c.turn .mapping .mapped l.link σ).on l
  | .leaving b => σ.leave b l

/-! ## Calls -/

/-- What follows when the registration of a boundary has ended: a panic completes it. -/
def Store.registered (b : BoundaryId) (o : Except String Unit) (σ : Store) : Next :=
  match o with
  | .ok _ => (σ, [])
  | .error m => (σ, [.complete (.callback b) (.error (.panic m))])

/-- What follows when the registration of a step has ended: it gave the clean-up, or a panic
completes it. -/
def Store.registeredStep (s : StepId) (o : Except String Prog) (σ : Store) : Next :=
  match o with
  | .ok p =>
    let (σ, i) := σ.keep p
    (σ, [.fillSlot s (.program i)])
  | .error m => (σ, [.complete (.step s .user) (.error (.panic m))])

/-- What follows when a closure of the outside world has ended. -/
def Store.called (s : StepId) (o : Except String Value) (σ : Store) : Next :=
  match o with
  | .ok v => (σ, [.complete (.step s .job) (.ok v)])
  | .error m => (σ, [.complete (.step s .job) (.error (.panic m))])

/-- One step of a machine: the store it leaves and the calls that take the place of this one. -/
def Activity.step (a : Activity) (σ : Store) : Next :=
  match a with
  | .start n link k =>
    let (σ, l) := σ.begin link k
    (σ, [.work (.looking n) l])
  | .work s l => l.step s σ
  | .registering c b => c.advance (.registering · b) (Store.registered b) σ
  | .registeringStep c s => c.advance (.registeringStep · s) (Store.registeredStep s) σ
  | .fillSlot s c => σ.fillSlot s c
  | .deliver _ k r => k.receive r σ
  | .complete c r => c.complete r σ
  | .notify f (.step s) o => (σ, [.complete (.step s (.outcome f)) (.ok (.outcome o))])
  | .notify _ (.duel k x) o => σ.endDuel k x o
  | .listen f l =>
    let (σ, answer) := σ.listen f l
    (σ, match answer with
      | some (.inr o) => [.notify f l o]
      | _ => [])
  | .execute on t => on.submit t σ
  | .startRight left q on parent k =>
    let ((σ, calls), right) := σ.startFiber q on
    (σ, calls ++ [.tie left right parent k])
  | .tie left right parent k =>
    let σ := σ.modifyDuel k fun _ => some { parent, left, right }
    let (σ, pushed) := σ.push parent (.fibers left right)
    (σ, pushed ++ [.listen left (.duel k .left), .listen right (.duel k .right)])
  | .calling c s => c.advance (.calling · s) (Store.called s) σ
  | .polling j => σ.poll j

end CancelableEffects
