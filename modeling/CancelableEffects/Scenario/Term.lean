import CancelableEffects.Program.Combinators
import CancelableEffects.Scenario.Expr

/-!
# Terms — written programs

* `Term`: the programs that a scenario can write down.
* `Term.build`: the program a term stands for. Building is itself code, since terms evaluate
  expressions while they are built; what stands after a variable is built when its value is known.
  Programs that clean up have the unit value, whatever they are written as.
* `Code.find`, `Code.takeCallback`: the objects that go by a name.
* `countFrom`, `nestHandlers`: two long programs, made without deep recursion.
-/

namespace CancelableEffects

/-! ## Named objects -/

namespace Code

variable {P α : Type}

/-- The object of the wanted kind that goes by a name. -/
def find (kind : Kind) (pick : Handle → Option α) (x : String) : Code P (Option α) := do
  return (← get ⟨kind, x⟩).bind Value.handle? |>.bind pick

/-- Takes the oldest callback that goes by a name. -/
def takeCallback (x : String) : Code P (Option CallbackId) := do
  match ← get ⟨.callback, x⟩ with
  | some (.list [.handle (.callback c)]) =>
    clear ⟨.callback, x⟩
    return some c
  | some (.list (.handle (.callback c) :: rest)) =>
    set ⟨.callback, x⟩ (.list rest)
    return some c
  | _ => return none

/-- Adds a callback to those that go by a name. -/
def putCallback (x : String) (c : CallbackId) : Code P Unit := do
  match ← get ⟨.callback, x⟩ with
  | some (.list cs) => set ⟨.callback, x⟩ (.list (cs ++ [.handle (.callback c)]))
  | _ => set ⟨.callback, x⟩ (.list [.handle (.callback c)])

/-- Takes the stored program that goes by a name. -/
def takeProgram (x : String) : Code P (Option ProgramId) := do
  match ← find .program Handle.program? x with
  | some p =>
    clear ⟨.program, x⟩
    return some p
  | none => return none

end Code

namespace Scenario

/-- How a registration leaves its callback. -/
inductive Finish where
  /-- Answers it. -/
  | now (o : Answer)
  /-- Puts it to the callbacks that go by a name. -/
  | later (name : String)
  /-- Forgets it. -/
  | never
  deriving Repr

/-- What a registration does: it logs, launches programs, leaves the callback, and may panic. -/
structure Registration where
  log : Option Expr := none
  finish : Finish := .never
  panic : Option String := none
  deriving Repr

/-- A written program. -/
inductive Term where
  | pure (a : Expr)
  | raise (x : Fault)
  | ofAnswer (o : Answer)
  | delay (a : Expr)
  | tryDelay (o : Answer)
  /-- Reads a text as an integer when it is run. -/
  | parse (s : String)
  | log (a : Expr)
  /-- Launches a program and then gives a result, in one closure. -/
  | launching (p : Term) (o : Answer)
  | suspend (p : Term)
  | flatten (p : Term)
  | never
  | async (r : Registration) (acts : List Term)
  | cancelable (r : Registration) (acts : List Term) (token : Term)
  | connected (r : Registration) (acts : List Term) (name : Option String) (tokens : List Term)
  | iterate (seed : Expr) (x : String) (step : Term)
  | map (p : Term) (x : String) (a : Expr)
  | bind (p : Term) (x : String) (q : Term)
  | seq (p q : Term)
  | map2 (p q : Term) (x y : String) (a : Expr)
  | product (p q : Term)
  | attempt (p : Term)
  | recover (p : Term) (e : String) (q : Term)
  | handle (p : Term) (e : String) (a : Expr)
  | mapError (p : Term) (e : String) (a : Fault)
  | redeem (p : Term) (e : String) (a : Expr) (x : String) (b : Expr)
  | fold (p : Term) (e : String) (q : Term) (x : String) (r : Term)
  | uncancelable (p : Term)
  /-- Transforms the value `n` times. -/
  | maps (p : Term) (n : Nat) (x : String) (a : Expr)
  /-- Goes on `n` times. -/
  | binds (p : Term) (n : Nat) (x : String) (q : Term)
  /-- Recovers `n` times. -/
  | recovers (p : Term) (n : Nat) (e : String) (q : Term)
  /-- Disables cancellation `n` times. -/
  | uncancelables (p : Term) (n : Nat)
  | countUp (n : Nat)
  | nestedHandlers (n : Nat)
  | bracket (acquire : Term) (x : String) (use : Term) (e : Option String) (release : Term)
  | guaranteeCase (p : Term) (e : String) (q : Term)
  | guarantee (p q : Term)
  | onCancel (p q : Term)
  | race (p q : Term) (on : Executor)
  | racePair (p q : Term) (on : Executor) (fiber : String)
  | both (p q : Term) (on : Executor) (x y : String) (a : Expr)
  | shift (on : Executor)
  | continueOn (p : Term) (on : Executor)
  | sleep (d : Duration)
  | timeout (p : Term) (d : Duration) (on : Executor)
  | start (p : Term) (on : Executor) (fiber : String)
  | join (fiber : String)
  | outcome (fiber : String)
  | cancelFiber (fiber : String)
  | remote (a : Expr)
  | remoteTry (o : Answer)
  | awaited (p : Term)
  | scoped (on : Executor) (scope : String) (body : Term)
  | spawn (scope : String) (p : Term) (task : String)
  | awaitTask (task : String)
  | cancelTask (task : String)
  | taskOutcome (task : String)
  | scopeSize (scope : String)
  | cancelConnection (connection : String)
  | pushToken (connection : String) (p : Term)
  | popToken (connection : String)
  | dispose (run : String)
  | complete (callback : String) (o : Answer)
  | acquire (semaphore : String) (n : Nat)
  | release (semaphore : String) (n : Nat)
  | tryAcquire (semaphore : String) (n : Nat)
  | available (semaphore : String)
  | count (semaphore : String)
  | withPermit (semaphore : String) (p : Term)
  /-- Runs the stored program that goes by a name, which is used up. -/
  | stored (name : String)
  deriving Repr

/-! ## Long programs -/

/-- Counts from `k` up by `n`, one step at a time. -/
def countFrom : Nat → Nat → Prog
  | 0, k => .pure (.int k)
  | n + 1, k => .bind (.pure (.int (k + 1 : Nat))) fun _ => .ret (countFrom n (k + 1))

/-- Adds one to an integer. -/
def increment (v : Value) : Code Prog Value := do
  return .int (Integer.wrap ((← expectInt v) + 1))

/-- A failure inside `n` handlers, each of which gives its own number, and each of which is inside
a function that adds one. -/
def nestHandlers (n : Nat) : Prog :=
  (List.range n).foldl (fun p k =>
    (Prog.recover (.suspend (.ret p)) fun _ => .ret (.pure (.int (k + 1 : Nat)))).map increment)
    (.raise (.msg "bottom"))

/-! ## Building -/

/-- The failure to find an object by its name. -/
def unknownName (x : String) : Prog := .raise (.msg ("unknown name: " ++ x))

/-- Looks an object up when it is run, and goes on with it. -/
def onObject {α : Type} (kind : Kind) (pick : Handle → Option α) (x : String)
    (f : α → Code Prog Prog) : Prog :=
  .suspend do
    match ← Code.find kind pick x with
    | some a => f a
    | none => return unknownName x

/-- Gives an object a name and the unit value in its place. -/
def nameObject (kind : Kind) (x : String) (v : Value) : Code Prog Value := do
  Code.set ⟨kind, x⟩ v
  return .unit

/-- Gives a connection a name, if there is one for it. -/
def nameConnection (x : Option String) (link : Link) : Code Prog Unit :=
  match x with
  | some x => Code.set ⟨.connection, x⟩ (.handle (.connection link))
  | none => return

/-- Gives the fiber that lost a duel a name and keeps the winner's value. -/
def nameLoser (x : String) : Value → Code Prog Value
  | .left (.pair v f) => do
    Code.set ⟨.fiber, x⟩ f
    return .left v
  | .right (.pair v f) => do
    Code.set ⟨.fiber, x⟩ f
    return .right v
  | v => .ret v

/-- The integer that a text stands for, or the failure to read it. -/
def parseResult (s : String) : Result :=
  match Integer.parseSigned s with
  | .ok n => .ok (.int n)
  | .error fault => .error (.failure (.integer fault))

/-- Asks for one of two alternatives. -/
def expectEither (v : Value) : Code Prog Value :=
  match v with
  | .left _ | .right _ => .ret v
  | _ => .panic "expected either"

/-- What a registration does with its callback; `launch` launches its programs. -/
def Registration.run (ρ : Env) (r : Registration) (launch : Code Prog Unit) (c : CallbackId) :
    Code Prog Unit := do
  match r.log with
  | some a => Code.say (← a.eval ρ).text
  | none => pure ()
  launch
  match r.finish with
  | .now o => Code.answer c (← o.eval ρ) (.ret ())
  | .later x => Code.putCallback x c
  | .never => pure ()
  match r.panic with
  | some m => .panic m
  | none => pure ()

mutual

/-- The program a term stands for. -/
def Term.build (ρ : Env) : Term → Code Prog Prog
  | .pure a => do return .pure (← a.eval ρ)
  | .raise x => do return .raise (← x.eval ρ)
  | .ofAnswer o => do return .ofResult (← o.eval ρ)
  | .delay a => return .delay (do return .ok (← a.eval ρ))
  | .tryDelay o => return .delay (o.eval ρ)
  | .parse s => return .delay (.ret (parseResult s))
  | .log a => return .delay do
      Code.say (← a.eval ρ).text
      return .ok .unit
  | .launching p o => do
    let p ← p.build ρ
    return .delay (.launch p (o.eval ρ))
  | .suspend p => return .suspend (p.build ρ)
  | .flatten p => return .flatten (p.build ρ)
  | .never => return .never
  | .async r acts => return .fromCallback fun c => r.run ρ (Term.launchAll ρ acts) c
  | .cancelable r acts token => return .cancelable fun c => do
      r.run ρ (Term.launchAll ρ acts) c
      return (← token.build ρ).asUnit
  | .connected r acts name tokens => return .connected fun link c => do
      nameConnection name link
      Term.pushAll ρ link tokens
      r.run ρ (Term.launchAll ρ acts) c
  | .iterate seed x step => do
    let v ← seed.eval ρ
    return .iterate v fun v => do return (← step.build ((x, v) :: ρ)).map expectEither
  | .map p x a => do return (← p.build ρ).map fun v => a.eval ((x, v) :: ρ)
  | .bind p x q => do return .bind (← p.build ρ) fun v => q.build ((x, v) :: ρ)
  | .seq p q => do return .seq (← p.build ρ) (← q.build ρ)
  | .map2 p q x y a => do
    return .map2 (← p.build ρ) (← q.build ρ) fun v w => a.eval ((y, w) :: (x, v) :: ρ)
  | .product p q => do return .product (← p.build ρ) (← q.build ρ)
  | .attempt p => do return .attempt (← p.build ρ)
  | .recover p e q => do return .recover (← p.build ρ) fun er => q.build ((e, .error er) :: ρ)
  | .handle p e a => do return .handle (← p.build ρ) fun er => a.eval ((e, .error er) :: ρ)
  | .mapError p e a => do return .mapError (← p.build ρ) fun er => a.eval ((e, .error er) :: ρ)
  | .redeem p e a x b => do
    return .redeem (← p.build ρ) (fun er => a.eval ((e, .error er) :: ρ))
      fun v => b.eval ((x, v) :: ρ)
  | .fold p e q x r => do
    return .fold (← p.build ρ) (fun er => q.build ((e, .error er) :: ρ))
      fun v => r.build ((x, v) :: ρ)
  | .uncancelable p => do return .uncancelable (← p.build ρ)
  | .maps p n x a => do
    return n.repeat (fun p => p.map fun v => a.eval ((x, v) :: ρ)) (← p.build ρ)
  | .binds p n x q => do
    return n.repeat (fun p => .bind p fun v => q.build ((x, v) :: ρ)) (← p.build ρ)
  | .recovers p n e q => do
    return n.repeat (fun p => .recover p fun er => q.build ((e, .error er) :: ρ)) (← p.build ρ)
  | .uncancelables p n => do return n.repeat Prog.uncancelable (← p.build ρ)
  | .countUp n => return countFrom n 0
  | .nestedHandlers n => return nestHandlers n
  | .bracket p x use e q => do
    return .bracket (← p.build ρ) (fun v => use.build ((x, v) :: ρ)) (.call fun v ex => do
      match e with
      | some e => return (← q.build ((e, .exit ex) :: (x, v) :: ρ)).asUnit
      | none => return (← q.build ((x, v) :: ρ)).asUnit)
  | .guaranteeCase p e q => do
    return .guaranteeCase (← p.build ρ) fun ex => do
      return (← q.build ((e, .exit ex) :: ρ)).asUnit
  | .guarantee p q => do return .guarantee (← p.build ρ) (← q.build ρ).asUnit
  | .onCancel p q => do return .onCancel (← p.build ρ) (← q.build ρ).asUnit
  | .race p q on => do return .race (← p.build ρ) (← q.build ρ) on
  | .racePair p q on x => do
    return (Prog.racePair (← p.build ρ) (← q.build ρ) on).map (nameLoser x)
  | .both p q on x y a => do
    return .both (← p.build ρ) (← q.build ρ) on fun v w => a.eval ((y, w) :: (x, v) :: ρ)
  | .shift on => return .shift on
  | .continueOn p on => do return .continueOn (← p.build ρ) on
  | .sleep d => return .sleep d
  | .timeout p d on => do return .timeout (← p.build ρ) d on
  | .start p on x => do return (Prog.start (← p.build ρ) on).map (nameObject .fiber x)
  | .join x => return onObject .fiber Handle.fiber? x fun f => return .join f
  | .outcome x => return onObject .fiber Handle.fiber? x fun f => return .outcome f
  | .cancelFiber x => return onObject .fiber Handle.fiber? x fun f => return .cancelFiber f
  | .remote a => return .remote (a.eval ρ)
  | .remoteTry o => return .remoteTry (o.eval ρ)
  | .awaited p => do return .bind (.awaited (← p.build ρ)) fun v => return .ofAttempt v
  | .scoped on x body => return .scoped on fun s => do
      Code.set ⟨.scope, x⟩ (.handle (.scope s))
      body.build ρ
  | .spawn x p t => return onObject .scope Handle.scope? x fun s => do
      return (Prog.spawn s (← p.build ρ)).map (nameObject .task t)
  | .awaitTask x => return onObject .task Handle.task? x fun t => return .awaitTask t.1 t.2
  | .cancelTask x => return onObject .task Handle.task? x fun t => return .cancelFiber t.1
  | .taskOutcome x => return onObject .task Handle.task? x fun t => return .outcome t.1
  | .scopeSize x => return onObject .scope Handle.scope? x fun s => return .instant (.scopeSize s)
  | .cancelConnection x =>
    return onObject .connection Handle.connection? x fun link => return .cancel link
  | .pushToken x p => return .suspend do
      let p := (← p.build ρ).asUnit
      match ← Code.find .connection Handle.connection? x with
      | some link => return .delay (.push link p (.ret (.ok .unit)))
      | none => return unknownName x
  | .popToken x => return onObject .connection Handle.connection? x fun link => return .pop link
  | .dispose x => return onObject .run Handle.cancelableRun? x fun c => return .cancel (some c)
  | .complete x o => return .suspend do
      match ← Code.takeCallback x with
      | some c => return .delay do Code.answer c (← o.eval ρ) (.ret (.ok .unit))
      | none => return unknownName x
  | .acquire x n => return onObject .semaphore Handle.semaphore? x fun s => return .acquire s n
  | .release x n =>
    return onObject .semaphore Handle.semaphore? x fun s => return .instant (.release s n)
  | .tryAcquire x n =>
    return onObject .semaphore Handle.semaphore? x fun s => return .instant (.tryAcquire s n)
  | .available x =>
    return onObject .semaphore Handle.semaphore? x fun s => return .instant (.available s)
  | .count x => return onObject .semaphore Handle.semaphore? x fun s => return .instant (.count s)
  | .withPermit x p => return onObject .semaphore Handle.semaphore? x fun s => do
      return .withPermit s (← p.build ρ)
  | .stored x => return .suspend do
      match ← Code.takeProgram x with
      | some p => return .stored p
      | none => return unknownName x

/-- Builds and launches several programs in turn. -/
def Term.launchAll (ρ : Env) : List Term → Code Prog Unit
  | [] => return
  | p :: ps => do
    Code.launch (← p.build ρ) (Term.launchAll ρ ps)

/-- Builds several programs and registers them as clean-up, in turn. -/
def Term.pushAll (ρ : Env) (link : Link) : List Term → Code Prog Unit
  | [] => return
  | p :: ps => do
    Code.push link (← p.build ρ).asUnit (Term.pushAll ρ link ps)

end

end Scenario

end CancelableEffects
