import CancelableEffects.Program

/-!
# Combinators — programs made from other programs

* Errors: `Prog.attempt`, `Prog.handle`, `Prog.mapError`, `Prog.redeem`.
* Sequences: `Prog.seq`, `Prog.map2`, `Prog.product`, `Prog.flatten`.
* Finalizers: `Prog.guaranteeCase`, `Prog.guarantee`, `Prog.onCancel`, `Prog.withPermit`.
* Waiting: `Prog.fromCallback`, `Prog.never`, `Prog.join`, `Prog.acquire`, `Prog.timeout`.
-/

namespace CancelableEffects.Prog

/-- Gives the unit value. -/
def unit : Prog := pure .unit

/-- Gives the unit value in place of the value of a program. -/
def asUnit (p : Prog) : Prog := p.map fun _ => .ret .unit

/-- Gives the result of the source as a value and never fails. -/
def attempt (p : Prog) : Prog :=
  fold p (fun e => .ret (pure (.err e))) fun v => .ret (pure (.ok v))

/-- Recovers from an error with a value. -/
def handle (p : Prog) (f : Error → Code Prog Value) : Prog :=
  recover p fun e => (f e).bind fun v => .ret (pure v)

/-- Transforms an error. -/
def mapError (p : Prog) (f : Error → Code Prog Error) : Prog :=
  recover p fun e => (f e).bind fun e' => .ret (raise e')

/-- Folds both ends into a value. -/
def redeem (p : Prog) (f : Error → Code Prog Value) (g : Value → Code Prog Value) : Prog :=
  fold p (fun e => (f e).bind fun v => .ret (pure v)) fun v => (g v).bind fun w => .ret (pure w)

/-- Runs the second program after the first and drops the first value. -/
def seq (p q : Prog) : Prog := bind p fun _ => .ret q

/-- Runs both programs in turn and combines their values. -/
def map2 (p q : Prog) (f : Value → Value → Code Prog Value) : Prog :=
  bind p fun a => .ret (map q fun b => f a b)

/-- Runs both programs in turn and lists their values. -/
def product (p q : Prog) : Prog := map2 p q fun a b => .ret (.list [a, b])

/-- Runs the stored program that a value refers to. -/
def runStored : Value → Prog
  | .handle (.program i) => stored i
  | _ => raise (.panic "expected program")

/-- Builds a program when run, and runs what was built. -/
def flatten (build : Code Prog Prog) : Prog :=
  bind (delay (build.bind fun p => .keep p fun i => .ret (.ok (.handle (.program i)))))
    fun v => .ret (runStored v)

/-- Waits for a callback that needs no clean-up. -/
def fromCallback (register : CallbackId → Code Prog Unit) : Prog :=
  cancelable fun c => (register c).bind fun _ => .ret unit

/-- Waits for ever; only cancellation ends it. -/
def never : Prog := fromCallback fun _ => .ret ()

/-- Runs a finalizer after the program, however it finished. -/
def guaranteeCase (p : Prog) (finalizer : ExitCase → Code Prog Prog) : Prog :=
  bracket unit (fun _ => .ret p) (.call fun _ x => finalizer x)

/-- Runs a finalizer that does not ask how the program finished. -/
def guarantee (p finalizer : Prog) : Prog := guaranteeCase p fun _ => .ret finalizer

/-- Runs the second program only if the first is cancelled while it runs. -/
def onCancel (p token : Prog) : Prog :=
  guaranteeCase p fun x => .ret (if x.isCancelled then token else unit)

/-- Waits for permits; the wait cannot be interrupted. -/
def acquire (s : SemaphoreId) (n : Nat) : Prog := uncancelable (permits s n)

/-- Runs a program while holding one permit. -/
def withPermit (s : SemaphoreId) (p : Prog) : Prog :=
  bracket (acquire s 1) (fun _ => .ret p) (.permit s)

/-- The program that ends as an outcome says. -/
def ofOutcome : Value → Prog
  | .outcome o => ofResult o.toResult
  | v => pure v

/-- Waits for the value of a fiber. -/
def join (f : FiberId) : Prog := bind (outcome f) fun v => .ret (ofOutcome v)

/-- Runs the program, then goes on where the executor says. -/
def continueOn (p : Prog) (on : Executor) : Prog :=
  bind p fun v => .ret (map (shift on) fun _ => .ret v)

/-- The program that ends as the value of an attempt says. -/
def ofAttempt (v : Value) : Prog := ofResult v.toResult

/-- Calls a closure in the outside world and ends with the result it returns. -/
def remoteTry (thunk : Code Prog (Except Error Value)) : Prog :=
  bind (remote (thunk.bind fun r => .ret (Result.toValue r))) fun v => .ret (ofAttempt v)

/-- Fails if the program does not finish in time. -/
def timeout (p : Prog) (limit : Duration) (on : Executor) : Prog :=
  bind (race p (sleep limit) on) fun
    | .left v => .ret (pure v)
    | _ => .ret (raise (.timeout limit))

end CancelableEffects.Prog
