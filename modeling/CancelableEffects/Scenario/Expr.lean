import CancelableEffects.Program
import CancelableEffects.Text.Integer

/-!
# Expressions — the pure part of a scenario

* `Expr`, `Fault`, `Answer`: expressions for values, for errors and for results.
* `Expr.eval`, `Fault.eval`, `Answer.eval`: what they stand for. Operands are evaluated from left to
  right; an operation on the wrong kind of value panics once its operands are known.
-/

namespace CancelableEffects.Scenario

/-- An operation on two integers that gives an integer. -/
inductive Arithmetic where
  | add
  | sub
  | mul
  deriving DecidableEq, Repr

/-- The operation on signed 64-bit integers, which wraps around. -/
def Arithmetic.apply : Arithmetic → Int → Int → Int
  | add, a, b => Integer.wrap (a + b)
  | sub, a, b => Integer.wrap (a - b)
  | mul, a, b => Integer.wrap (a * b)

/-- An expression for a value. -/
inductive Expr where
  | unit
  | bool (b : Bool)
  | int (n : Int)
  | str (s : String)
  | list (es : List Expr)
  | var (x : String)
  | arith (op : Arithmetic) (a b : Expr)
  | less (a b : Expr)
  /-- Whether two values have the same outer shape. -/
  | same (a b : Expr)
  /-- The texts of several values, one after the other. -/
  | cat (es : List Expr)
  | cond (c a b : Expr)
  /-- The text of a value. -/
  | show (a : Expr)
  /-- The kind of an error. -/
  | kind (a : Expr)
  /-- A list with one more value at its end. -/
  | append (items a : Expr)
  /-- The length of a list or a text. -/
  | length (a : Expr)
  | left (a : Expr)
  | right (a : Expr)
  /-- Logs the text of a value and gives the value. -/
  | log (a : Expr)
  | panic (message : String)
  deriving Repr

/-- An expression for an error. -/
inductive Fault where
  /-- An error that does not depend on anything. -/
  | error (e : Error)
  /-- A message, the text of a value. -/
  | message (a : Expr)
  /-- The error of reading a text as an integer. -/
  | parse (s : String)
  /-- An error with suppressed errors. -/
  | suppressing (primary : Fault) (later : List Fault)
  | var (x : String)
  deriving Repr

/-- An expression for a result. -/
inductive Answer where
  | ok (a : Expr)
  | err (x : Fault)
  deriving Repr

/-- The values of the variables, the innermost first. -/
abbrev Env := List (String × Value)

variable {P : Type}

/-- The value of a variable. -/
def Env.find (ρ : Env) (x : String) : Code P Value :=
  match ρ.lookup x with
  | some v => .ret v
  | none => .panic ("unbound variable: " ++ x)

/-- The integer in a value, as a signed 64-bit integer. -/
def expectInt (v : Value) : Code P Int :=
  match v.signed? with
  | some n => .ret n
  | none => .panic "expected int"

/-- The error in a value. -/
def expectError (v : Value) : Code P Error :=
  match v.error? with
  | some e => .ret e
  | none => .panic "expected error"

/-- The integer operation on two values. -/
def onInts (f : Int → Int → Value) (a b : Value) : Code P Value := do
  let m ← expectInt a
  let n ← expectInt b
  return f m n

mutual

/-- What the evaluation of an expression does. -/
def Expr.eval (ρ : Env) : Expr → Code P Value
  | .unit => .ret .unit
  | .bool b => .ret (.bool b)
  | .int n => .ret (.int n)
  | .str s => .ret (.str s)
  | .list es => do return .list (← Expr.evalAll ρ es)
  | .var x => ρ.find x
  | .arith op a b => do onInts (fun m n => .int (op.apply m n)) (← a.eval ρ) (← b.eval ρ)
  | .less a b => do onInts (fun m n => .bool (m < n)) (← a.eval ρ) (← b.eval ρ)
  | .same a b => do return .bool ((← a.eval ρ).sameForm (← b.eval ρ))
  | .cat es => do return .str (String.join ((← Expr.evalAll ρ es).map Value.text))
  | .cond c a b => do
    match ← c.eval ρ with
    | .bool true => a.eval ρ
    | .bool false => b.eval ρ
    | _ => .panic "expected bool"
  | .show a => do return .str (← a.eval ρ).text
  | .kind a => do return .str (← expectError (← a.eval ρ)).cause.kind
  | .append items a => do
    let vs ← items.eval ρ
    let v ← a.eval ρ
    match vs with
    | .list vs => return .list (vs ++ [v])
    | _ => .panic "expected list"
  | .length a => do
    match ← a.eval ρ with
    | .list vs => return .int vs.length
    | .str s => return .int s.length
    | _ => .panic "expected list"
  | .left a => do return .left (← a.eval ρ)
  | .right a => do return .right (← a.eval ρ)
  | .log a => do
    let v ← a.eval ρ
    Code.say v.text
    return v
  | .panic m => .panic m

/-- Evaluates several expressions from left to right. -/
def Expr.evalAll (ρ : Env) : List Expr → Code P (List Value)
  | [] => .ret []
  | e :: es => do
    let v ← e.eval ρ
    let vs ← Expr.evalAll ρ es
    return v :: vs

end

mutual

/-- What the evaluation of an expression for an error does. -/
def Fault.eval (ρ : Env) : Fault → Code P Error
  | .error e => .ret e
  | .message a => do return .msg (← a.eval ρ).text
  | .parse s =>
    match Integer.parseSigned s with
    | .error fault => .ret (.failure (.integer fault))
    | .ok _ => .panic "expected error"
  | .suppressing primary later => do
    let e ← primary.eval ρ
    let es ← Fault.evalAll ρ later
    return es.foldl Error.suppress e
  | .var x => do expectError (← ρ.find x)

/-- Evaluates several expressions for errors from left to right. -/
def Fault.evalAll (ρ : Env) : List Fault → Code P (List Error)
  | [] => .ret []
  | x :: xs => do
    let e ← x.eval ρ
    let es ← Fault.evalAll ρ xs
    return e :: es

end

/-- What the evaluation of an expression for a result does. -/
def Answer.eval (ρ : Env) : Answer → Code P Result
  | .ok a => do return .ok (← a.eval ρ)
  | .err x => do return .error (← x.eval ρ)

end CancelableEffects.Scenario
