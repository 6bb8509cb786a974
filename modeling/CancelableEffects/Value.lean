import CancelableEffects.Exit
import CancelableEffects.Form
import CancelableEffects.Handle

/-!
# Values — what programs compute with

* `Value`: plain data, results, errors, alternatives, exits, outcomes and handles.
* `Result`: what an execution ends with.
* `Value.text`: the text of a value in a message.
* `Value.form`, `Error.form`, `Result.form`: the outer shapes.
-/

namespace CancelableEffects

/-- A value of a program. -/
inductive Value where
  | unit
  | bool (b : Bool)
  | int (n : Int)
  | str (s : String)
  | list (vs : List Value)
  /-- The success of an attempt. -/
  | ok (v : Value)
  /-- The failure of an attempt. -/
  | err (e : Error)
  /-- A bare error, as a handler receives it. -/
  | error (e : Error)
  | left (v : Value)
  | right (v : Value)
  | exit (x : ExitCase)
  | outcome (o : Outcome Value)
  | pair (a b : Value)
  | handle (h : Handle)
  deriving Repr

/-- What an execution ends with: a value or an error. -/
abbrev Result := Except Error Value

namespace Result

/-- The result as the value of an attempt. -/
def toValue : Result → Value
  | .ok v => .ok v
  | .error e => .err e

end Result

namespace Value

/-- The result that the value of an attempt stands for; any other value stands for itself. -/
def toResult : Value → Result
  | ok v => .ok v
  | err e => .error e
  | v => .ok v

@[simp] theorem toResult_toValue (r : Result) : r.toValue.toResult = r := by cases r <;> rfl

/-- The handle in a value. -/
def handle? : Value → Option Handle
  | handle h => some h
  | _ => none

/-- The error in a bare error or in the failure of an attempt. -/
def error? : Value → Option Error
  | error e => some e
  | err e => some e
  | _ => none

/-- The integer in a value, as a signed 64-bit integer. -/
def signed? : Value → Option Int
  | int n => some (Integer.wrap n)
  | _ => none

/-- The text of an exit case. -/
def exitText : ExitCase → String
  | .completed => "exit:completed"
  | .cancelled => "exit:cancelled"
  | .error e => "exit:error(" ++ e.message ++ ")"

/-- The text of a value in a message. -/
def text : Value → String
  | unit => "()"
  | bool b => if b then "true" else "false"
  | int n => toString n
  | str s => s
  | list vs => "[" ++ ",".intercalate (texts vs) ++ "]"
  | ok v => "ok(" ++ v.text ++ ")"
  | err e => "err(" ++ e.message ++ ")"
  | error e => e.message
  | left v => "left(" ++ v.text ++ ")"
  | right v => "right(" ++ v.text ++ ")"
  | exit x => exitText x
  | outcome o => outcomeText o
  | pair a b => "[" ++ a.text ++ "," ++ b.text ++ "]"
  | handle _ => "()"
where
  /-- The texts of several values. -/
  texts : List Value → List String
    | [] => []
    | v :: vs => v.text :: texts vs
  /-- The text of an outcome. -/
  outcomeText : Outcome Value → String
    | .completed v => "outcome:completed(" ++ v.text ++ ")"
    | .errored e => "outcome:errored(" ++ e.message ++ ")"
    | .cancelled => "outcome:cancelled"

end Value

/-- The outer shape of an error: its kind, its message, and the suppressed errors if there are
any. -/
def Error.form : Error → Form
  | ⟨cause, suppressed⟩ =>
    let message := Error.message ⟨cause, suppressed⟩
    match forms suppressed with
    | [] => .obj [("error", .str cause.kind), ("message", .str message)]
    | fs => .obj [("error", .str cause.kind), ("message", .str message), ("suppressed", .arr fs)]
where
  /-- The shapes of several errors. -/
  forms : List Error → List Form
    | [] => []
    | e :: es => e.form :: forms es

/-- The outer shape of an exit case. -/
def ExitCase.form : ExitCase → Form
  | .completed => .str "completed"
  | .cancelled => .str "cancelled"
  | .error e => e.form

/-- The outer shape of a value. -/
def Value.form : Value → Form
  | .unit => .null
  | .bool b => .bool b
  | .int n => .int n
  | .str s => .str s
  | .list vs => .arr (forms vs)
  | .ok v => .obj [("ok", v.form)]
  | .err e => .obj [("err", e.form)]
  | .error e => e.form
  | .left v => .obj [("left", v.form)]
  | .right v => .obj [("right", v.form)]
  | .exit x => .obj [("exit", x.form)]
  | .outcome o => .obj [("outcome", outcomeForm o)]
  | .pair a b => .arr [a.form, b.form]
  | .handle _ => .null
where
  /-- The shapes of several values. -/
  forms : List Value → List Form
    | [] => []
    | v :: vs => v.form :: forms vs
  /-- The shape of an outcome. -/
  outcomeForm : Outcome Value → Form
    | .completed v => .obj [("completed", v.form)]
    | .errored e => .obj [("errored", e.form)]
    | .cancelled => .str "cancelled"

/-- The outer shape of an outcome. -/
def Outcome.form (o : Outcome Value) : Form := Value.form.outcomeForm o

/-- The outer shape of a result. -/
def Result.form : Result → Form
  | .ok v => .obj [("ok", v.form)]
  | .error e => .obj [("err", e.form)]

/-- Whether two values have the same outer shape. -/
def Value.sameForm (a b : Value) : Bool := a.form == b.form

end CancelableEffects
