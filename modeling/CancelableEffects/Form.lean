/-!
# Forms — the outer shape of values

* `Form`: the trees in which values are exchanged with the outside world.
-/

namespace CancelableEffects

/-- A tree of plain data; the fields of an object keep the order in which they are written. -/
inductive Form where
  | null
  | bool (b : Bool)
  | int (n : Int)
  | str (s : String)
  | arr (items : List Form)
  | obj (fields : List (String × Form))
  deriving Repr, BEq

namespace Form

/-- The form of an optional value: `null` where there is none. -/
def ofOption {α : Type} (f : α → Form) : Option α → Form
  | none => null
  | some a => f a

/-- The form of a natural number. -/
def nat (n : Nat) : Form := int n

/-- The form of a list of texts. -/
def strings (ss : List String) : Form := arr (ss.map str)

end Form

end CancelableEffects
