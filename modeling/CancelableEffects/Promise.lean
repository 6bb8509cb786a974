/-!
# Promises — write-once cells with listeners

* `Promise`: pending with its numbered listeners, or complete with an outcome.
* `Promise.fulfil`: stores the outcome and hands back the listeners to notify, oldest first.
* `Promise.listen`: registers a listener, or hands back the outcome that is already known.
* `Promise.remove`: takes one listener out.
* `Promise.get_fulfil_of_some`: a second completion changes nothing.
-/

namespace CancelableEffects

/-- A write-once cell. Listeners are numbered in the order of their registration. -/
inductive Promise (Listener Outcome : Type) where
  | pending (listeners : List (Nat × Listener)) (next : Nat)
  | complete (o : Outcome)

namespace Promise

variable {L O : Type}

/-- A promise nobody listens to yet. -/
def empty : Promise L O := pending [] 0

/-- The outcome, once it is known. -/
def get : Promise L O → Option O
  | pending _ _ => none
  | complete o => some o

/-- Stores the outcome if there is none yet; the listeners to notify come back, oldest first. -/
def fulfil (o : O) : Promise L O → Promise L O × List L
  | pending ls _ => (complete o, ls.map (·.2))
  | complete o' => (complete o', [])

/-- Registers a listener under the next number, or gives back the outcome that is known. -/
def listen (l : L) : Promise L O → Promise L O × (Nat ⊕ O)
  | pending ls n => (pending (ls ++ [(n, l)]) (n + 1), .inl n)
  | complete o => (complete o, .inr o)

/-- Takes out the listener registered under the number, if it is still waiting. -/
def remove (n : Nat) : Promise L O → Promise L O
  | pending ls next => pending (ls.filter (·.1 != n)) next
  | complete o => complete o

@[simp] theorem get_empty : (empty : Promise L O).get = none := rfl

/-- The first outcome stays. -/
theorem get_fulfil_of_some {p : Promise L O} {o o' : O} (h : p.get = some o) :
    (p.fulfil o').1.get = some o ∧ (p.fulfil o').2 = [] := by
  cases p with
  | pending ls n => simp [get] at h
  | complete o => exact ⟨h, rfl⟩

/-- A pending promise takes the outcome and releases every listener. -/
theorem fulfil_pending (ls : List (Nat × L)) (n : Nat) (o : O) :
    (pending ls n).fulfil o = (complete o, ls.map (·.2)) := rfl

@[simp] theorem get_remove (p : Promise L O) (n : Nat) : (p.remove n).get = p.get := by
  cases p <;> rfl

end Promise

end CancelableEffects
