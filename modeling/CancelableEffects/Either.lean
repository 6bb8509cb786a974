/-!
# Either — one of two alternatives

* `Either α β`: a left or a right value, ordered with every left below every right.
* `Either.fold`, `Either.swap`, `Either.mapLeft`, `Either.mapRight`, `Either.inner`: the usual
  views.
-/

namespace CancelableEffects

/-- A value that is either a left `α` or a right `β`. -/
inductive Either (α β : Type) where
  | left (a : α)
  | right (b : β)
  deriving DecidableEq, Repr

namespace Either

variable {α β γ : Type}

/-- Whether the value is a left one. -/
def isLeft : Either α β → Bool
  | left _ => true
  | right _ => false

/-- Whether the value is a right one. -/
def isRight : Either α β → Bool
  | left _ => false
  | right _ => true

/-- The left value, if there is one. -/
def left? : Either α β → Option α
  | left a => some a
  | right _ => none

/-- The right value, if there is one. -/
def right? : Either α β → Option β
  | left _ => none
  | right b => some b

/-- Applies a function to a left value and leaves a right one alone. -/
def mapLeft (f : α → γ) : Either α β → Either γ β
  | left a => left (f a)
  | right b => right b

/-- Applies a function to a right value and leaves a left one alone. -/
def mapRight (f : β → γ) : Either α β → Either α γ
  | left a => left a
  | right b => right (f b)

/-- Collapses both alternatives into one type. -/
def fold (f : α → γ) (g : β → γ) : Either α β → γ
  | left a => f a
  | right b => g b

/-- Exchanges the alternatives. -/
def swap : Either α β → Either β α
  | left a => right a
  | right b => left b

/-- The value itself, when both alternatives share a type. -/
def inner : Either α α → α
  | left a => a
  | right a => a

/-- The order that puts every left below every right and compares like with like. -/
def compare [Ord α] [Ord β] : Either α β → Either α β → Ordering
  | left a, left a' => Ord.compare a a'
  | left _, right _ => .lt
  | right _, left _ => .gt
  | right b, right b' => Ord.compare b b'

/-- The written form: the side's name around the written value. -/
def text (f : α → String) (g : β → String) : Either α β → String
  | left a => "Left(" ++ f a ++ ")"
  | right b => "Right(" ++ g b ++ ")"

@[simp] theorem swap_swap (x : Either α β) : x.swap.swap = x := by cases x <;> rfl

theorem inner_eq_fold (x : Either α α) : x.inner = x.fold id id := by cases x <;> rfl

end Either

end CancelableEffects
