/-!
# Integers — signed words, unsigned counts and their written forms

* `Integer.wrap`: the signed 64-bit integer congruent to a given one.
* `Integer.parseSigned`, `Integer.parseCount`: reading decimal text, with the fault that stops it.
* `Integer.wrap_range`: a wrapped integer is in range.
-/

namespace CancelableEffects

/-- Why a text is no integer of the wanted range. -/
inductive IntegerFault where
  | empty
  | invalidDigit
  | tooLarge
  | tooSmall
  deriving DecidableEq, Repr

namespace IntegerFault

/-- The sentence that reports the fault. -/
def message : IntegerFault → String
  | empty => "cannot parse integer from empty string"
  | invalidDigit => "invalid digit found in string"
  | tooLarge => "number too large to fit in target type"
  | tooSmall => "number too small to fit in target type"

/-- The one-word name of the fault. -/
def name : IntegerFault → String
  | empty => "Empty"
  | invalidDigit => "InvalidDigit"
  | tooLarge => "PosOverflow"
  | tooSmall => "NegOverflow"

end IntegerFault

namespace Integer

/-- The number of negative signed 64-bit integers, `2 ^ 63`. -/
def half : Nat := 9223372036854775808

/-- The least signed 64-bit integer. -/
def least : Int := -(half : Int)

/-- The greatest signed 64-bit integer. -/
def greatest : Int := half - 1

/-- The greatest unsigned 64-bit integer. -/
def greatestCount : Nat := 2 * half - 1

/-- The signed 64-bit integer that is congruent to `n` modulo `2 ^ 64`. -/
def wrap (n : Int) : Int := n.bmod (2 * half)

/-- The value of an ASCII decimal digit. -/
def digit? (c : Char) : Option Nat :=
  if '0' ≤ c ∧ c ≤ '9' then some (c.toNat - '0'.toNat) else none

/-- Reads the remaining digits after the value `n`. Each character is looked at in turn: one that
is no digit is a fault at once, and so is a digit that leaves the range `0 … limit`. -/
def digits (limit : Nat) (overflow : IntegerFault) : Nat → List Char → Except IntegerFault Nat
  | n, [] => .ok n
  | n, c :: cs =>
    match digit? c with
    | none => .error .invalidDigit
    | some d =>
      if n * 10 + d ≤ limit then digits limit overflow (n * 10 + d) cs else .error overflow

/-- Reads at least one digit. -/
def digits1 (limit : Nat) (overflow : IntegerFault) : List Char → Except IntegerFault Nat
  | [] => .error .invalidDigit
  | cs => digits limit overflow 0 cs

/-- Reads a signed 64-bit integer: an optional sign and decimal digits. -/
def parseSigned (s : String) : Except IntegerFault Int :=
  match s.toList with
  | [] => .error .empty
  | '-' :: cs => (digits1 half .tooSmall cs).map fun n => -(n : Int)
  | '+' :: cs => (digits1 (half - 1) .tooLarge cs).map Int.ofNat
  | cs => (digits1 (half - 1) .tooLarge cs).map Int.ofNat

/-- Reads an unsigned 64-bit integer: an optional plus sign and decimal digits. -/
def parseCount (s : String) : Except IntegerFault Nat :=
  match s.toList with
  | [] => .error .empty
  | '+' :: cs => digits1 greatestCount .tooLarge cs
  | cs => digits1 greatestCount .tooLarge cs

/-- A wrapped integer is a signed 64-bit integer. -/
theorem wrap_range (n : Int) : least ≤ wrap n ∧ wrap n ≤ greatest := by
  have h1 := @Int.le_bmod n (2 * half) (by decide)
  have h2 := @Int.bmod_lt n (2 * half) (by decide)
  simp only [least, greatest, wrap, half] at *
  omega

/-- Wrapping twice is wrapping once. -/
theorem wrap_wrap (n : Int) : wrap (wrap n) = wrap n := by simp [wrap]

end Integer

end CancelableEffects
