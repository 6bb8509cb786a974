/-!
# Durations — a span of time and its written form

* `Duration`: a whole number of nanoseconds.
* `Duration.text`: the largest unit with a non-zero whole part, then the fraction without trailing
  zeros.
-/

namespace CancelableEffects

/-- A span of time, counted in nanoseconds. -/
structure Duration where
  nanos : Nat
  deriving DecidableEq, Repr

namespace Duration

/-- `n` milliseconds. -/
def ofMillis (n : Nat) : Duration := ⟨n * 1000000⟩

/-- `s` seconds and `n` nanoseconds. -/
def ofSeconds (s n : Nat) : Duration := ⟨s * 1000000000 + n⟩

/-- The digits of `n`, padded with zeros on the left to `width`. -/
def padded (width n : Nat) : List Char :=
  let ds := (toString n).toList
  List.replicate (width - ds.length) '0' ++ ds

/-- A fraction of `width` decimal places without its trailing zeros; nothing when it is zero. -/
def fraction (width n : Nat) : String :=
  let ds := ((padded width n).reverse.dropWhile (· == '0')).reverse
  if ds.isEmpty then "" else String.ofList ('.' :: ds)

/-- `n` units of `10 ^ width` nanoseconds each, written with the unit's name. -/
def inUnit (width : Nat) (unit : String) (n : Nat) : String :=
  let size := Nat.pow 10 width
  toString (n / size) ++ fraction width (n % size) ++ unit

/-- The written form in the largest of seconds, milliseconds, microseconds and nanoseconds whose
whole part is not zero. -/
def text (d : Duration) : String :=
  if 1000000000 ≤ d.nanos then inUnit 9 "s" d.nanos
  else if 1000000 ≤ d.nanos then inUnit 6 "ms" d.nanos
  else if 1000 ≤ d.nanos then inUnit 3 "µs" d.nanos
  else inUnit 0 "ns" d.nanos

end Duration

end CancelableEffects
