import CancelableEffects.Text.GraphemeExtend
import CancelableEffects.Text.Unprintable

/-!
# Quoted text — strings written between quotes

* `escape`: the written form of one character inside quotes.
* `quoted`: the written form of a whole string.

Zero, tab, line feed, carriage return, the quote and the backslash have short escapes. Characters
that cannot be shown, and those that would join the character before them, are written by code
point. All others stand for themselves.
-/

namespace CancelableEffects.Text

/-- A lower-case hexadecimal numeral. -/
def hex (n : Nat) : String := String.ofList (Nat.toDigits 16 n)

/-- The written form of a character inside quotes. -/
def escape (c : Char) : String :=
  if c = '\x00' then "\\0"
  else if c = '\t' then "\\t"
  else if c = '\n' then "\\n"
  else if c = '\r' then "\\r"
  else if c = '"' then "\\\""
  else if c = '\\' then "\\\\"
  else if isGraphemeExtend c || !isPrintable c then "\\u\x7b" ++ hex c.toNat ++ "\x7d"
  else c.toString

/-- A string between quotes, each character escaped as it needs. -/
def quoted (s : String) : String :=
  "\"" ++ String.join (s.toList.map escape) ++ "\""

end CancelableEffects.Text
