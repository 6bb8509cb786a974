import CancelableEffects.Text.Ranges

/-!
# Blanks — white space and trimming

* `isBlank`: whether a character has the property White_Space.
* `trim`: a text without the blanks at its ends.
* `isBlank_of_isWhitespace`: the ASCII blanks are among them.
-/

namespace CancelableEffects.Text

/-- The code points with the property White_Space. -/
def blankRanges : Array Range :=
  #[(0x9, 0xd), (0x20, 0x20), (0x85, 0x85), (0xa0, 0xa0), (0x1680, 0x1680), (0x2000, 0x200a),
    (0x2028, 0x2029), (0x202f, 0x202f), (0x205f, 0x205f), (0x3000, 0x3000)]

/-- Whether a character is white space. -/
def isBlank (c : Char) : Bool := inRanges blankRanges c

/-- The text without the blanks at its ends. -/
def trim (s : String) : String :=
  String.ofList ((s.toList.dropWhile isBlank).reverse.dropWhile isBlank).reverse

/-- The blanks of the basic alphabet are blanks. -/
theorem isBlank_of_isWhitespace {c : Char} (h : c.isWhitespace = true) : isBlank c = true := by
  simp only [Char.isWhitespace, Bool.or_eq_true, decide_eq_true_eq] at h
  rcases h with ((rfl | rfl) | rfl) | rfl <;> simp [isBlank, inRanges, blankRanges]

end CancelableEffects.Text
