import DeskCalc.Text.Blank

/-!
# DeskCalc.Text.Trim — cutting characters off the ends of a text

* `dropEndWhile p` removes the longest run of characters with `p` at the end of a text.
* `trim` removes the blanks on both sides.
-/

namespace DeskCalc.Text

/-- The text without its last characters, as long as they satisfy `p`. -/
def dropEndWhile (p : Char → Bool) (cs : List Char) : List Char := (cs.reverse.dropWhile p).reverse

/-- The text without the blanks at its two ends. -/
def trim (cs : List Char) : List Char := dropEndWhile isBlank (cs.dropWhile isBlank)

/-- The string without the blanks at its two ends. -/
def trimmed (s : String) : String := String.ofList (trim s.toList)

section DropEnd

variable {p : Char → Bool}

@[simp] theorem dropEndWhile_nil : dropEndWhile p [] = [] := rfl

theorem dropEndWhile_concat_of_pos {c : Char} (h : p c = true) (cs : List Char) :
    dropEndWhile p (cs ++ [c]) = dropEndWhile p cs := by
  simp [dropEndWhile, h]

theorem dropEndWhile_concat_of_neg {c : Char} (h : p c = false) (cs : List Char) :
    dropEndWhile p (cs ++ [c]) = cs ++ [c] := by
  simp [dropEndWhile, h]

end DropEnd

@[simp] theorem toList_trimmed (s : String) : (trimmed s).toList = trim s.toList := by
  simp [trimmed]

end DeskCalc.Text
