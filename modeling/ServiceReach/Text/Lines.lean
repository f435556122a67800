/-
  Texts made of lines, and texts in order. Texts are ordered by the code points of their characters.
-/

namespace ServiceReach.Text

/-- The text of several lines, each with its end. -/
def unlines (lines : List String) : String :=
  String.join (lines.map (· ++ "\n"))

/-- Texts in ascending order. -/
def sorted (items : List String) : List String :=
  items.mergeSort fun a b => decide (a ≤ b)

end ServiceReach.Text
