import Treewalk.Number.Shortest

/-!
# The number formats of the language

One record for each place where numbers are written.
-/

namespace Treewalk.NumberStyle

/-- The text of a number inside the language: never an exponent. -/
def plain : NumberStyle where
  tie := .up
  positional := fun _ => true
  pointZero := false
  plus := false
  nan := "NaN"
  infinity := "Infinity"

/-- The spelling of a number literal that is built by hand. -/
def spelling : NumberStyle := { plain with infinity := "inf" }

/-- Numbers of documents: always with a point or an exponent. -/
def document : NumberStyle where
  tie := .even
  positional := fun e => decide (-5 ≤ e) && decide (e ≤ 15)
  pointZero := true
  plus := true
  nan := "null"
  infinity := "null"

/-- Numbers in outlines of trees. -/
def outline : NumberStyle where
  tie := .up
  positional := fun e => decide (-4 ≤ e) && decide (e ≤ 15)
  pointZero := true
  plus := false
  nan := "NaN"
  infinity := "inf"

end Treewalk.NumberStyle
