import Intcode.Numeral
import Intcode.Text.Line

/-! # Program source

The source of a program is a text of numerals, separated by commas and line breaks. Blanks around a
numeral do not count and empty fields are skipped. -/

namespace Intcode

/-- The first field of a source that is no numeral, and the number of its line. -/
structure LoadFault where
  field : String
  line : Nat
deriving DecidableEq, Repr

namespace Source

/-- The fields of a line that hold something, without the blanks around them. -/
def fields (line : List Char) : List (List Char) :=
  ((line.splitOnP (· == ',')).map Text.trim).filter (!·.isEmpty)

/-- Every field of a text with the number of its line; the first line is 1. -/
def numberedFields (text : List Char) : List (List Char × Nat) :=
  ((Text.lines text).zipIdx 1).flatMap fun (line, n) => (fields line).map (·, n)

/-- The value of a field. -/
def readField : List Char × Nat → Except LoadFault Int
  | (field, line) =>
    match Numeral.parse field with
    | .ok v => .ok v
    | .error _ => .error ⟨String.ofList field, line⟩

/-- The cells of a program, or the first field that is no numeral. -/
def parse (text : List Char) : Except LoadFault (List Int) :=
  (numberedFields text).mapM readField

/-- The cells between commas: a source on one line. -/
def render (cells : List Int) : String :=
  ",".intercalate (cells.map Numeral.render)

end Source

end Intcode
