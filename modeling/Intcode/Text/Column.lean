/-! # Columns -/

namespace Intcode.Text

/-- `text` moved to the right end of a column of `width` characters; a longer text stays as it is.
-/
def alignRight (width : Nat) (text : String) : String :=
  "".pushn ' ' (width - text.length) ++ text

end Intcode.Text
