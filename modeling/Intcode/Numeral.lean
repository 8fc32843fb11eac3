import Intcode.Text.Blank
import Intcode.Text.Digit
import Intcode.Text.Quoted
import Intcode.Word

/-! # Decimal numerals

A numeral is an optional sign and one or more ASCII digits, at most `digitLimit` of them, whose
value is a signed 64-bit integer. `render` writes the shortest numeral of an integer; only one with
at most `digitLimit` digits is `Writable`. `parseLoose?` reads the wider notation of addresses:
digits of any script, single low lines between them, any value. -/

namespace Intcode

/-- Why a text is no numeral. -/
inductive NumeralFault
  | malformed (text : String)
  | tooLong (digits : Nat)
  | outOfRange (text : String)
deriving DecidableEq, Repr

namespace Numeral

/-- The most digits a numeral may have, leading zeros counted. -/
def digitLimit : Nat := 4300

/-- A text without its sign, and whether the sign was a minus. -/
def splitSign : List Char → Bool × List Char
  | '-' :: cs => (true, cs)
  | '+' :: cs => (false, cs)
  | cs => (false, cs)

/-- The integer of a sign and a magnitude. -/
def signed (negative : Bool) (magnitude : Nat) : Int :=
  if negative then -(magnitude : Int) else magnitude

/-- The form is judged first, then the number of digits, then the value. -/
def parse (cs : List Char) : Except NumeralFault Int :=
  let (negative, digits) := splitSign cs
  if digits.isEmpty || !digits.all Char.isDigit then .error (.malformed (String.ofList cs))
  else if digitLimit < digits.length then .error (.tooLong digits.length)
  else
    let v := signed negative (Nat.ofDigitChars 10 digits 0)
    if Word.InRange v then .ok v else .error (.outOfRange (String.ofList cs))

/-- A minus sign if `v` is negative, then its digits without leading zeros. -/
def digits (v : Int) : List Char :=
  if v < 0 then '-' :: Nat.toDigits 10 v.natAbs else Nat.toDigits 10 v.natAbs

def render (v : Int) : String := String.ofList (digits v)

/-- The integers of at most `digitLimit` digits; no text may hold another one. -/
def Writable (v : Int) : Prop := v.natAbs < Nat.pow 10 digitLimit

instance : DecidablePred Writable := fun _ => inferInstanceAs (Decidable (_ < _))

/-- What is told in place of a text with an integer in it that is not writable. -/
def unwritableMessage : String :=
  "Exceeds the limit (" ++ toString digitLimit ++
    " digits) for integer string conversion; use sys.set_int_max_str_digits() to increase the limit"

/-- The values of digits of any script; a low line may stand between two digits. -/
def looseDigits? : List Char → Option (List Nat)
  | [] => none
  | [c] => (Text.digitValue? c).map ([·])
  | c :: '_' :: cs => do return (← Text.digitValue? c) :: (← looseDigits? cs)
  | c :: cs => do return (← Text.digitValue? c) :: (← looseDigits? cs)

def parseLoose? (cs : List Char) : Option Int := do
  let (negative, rest) := splitSign cs
  let ds ← looseDigits? rest
  guard (ds.length ≤ digitLimit)
  return signed negative (ds.foldl (fun n d => 10 * n + d) 0)

theorem signed_natAbs (v : Int) : signed (decide (v < 0)) v.natAbs = v := by
  unfold signed
  split
  · next h => have := of_decide_eq_true h; omega
  · next h => have : ¬ v < 0 := fun hv => h (decide_eq_true hv); omega

theorem lt_pow_iff_length_toDigits (n : Nat) {k : Nat} (h : 0 < k) :
    n < Nat.pow 10 k ↔ (Nat.toDigits 10 n).length ≤ k :=
  (Nat.length_toDigits_le_iff (by decide) h).symm

theorem writable_iff_length_toDigits (v : Int) :
    Writable v ↔ (Nat.toDigits 10 v.natAbs).length ≤ digitLimit :=
  lt_pow_iff_length_toDigits v.natAbs (by decide)

end Numeral

namespace NumeralFault

def message : NumeralFault → String
  | malformed text => "not an integer: " ++ Text.quote text
  | tooLong digits =>
    "Exceeds the limit (" ++ toString Numeral.digitLimit ++
      " digits) for integer string conversion: value has " ++ toString digits ++
      " digits; use sys.set_int_max_str_digits() to increase the limit"
  | outOfRange text => "out of 64-bit range: " ++ Text.quote text

end NumeralFault

end Intcode
