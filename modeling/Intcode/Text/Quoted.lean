import Intcode.Text.Printable

/-! # Quoted texts

A message quotes a text between single quotes, or between double quotes where the text holds a
single quote and no double one. The quote in use and the backslash are written after a backslash,
line feed, carriage return and tab as `\n`, `\r` and `\t`, and every other character that is not
printable by its code point in hexadecimal: two digits after `\x`, four after `\u`, eight after
`\U`. -/

namespace Intcode.Text

/-- The hexadecimal digits of `n`, with zeros in front up to `width` digits. -/
def hexadecimal (width n : Nat) : List Char :=
  let digits := Nat.toDigits 16 n
  List.replicate (width - digits.length) '0' ++ digits

def singleQuote : Char := '\x27'

def doubleQuote : Char := '\x22'

/-- The quote that is put around a text. -/
def quoteFor (cs : List Char) : Char :=
  if cs.contains singleQuote && !cs.contains doubleQuote then doubleQuote else singleQuote

/-- How `c` is written between two quotes `mark`. -/
def escape (mark c : Char) : List Char :=
  if c = mark || c = '\\' then ['\\', c]
  else if c = '\n' then ['\\', 'n']
  else if c = '\r' then ['\\', 'r']
  else if c = '\t' then ['\\', 't']
  else if isPrintable c then [c]
  else if c.toNat < 0x100 then ['\\', 'x'] ++ hexadecimal 2 c.toNat
  else if c.toNat < 0x10000 then ['\\', 'u'] ++ hexadecimal 4 c.toNat
  else ['\\', 'U'] ++ hexadecimal 8 c.toNat

def quote (text : String) : String :=
  let cs := text.toList
  let mark := quoteFor cs
  String.ofList (mark :: (cs.flatMap (escape mark) ++ [mark]))

end Intcode.Text
