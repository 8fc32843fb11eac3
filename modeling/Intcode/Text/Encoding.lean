/-! # Characters from bytes

Two readings of bytes as text. `ofAscii` never fails: a byte outside ASCII stands for the
replacement character. `ofUtf8?` refuses bytes that are not UTF-8. Bytes that arrive in chunks are
read as UTF-8 chunk by chunk; a character may begin in one chunk and end in a later one. -/

namespace Intcode.Text

/-- A byte read as ASCII; any byte above `0x7f` is the replacement character U+FFFD. -/
def charOfByte (b : UInt8) : Char :=
  if b < 0x80 then Char.ofNat b.toNat else '\ufffd'

def ofAscii (bytes : List UInt8) : List Char := bytes.map charOfByte

/-- The text that UTF-8 writes as `bytes`, a byte order mark included as a character. -/
def ofUtf8? (bytes : ByteArray) : Option (List Char) := (String.fromUTF8? bytes).map String.toList

/-- What completes a character that has begun: if anything does, one of these. -/
def completions : List (List UInt8) :=
  [[], [0x80], [0xbf], [0x80, 0x80], [0xbf, 0xbf], [0x80, 0x80, 0x80], [0xbf, 0xbf, 0xbf]]

/-- The characters of bytes that are followed by more. One that has only begun is not among them. -/
def ofUtf8Begun? (bytes : List UInt8) : Option (List Char) :=
  completions.findSome? fun more =>
    (ofUtf8? ⟨(bytes ++ more).toArray⟩).map fun text => if more.isEmpty then text else text.dropLast

/-- The characters of the chunks before the first one with which the bytes can no longer be UTF-8,
and whether there is no such chunk. -/
def decodeChunks : List (List UInt8) → List Char × Bool :=
  go [] []
where
  go (seen : List UInt8) (text : List Char) : List (List UInt8) → List Char × Bool
    | [] => (text, true)
    | chunk :: chunks =>
      match ofUtf8Begun? (seen ++ chunk) with
      | some text => go (seen ++ chunk) text chunks
      | none => (text, false)

theorem length_ofAscii (bytes : List UInt8) : (ofAscii bytes).length = bytes.length := by
  simp [ofAscii]

end Intcode.Text
