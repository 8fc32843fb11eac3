import Intcode.Devices
import Intcode.Machine

/-! # Loading a source

A source is a text, or is read off a stream to its end. A stream of bytes is read as ASCII. A file is
a stream of text: it is UTF-8, and every kind of line end counts as a line feed. -/

namespace Intcode

namespace Stream

/-- All that is left on a stream. -/
def contents : Stream → Except String (List Char)
  | text rest => .ok rest
  | bytes rest => .ok (Text.ofAscii rest)
  | broken reason _ => .error reason

/-- The stream of a file of these bytes, unless they are not UTF-8. -/
def ofFile? (bytes : ByteArray) : Option Stream :=
  (Text.ofUtf8? bytes).map fun text => .text (Text.unifyFeeds text)

end Stream

/-- The cells of a program whose source is on a stream, if the stream can be read. -/
def Source.read (s : Stream) : Except String (Except LoadFault (List Int)) :=
  s.contents.map parse

namespace Machine

/-- A machine loaded with the program of a source. -/
def ofSource (text : List Char) : Except LoadFault Machine := (Source.parse text).map load

/-- A machine loaded with the program whose source is in a file of these bytes. -/
def ofFile? (bytes : ByteArray) : Option (Except String (Except LoadFault Machine)) :=
  (Stream.ofFile? bytes).map fun s => (Source.read s).map (·.map load)

end Machine

end Intcode
