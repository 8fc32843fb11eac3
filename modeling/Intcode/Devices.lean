import Intcode.Fault
import Intcode.Text.Encoding

/-! # Devices

The input and the output device of a machine that runs alone. An input is a fixed text, a stream of
lines or a channel; an output is a writer or a channel, or leads back to the channel that the input
reads. A stream of bytes is read as ASCII. Before a line is awaited a writer gets a prompt. What a
writer is given is first handed over and then passed on, and either can fail. A literal text is read
anew each time; every other input gives each value once. -/

namespace Intcode

/-- Lines not read yet. A stream that is broken cannot be read behind the last whole line of what is
left on it. -/
inductive Stream
  | text (rest : List Char)
  | bytes (rest : List UInt8)
  | broken (reason : String) (rest : List Char := [])
deriving DecidableEq, Repr

namespace Stream

/-- The next line with its line feed, and the stream behind it. The line is empty at the end only.
-/
def readLine : Stream → Except String (List Char × Stream)
  | text rest =>
    let (line, rest) := Text.cutAfter Text.isFeed rest
    .ok (line, .text rest)
  | bytes rest =>
    let (line, rest) := Text.cutAfter (· == 0x0a) rest
    .ok (Text.ofAscii line, .bytes rest)
  | broken reason rest =>
    let (line, rest) := Text.cutAfter Text.isFeed rest
    if line.any Text.isFeed then .ok (line, .broken reason rest) else .error reason

end Stream

/-- Why a flush fails, and how many characters it has passed on by then. -/
structure FlushFault where
  reason : String
  passed : Nat := 0
deriving DecidableEq, Repr

/-- A stream that is written to. It holds back what is handed over to it until that is passed on by a
flush. Where writes are limited so many more of them succeed; `flushes` says how the next flushes
end, and those after them succeed. -/
structure Writer where
  passed : String := ""
  held : String := ""
  remaining : Option Nat := none
  reason : String := ""
  flushes : List (Option FlushFault) := []
deriving DecidableEq, Repr

/-- An action on a writer, which fails for a reason of the writer's own. -/
abbrev WriterM := EStateM String Writer

namespace Writer

/-- All that has been handed over, whether it has been passed on or not. -/
def written (w : Writer) : String := w.passed ++ w.held

/-- Hands a text over, if a write still succeeds. -/
def write (text : String) : WriterM Unit := fun w =>
  match w.remaining with
  | none => .ok () { w with held := w.held ++ text }
  | some 0 => .error w.reason w
  | some (n + 1) => .ok () { w with held := w.held ++ text, remaining := some n }

/-- Passes on what is held back, or only the beginning of it if the flush fails. -/
def flush : WriterM Unit := fun w =>
  match w.flushes with
  | [] => .ok () { w with passed := w.written, held := "" }
  | none :: flushes => .ok () { w with passed := w.written, held := "", flushes }
  | some f :: flushes =>
    .error f.reason { w with
      passed := w.passed ++ String.ofList (w.held.toList.take f.passed)
      held := String.ofList (w.held.toList.drop f.passed)
      flushes }

/-- Hands a text over and passes it on. -/
def put (text : String) : WriterM Unit := do
  write text
  flush

/-- Hands a text over, and what stands behind it. -/
def print (text ending : String) : WriterM Unit := do
  write text
  write ending

end Writer

/-- Where values come from. -/
inductive Input
  | none
  | literal (text : String)
  | reader (stream : Stream)
  | channel (c : Channel)
deriving DecidableEq, Repr

/-- Where values go; `feedback` stands for the channel that the input reads. -/
inductive Output
  | none
  | writer (w : Writer)
  | channel (c : Channel)
  | feedback
deriving DecidableEq, Repr

/-- What a machine is connected to; nothing, unless something else is said. -/
structure Devices where
  input : Input := .none
  output : Output := .none
deriving DecidableEq, Repr

/-- An action on devices. A failed action keeps what it changed before it failed. -/
abbrev DevicesM := EStateM Fault Devices

/-- Reads one integer from a text, blanks around it aside. -/
def Input.integer (cs : List Char) : Except Fault Int :=
  match Numeral.parse (Text.trim cs) with
  | .ok v => .ok v
  | .error f => .error (.device .input (.numeral f))

namespace Channel

/-- Receives for an input device: nothing while an open channel is empty. -/
def fetch : EStateM Fault Channel (Option Int) := fun c =>
  match c.recv with
  | (.value v, c) => .ok (some v) c
  | (.nothing, c) => .ok none c
  | (.ended, c) => .error (.device .input (.channel (.recvClosed c.name))) c

/-- Sends for an output device. -/
def deliver (v : Int) : EStateM Fault Channel Unit := fun c =>
  match c.send v with
  | .ok c => .ok () c
  | .error f => .error (.device .output (.channel f)) c

end Channel

namespace Devices

/-- Written before a line is awaited. -/
def promptText : String := "?"

/-- Puts a text on the writer `w` of the output; `fault` makes a fault of the reason for a failure. -/
def onWriter (text : String) (fault : String → Fault) (w : Writer) : DevicesM Unit := fun d =>
  match Writer.put text w with
  | .ok _ w => .ok () { d with output := .writer w }
  | .error reason w => .error (fault reason) { d with output := .writer w }

/-- Tells the reader on the other side of a writer that a line is awaited. -/
def prompt : DevicesM Unit := do
  match (← get).output with
  | .writer w => onWriter promptText (fun reason => .device .input (.promptFailed reason)) w
  | _ => return

/-- Takes the next line of a stream and reads an integer from it. -/
def readLine (stream : Stream) : DevicesM Int := do
  match stream.readLine with
  | .error reason => throw (.device .input (.readFailed reason))
  | .ok (line, rest) =>
    modify ({ · with input := .reader rest })
    if line.isEmpty then throw (.device .input .endOfInput)
    match Input.integer line with
    | .ok v => return v
    | .error f => throw f

/-- Runs an action on the channel `c` of the input. -/
def onInput {α : Type} (x : EStateM Fault Channel α) (c : Channel) : DevicesM α := fun d =>
  match x c with
  | .ok a c => .ok a { d with input := .channel c }
  | .error f c => .error f { d with input := .channel c }

/-- Runs an action on the channel `c` of the output. -/
def onOutput {α : Type} (x : EStateM Fault Channel α) (c : Channel) : DevicesM α := fun d =>
  match x c with
  | .ok a c => .ok a { d with output := .channel c }
  | .error f c => .error f { d with output := .channel c }

/-- Reads one value, or nothing while an open channel is empty. -/
def read : DevicesM (Option Int) := do
  match (← get).input with
  | .none => throw (.device .input .unconnected)
  | .literal text =>
    match Input.integer text.toList with
    | .ok v => return v
    | .error f => throw f
  | .reader stream =>
    prompt
    return ← readLine stream
  | .channel c => onInput Channel.fetch c

/-- Writes one value; a writer gets it on a line of its own, if it can be written. -/
def write (v : Int) : DevicesM Unit := do
  match (← get).output with
  | .none => throw (.device .output .unconnected)
  | .writer w =>
    unless Numeral.Writable v do throw .unwritable
    onWriter (Numeral.render v ++ "\n") (fun reason => .device .output (.writeFailed reason)) w
  | .channel c => onOutput (Channel.deliver v) c
  | .feedback =>
    match (← get).input with
    | .channel c => onInput (Channel.deliver v) c
    | _ => throw (.device .output .unconnected)

/-- Connects another input. Feedback stays with the channel it led to. -/
def setInput (input : Input) (d : Devices) : Devices :=
  match d.output, d.input with
  | .feedback, .channel c => { input, output := .channel c }
  | .feedback, _ => { input, output := .none }
  | output, _ => { input, output }

/-- Connects another output. -/
def setOutput (output : Output) (d : Devices) : Devices := { d with output }

end Devices

end Intcode
