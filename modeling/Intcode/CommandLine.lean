import Intcode.CommandLine.Arguments
import Intcode.CommandLine.Directory
import Intcode.Debugger.Screen

/-! # The command line

`run` loads a program and runs it on the standard streams; `debug` opens the debugger on it. A
program file is UTF-8 text in which every kind of line end counts as a line feed. A failure to open,
load or run the program is told on the error stream and makes the status 1. What cannot be told
there aborts the command, which then has no status, and so does a standard stream that fails where
nobody expects it to. -/

namespace Intcode.CommandLine

/-- Why a command has no status: the file is not UTF-8, its name holds a NUL, an integer that has to
be shown is too long to be written, the debugger's input is not UTF-8, or a standard stream fails
for a reason of its own. -/
inductive AbortCause
  | undecodable
  | nulInName
  | unwritable
  | undecodableInput
  | streamFailed (reason : String)
deriving DecidableEq, Repr

/-- The report of a cause. Bytes that are not UTF-8 have none of their own, and a stream has only its
reason. -/
def AbortCause.report? : AbortCause → Option Report
  | undecodable | undecodableInput | streamFailed _ => none
  | nulInName => some (.value "embedded null byte")
  | unwritable => some (.value Numeral.unwritableMessage)

/-! ### Standard input -/

/-- How the standard streams are connected: as bytes with a text layer above them, which unifies
line ends, or as text only. -/
inductive Streams
  | bytes
  | text
deriving DecidableEq, Repr

/-- The standard input: bytes, in the chunks in which they arrive, or characters. It ends behind
them, or fails there if a `failure` is given. -/
inductive Stdin
  | bytes (chunks : List (List UInt8)) (failure : Option String := none)
  | text (content : List Char) (failure : Option String := none)
deriving DecidableEq, Repr

namespace Stdin

/-- The standard input as a program reads it. -/
def reader : Stdin → Stream
  | bytes chunks none => .bytes chunks.flatten
  | bytes chunks (some reason) => .broken reason (Text.ofAscii chunks.flatten)
  | text content none => .text content
  | text content (some reason) => .broken reason content

/-- The lines that the debugger reads, and what comes behind them if that is not the end. Bytes are
decoded in chunks, so a chunk that is not UTF-8 takes with it the lines that are ended by it. -/
def lines : Stdin → List (List Char) × Option AbortCause
  | bytes chunks none =>
    match Text.ofUtf8? ⟨chunks.flatten.toArray⟩ with
    | some cs => (Text.feedLines (Text.unifyFeeds cs), none)
    | none => (Text.linesSoFar (Text.decodeChunks chunks).1, some .undecodableInput)
  | bytes chunks (some reason) =>
    let (cs, decoded) := Text.decodeChunks chunks
    (Text.linesSoFar cs, some (if decoded then .streamFailed reason else .undecodableInput))
  | text content none => (Text.feedLines content, none)
  | text content (some reason) => (Text.wholeLines content, some (.streamFailed reason))

end Stdin

namespace Streams

/-- A text on the standard input. -/
def stdin (streams : Streams) (content : String) : Stdin :=
  match streams with
  | bytes => .bytes [content.toUTF8.toList]
  | text => .text content.toList

/-- A text on the standard input, as a program reads it. -/
def reader (streams : Streams) (content : String) : Stream := (streams.stdin content).reader

end Streams

/-! ### Ends -/

/-- How a command ends. `unfinished` is a program that has not halted within its fuel. -/
inductive Outcome
  | refused (r : Refusal)
  | aborted (cause : AbortCause)
  | unfinished
  | finished (status : Nat) (out err : String)
deriving DecidableEq, Repr

def errorLine (message : String) : String := "Error: " ++ message ++ "\n"

/-- A failure before anything has been written. -/
def Outcome.failed (message : String) : Outcome := .finished 1 "" (errorLine message)

/-- Loads a program file, or says how the command ends. -/
def loadFile (name : String) (content : Except OpenFault ByteArray) : Except Outcome Machine :=
  if name.toList.contains '\x00' then .error (.aborted .nulInName)
  else match content with
    | .error f => .error (.failed (f.message name))
    | .ok bytes =>
      match Text.ofUtf8? bytes with
      | none => .error (.aborted .undecodable)
      | some text =>
        match Source.parse (Text.unifyFeeds text) with
        | .error f => .error (.failed f.report.message)
        | .ok image => .ok (.load image)

/-- The devices of a program on the standard streams. -/
def devices (stdin : Stream) (stdout : Writer := {}) : Devices :=
  { input := .reader stdin, output := .writer stdout }

/-- The standard output of a program. -/
def standardOutput (d : Devices) : Writer :=
  match d.output with
  | .writer w => w
  | _ => {}

/-- What has been written to the standard output. -/
def written (d : Devices) : String := (standardOutput d).written

/-- Ends a command with a status, unless the last it has to do with the standard output fails. -/
def Outcome.after (last : WriterM Unit) (status : Nat) (err : String) (stdout : Writer) : Outcome :=
  match last stdout with
  | .ok _ stdout => .finished status stdout.written err
  | .error reason _ => .aborted (.streamFailed reason)

/-- Runs a loaded program. -/
def runProgram (fuel : Nat) (trace print : Bool) (stdin : Stream) (machine : Machine)
    (stdout : Writer := {}) : Outcome :=
  match Session.run Devices.wiring trace fuel 0 { machine, world := devices stdin stdout } with
  | .ok .halted s =>
    let last := if print then Writer.print s.machine.dump "\n" else pure ()
    .after last 0 s.log (standardOutput s.world)
  | .ok _ _ => .unfinished
  | .error f s =>
    if f.Tellable then
      .after Writer.flush 1 (s.log ++ errorLine f.message) (standardOutput s.world)
    else .aborted .unwritable

/-! ### The debugger on the standard streams -/

/-- A debugger and the standard output that it is shown on. -/
structure Console where
  debugger : Debugger
  stdout : Writer
deriving DecidableEq, Repr

/-- An action of a debugger on the standard streams. -/
abbrev ConsoleM := EStateM AbortCause Console

namespace Console
variable {α : Type}

/-- Runs an action of the debugger. The faults that it passes on cannot be told. -/
def onDebugger (x : DebuggerM α) : ConsoleM α := fun ⟨debugger, stdout⟩ =>
  match x debugger with
  | .ok a debugger => .ok a ⟨debugger, stdout⟩
  | .error _ debugger => .error .unwritable ⟨debugger, stdout⟩

/-- Runs an action on the standard output. -/
def onStdout (x : WriterM α) : ConsoleM α := fun ⟨debugger, stdout⟩ =>
  match x stdout with
  | .ok a stdout => .ok a ⟨debugger, stdout⟩
  | .error reason stdout => .error (.streamFailed reason) ⟨debugger, stdout⟩

/-- Writes a screen and the prompt for a command. -/
def showScreen (screen : String) : WriterM Unit := do
  Writer.print screen "\n"
  Writer.print "> " ""
  Writer.flush

/-- Shows the screen and asks for a command. -/
def ask : ConsoleM Unit := do
  let screen ← onDebugger Debugger.render
  onStdout (showScreen screen)

/-- Obeys the lines that can be read until a command ends the session or the lines are used up. What
comes behind them is met only then. -/
def obey (fuel : Nat) (behind : Option AbortCause) : List (List Char) → ConsoleM Unit
  | [] => do
    ask
    match behind with
    | none => return
    | some cause => throw cause
  | line :: rest => do
    ask
    if ← onDebugger (Debugger.command fuel (Debugger.commandOfLine line)) then
      obey fuel behind rest

end Console

/-- Opens the debugger on a loaded program. -/
def debugProgram (fuel : Nat) (stdin : Stdin) (machine : Machine) (stdout : Writer := {}) :
    Outcome :=
  let (lines, behind) := stdin.lines
  match Console.obey fuel behind lines ⟨{ machine }, stdout⟩ with
  | .ok _ c => .finished 0 c.stdout.written ""
  | .error cause _ => .aborted cause

/-! ### Commands -/

/-- Does what is asked for. -/
def Request.perform (fuel : Nat) (openFile : String → Except OpenFault ByteArray) (stdin : Stdin)
    (request : Request) (stdout : Writer := {}) : Outcome :=
  match request with
  | run file trace print =>
    match loadFile file (openFile file) with
    | .error o => o
    | .ok machine => runProgram fuel trace print stdin.reader machine stdout
  | debug file =>
    match loadFile file (openFile file) with
    | .error o => o
    | .ok machine => debugProgram fuel stdin machine stdout

/-- The whole of a command, from its arguments on. Nothing has been written to `stdout` before. -/
def execute (fuel : Nat) (openFile : String → Except OpenFault ByteArray) (stdin : Stdin)
    (args : List String) (stdout : Writer := {}) : Outcome :=
  match parse args with
  | .error r => .refused r
  | .ok request => request.perform fuel openFile stdin stdout

end Intcode.CommandLine
