import Intcode.CommandLine

/-! # The program

The command line on the real standard streams. Output is shown as soon as it is written and lines
are read when they are asked for, so a program can be used interactively. -/

namespace Intcode.CommandLine

def usageText : String := "usage: intcode run [-t] [-p] FILE\n       intcode debug FILE\n"

/-- More instructions than are ever executed. -/
def unbounded : Nat := 0x4000000000000000

/-- The reason for which a file could not be read. -/
def openFaultOf : IO.Error → OpenFault
  | .noFileOrDirectory .. => .missing
  | .inappropriateType _ 21 _ => .isDirectory
  | .inappropriateType .. => .notDirectory
  | .invalidArgument .. => .nameTooLong
  | .permissionDenied .. => ⟨13, "Permission denied"⟩
  | e => ⟨5, toString e⟩

def readFile (name : String) : IO (Except OpenFault ByteArray) := do
  try return .ok (← IO.FS.readBinFile name)
  catch e => return .error (openFaultOf e)

def putOut (text : String) : IO Unit := do
  IO.print text
  (← IO.getStdout).flush

/-- Shows what a session has written and traced since the last time. -/
def showSession (s : Session Devices) : IO (Session Devices) := do
  IO.eprint s.log
  putOut (written s.world)
  return { s with world := devices (.bytes []), log := "" }

/-- Reads from one line of the standard input. -/
def lineWiring (line : ByteArray) : Wiring Devices where
  read := some <$> Devices.readLine (.bytes line.toList)
  write := Devices.write

/-- A line with its line feed. -/
def getLine : IO ByteArray := return (← (← IO.getStdin).getLine).toUTF8

def showFault (f : Fault) : IO UInt32 := do
  IO.eprint (errorLine f.message)
  return 1

/-- Runs a program to its end and gives the exit status. -/
partial def runFrom (trace print : Bool) (p : Progress) (s : Session Devices) : IO UInt32 := do
  match p with
  | .halted =>
    if print then putOut (s.machine.dump ++ "\n")
    return 0
  | .running a => goOn (Session.issue Devices.wiring trace a s)
  | .reading target next =>
    putOut Devices.promptText
    goOn (Session.complete (lineWiring (← getLine)) target next s)
where
  goOn : EStateM.Result Fault (Session Devices) Progress → IO UInt32
    | .ok p s => do runFrom trace print p (← showSession s)
    | .error f s => do
      let _ ← showSession s
      showFault f

/-- Obeys the lines read so far, then those still to come, and gives the exit status. -/
partial def debugFrom (pending : List (List Char)) (d : Debugger) : IO UInt32 := do
  match Debugger.ask d with
  | .error f _ => showFault f
  | .ok shown d =>
    putOut shown
    let lines ← if pending.isEmpty then readLines else pure pending
    match lines with
    | [] => return 0
    | line :: rest =>
      match Debugger.command unbounded (Debugger.commandOfLine line) d with
      | .error f _ => showFault f
      | .ok false _ => return 0
      | .ok true d => debugFrom rest d
where
  readLines : IO (List (List Char)) := return (Streams.bytes.stdin (← (← IO.getStdin).getLine)).lines.1

/-- What is told of a command that has no status. -/
def abortMessage : AbortCause → String
  | .undecodable => "the program file is not UTF-8 text"
  | .undecodableInput => "the standard input is not UTF-8 text"
  | .streamFailed reason => reason
  | cause => (cause.report?.map Report.message).getD ""

/-- Tells how a command ends that is not run, and gives the exit status. -/
def showOutcome : Outcome → IO UInt32
  | .refused .help => do
    IO.print usageText
    return 0
  | .refused .usage => do
    IO.eprint usageText
    return 2
  | .finished status out err => do
    IO.print out
    IO.eprint err
    return UInt32.ofNat status
  | .aborted cause => do
    IO.eprint (errorLine (abortMessage cause))
    return 1
  | .unfinished => return 1

def performRequest : Request → IO UInt32
  | .run file trace print => do
    match loadFile file (← readFile file) with
    | .error o => showOutcome o
    | .ok machine => runFrom trace print (.running 0) { machine, world := devices (.bytes []) }
  | .debug file => do
    match loadFile file (← readFile file) with
    | .error o => showOutcome o
    | .ok machine => debugFrom [] { machine }

end Intcode.CommandLine

def main (args : List String) : IO UInt32 :=
  match Intcode.CommandLine.parse args with
  | .error r => Intcode.CommandLine.showOutcome (.refused r)
  | .ok request => Intcode.CommandLine.performRequest request
