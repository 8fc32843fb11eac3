import Intcode.Session
import Intcode.Text.Line

/-! # The debugger

A debugger steps one machine and keeps what the machine writes. It looks at the current instruction
before it executes it: one that reads is given a value by the command that steps it, and no other
instruction reads. A fault ends the session and becomes its status. Only a fault that cannot be told
is passed on instead, and leaves the session open. -/

namespace Intcode

/-- What a debugger has to tell. -/
inductive Debugger.Status
  | ready
  | inputRequired
  | inputUsage
  | badAddress (text : String)
  | unknownCommand (text : String)
  | halted
  | failed (f : Fault)
deriving DecidableEq, Repr

def Debugger.Status.message : Status → String
  | ready => ""
  | inputRequired => "Input required: i <n>"
  | inputUsage => "Usage: i <n>"
  | badAddress text => "Bad address: " ++ text
  | unknownCommand text => "Unknown command: " ++ text
  | halted => "Halted"
  | failed f => "Error: " ++ f.message

/-- The memory window follows the instruction pointer unless it has a `view` of its own. Written
values pass through the channel `capture`. -/
structure Debugger where
  machine : Machine
  ip : Int := 0
  halted : Bool := false
  status : Debugger.Status := .ready
  view : Option Nat := none
  outputs : Array Int := #[]
  capture : Channel := { name := "capture" }
deriving DecidableEq, Repr

/-- An action of a debugger. A failed action keeps what it changed before it failed. -/
abbrev DebuggerM := EStateM Fault Debugger

namespace Debugger

/-- Reads the given text, if there is one, and writes to the capture channel. -/
def wiring (line : Option String) : Wiring Channel where
  read :=
    match line with
    | none => throw (.device .input .unconnected)
    | some text =>
      match Input.integer text.toList with
      | .ok v => return some v
      | .error f => throw f
  write := Channel.deliver

/-- The instruction at the instruction pointer, if its cell decodes. -/
def current : DebuggerM (Option Instruction) :=
  fun ⟨machine, ip, halted, status, view, outputs, capture⟩ =>
    match Machine.instructionAt ip machine with
    | .ok i machine => .ok (some i) ⟨machine, ip, halted, status, view, outputs, capture⟩
    | .error f machine =>
      let d : Debugger := ⟨machine, ip, halted, status, view, outputs, capture⟩
      if f.Tellable then .ok none d else .error f d

/-- Whether the current instruction reads. -/
def waiting : DebuggerM Bool := return (← current).any (·.operation == .input)

/-- Executes the current instruction, takes over the values it has written and says whether the
session goes on. -/
def execute (line : Option String) : DebuggerM Bool :=
  fun ⟨machine, ip, halted, status, view, outputs, capture⟩ =>
    let result := Session.step (wiring line) false ip { machine, world := capture }
    let after (s : Session Channel) : Debugger :=
      let (written, capture) := s.world.drain
      ⟨s.machine, ip, halted, status, view, outputs ++ written, capture⟩
    match result with
    | .ok (.running next) s => .ok true { after s with ip := next, status := .ready }
    | .ok .halted s => .ok false { after s with halted := true, status := .halted }
    | .ok (.reading ..) s => .ok true { after s with status := .inputRequired }
    | .error f s =>
      if f.Tellable then .ok false { after s with halted := true, status := .failed f }
      else .error f (after s)

def setStatus (status : Status) : DebuggerM Unit := modify ({ · with status })

/-- Steps one instruction, unless the session has ended or the instruction reads and has no value,
and says whether the session goes on. -/
def step (line : Option String) : DebuggerM Bool := do
  if (← get).halted then return false
  match ← waiting, line with
  | true, none =>
    setStatus .inputRequired
    return true
  | true, some _ => execute line
  | false, _ => execute none

/-- Steps until the session ends or an instruction reads, but at most `fuel` instructions. -/
def run : Nat → DebuggerM Unit
  | 0 => return
  | fuel + 1 => do
    if (← get).halted then return
    if ← waiting then setStatus .inputRequired
    else
      let _ ← step none
      run fuel

/-- Moves the memory window; an address below 0 counts as 0. -/
def moveView (text : String) : DebuggerM Unit :=
  match Numeral.parseLoose? text.toList with
  | some a => modify ({ · with view := some a.toNat })
  | none => setStatus (.badAddress text)

/-- Obeys one command line and says whether the session goes on. -/
def command (fuel : Nat) (line : String) : DebuggerM Bool := do
  match (Text.words line.toList).map String.ofList with
  | [] | "s" :: _ => discard (step none)
  | "q" :: _ => return false
  | ["i"] => setStatus .inputUsage
  | "i" :: text :: _ => discard (step (some text))
  | "r" :: _ => run fuel
  | ["m"] => modify ({ · with view := none })
  | "m" :: text :: _ => moveView text
  | text :: _ =>
    if ← waiting then discard (step (some (String.ofList (Text.trim line.toList))))
    else setStatus (.unknownCommand text)
  return true

end Debugger

end Intcode
