import Intcode.Debugger
import Intcode.Text.Column

/-! # The debugger's screen

The screen shows the registers, a window of the memory with the cells of the current instruction in
brackets, the end of the trace, everything written so far and the status. There is no screen while
one of its integers is too long to be written. A dialogue shows the screen, asks for a command and
obeys it, line by line. -/

namespace Intcode.Debugger

/-- Cells in a row of the window. -/
def rowWidth : Nat := 8

def rowCount : Nat := 3

/-- Entries of the trace that are shown. -/
def traceLength : Nat := 10

/-- The first address of the window: its own, or that of the row with the instruction pointer. -/
def windowStart (d : Debugger) : Nat :=
  match d.view with
  | some a => a
  | none => (d.ip - d.ip % rowWidth).toNat

/-- Whether `a` belongs to the current instruction, which takes `span` cells. -/
def isCurrent (d : Debugger) (span a : Nat) : Bool := d.ip ≤ a && a < d.ip + span

/-- A cell of the window. -/
def cellText (d : Debugger) (span a : Nat) : String :=
  let v := Numeral.render (d.machine.memory.get a)
  Text.alignRight 10 (if d.isCurrent span a then "[" ++ v ++ "]" else " " ++ v ++ " ")

/-- The addresses of the window, row by row. -/
def windowRows (d : Debugger) : List (List Nat) :=
  (List.range rowCount).map fun r => List.range' (d.windowStart + r * rowWidth) rowWidth

def rowText (d : Debugger) (span : Nat) (row : List Nat) : String :=
  Text.alignRight 6 (Numeral.render (row.headD 0)) ++ ": " ++
    "".intercalate (row.map (d.cellText span))

def entryText (e : Entry) : String :=
  "  " ++ Text.alignRight 6 (Numeral.render e.address) ++ ": " ++ Numeral.render e.cell

def registersText (d : Debugger) (i : Option Instruction) : String :=
  "IP=" ++ Numeral.render d.ip ++ " RB=" ++ Numeral.render d.machine.base ++
    " STEPS=" ++ Numeral.render d.machine.trace.size ++
    " OP=" ++ (i.map Instruction.mnemonic).getD "??"

/-- The last entries of the trace. -/
def recentTrace (d : Debugger) : List Entry :=
  d.machine.trace.toList.drop (d.machine.trace.size - traceLength)

def statusLines (d : Debugger) : List String :=
  if d.status = .ready then [] else [d.status.message]

def screenLines (d : Debugger) (i : Option Instruction) : List String :=
  let span := (i.map Instruction.length).getD 1
  [d.registersText i] ++ d.windowRows.map (d.rowText span) ++
    ["Trace:"] ++ d.recentTrace.map entryText ++
    ["Output: " ++ ",".intercalate (d.outputs.toList.map Numeral.render)] ++ d.statusLines

/-- The integers in the window: each row's first address and its cells. -/
def windowNumbers (d : Debugger) : List Int :=
  d.windowRows.flatMap fun row => row.headD 0 :: row.map d.machine.memory.get

/-- The integers on the screen, the number of steps aside. -/
def numbers (d : Debugger) : List Int :=
  [d.ip, d.machine.base] ++ d.windowNumbers ++
    d.recentTrace.flatMap (fun e => [e.address, e.cell]) ++ d.outputs.toList

/-- The screen. Looking at the current instruction may grow the memory. -/
def render : DebuggerM String := do
  let i ← current
  let d ← get
  if ∀ v ∈ d.numbers, Numeral.Writable v then return "\n".intercalate (d.screenLines i)
  else throw .unwritable

/-- The screen and the prompt for a command. -/
def ask : DebuggerM String := return (← render) ++ "\n> "

/-- A line of input without its line feed. -/
def commandOfLine (line : List Char) : String :=
  String.ofList (line.filter (!Text.isFeed ·))

/-- Obeys the lines of a stream until a command ends the session or the lines are used up, and gives
everything that is shown. -/
def dialogue (fuel : Nat) : List (List Char) → DebuggerM String
  | [] => ask
  | line :: rest => do
    let shown ← ask
    if ← command fuel (commandOfLine line) then return shown ++ (← dialogue fuel rest)
    else return shown

end Intcode.Debugger
