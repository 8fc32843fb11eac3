import Intcode.Machine.Execute
import Intcode.Devices

/-! # Sessions

A session is a machine together with what it is wired to. A wiring says how a value is read and
written on some state; devices are one wiring, the channels of a network another. An instruction is
issued first; if it reads, it then has its target and is completed once a value is there. A session
starves at a read for which there is nothing yet, and can go on from there. -/

namespace Intcode

/-- How values are read and written on a state `σ`. A read gives nothing while it has to wait. -/
structure Wiring (σ : Type) where
  read : EStateM Fault σ (Option Int)
  write : Int → EStateM Fault σ Unit

/-- The devices as a wiring. -/
def Devices.wiring : Wiring Devices := ⟨read, write⟩

/-- A machine, the state that its wiring acts on, and the trace lines written so far. -/
structure Session (σ : Type) where
  machine : Machine
  world : σ
  log : String := ""
deriving DecidableEq, Repr

/-- An action on a session. A failed action keeps what it changed before it failed. -/
abbrev SessionM (σ : Type) := EStateM Fault (Session σ)

/-- Where execution stands: before an instruction, at a read that waits for its value, or at the
end. -/
inductive Progress
  | running (address : Int)
  | reading (target next : Int)
  | halted
deriving DecidableEq, Repr

namespace Session
variable {σ α : Type}

/-- Runs an action on the machine. -/
def onMachine (x : MachineM α) : SessionM σ α := fun ⟨machine, world, log⟩ =>
  match x machine with
  | .ok a machine => .ok a ⟨machine, world, log⟩
  | .error f machine => .error f ⟨machine, world, log⟩

/-- Runs an action on the state of the wiring. -/
def onWorld (x : EStateM Fault σ α) : SessionM σ α := fun ⟨machine, world, log⟩ =>
  match x world with
  | .ok a world => .ok a ⟨machine, world, log⟩
  | .error f world => .error f ⟨machine, world, log⟩

/-- Appends the trace line of an instruction that has been fetched, if it can be written. -/
def logLine (a cell : Int) (i : Instruction) : SessionM σ Unit := fun s =>
  if ∀ v ∈ [a, cell, s.machine.base], Numeral.Writable v then
    .ok () { s with log := s.log ++ Machine.traceLine a cell i s.machine.base }
  else .error .unwritable s

/-- Executes the instruction at `a`, up to the reading of a value. -/
def issue (w : Wiring σ) (traced : Bool) (a : Int) : SessionM σ Progress := do
  let (cell, i) ← onMachine (Machine.fetch a)
  if traced then logLine a cell i
  match ← onMachine (Machine.perform a i) with
  | .next b => return .running b
  | .halt => return .halted
  | .read target next => return .reading target next
  | .write v next =>
    onWorld (w.write v)
    return .running next

/-- Completes a read, if a value is there. -/
def complete (w : Wiring σ) (target next : Int) : SessionM σ Progress := do
  match ← onWorld w.read with
  | none => return .reading target next
  | some v =>
    let _ ← onMachine (Machine.poke target v)
    return .running next

/-- Executes the instruction at `a`, and completes it if it is a read. -/
def step (w : Wiring σ) (traced : Bool) (a : Int) : SessionM σ Progress := do
  match ← issue w traced a with
  | .reading target next => complete w target next
  | p => return p

/-- Executes at most `fuel` instructions from `a` on, until the end or a read that starves. -/
def run (w : Wiring σ) (traced : Bool) : Nat → Int → SessionM σ Progress
  | 0, a => return .running a
  | fuel + 1, a => do
    match ← step w traced a with
    | .running b => run w traced fuel b
    | p => return p

end Session

end Intcode
