import Intcode.Session

/-! # Machines on a tape

A tape has a cell at every address from 0 on, so nothing on it ever grows. A machine on a tape obeys
the same rules as a machine with a memory. Its rules are stated here once more, as functions: each
gives its value and the machine afterwards, or a fault, and a fault leaves the machine as it was. -/

namespace Intcode

/-- The cells by their addresses. -/
abbrev Tape := Nat → Int

namespace Tape

/-- The given cells, and 0 behind them. -/
def ofList (cells : List Int) : Tape := fun a => cells.getD a 0

def read (t : Tape) (a : Int) : Except Fault Int :=
  if a < 0 then .error (.negativeAddress a) else .ok (t a.toNat)

def write (t : Tape) (a v : Int) : Except Fault Tape :=
  if a < 0 then .error (.negativeAddress a)
  else .ok fun b => if b = a.toNat then v else t b

end Tape

structure TapeMachine where
  tape : Tape
  base : Int := 0
  trace : Array Entry := #[]

namespace TapeMachine

/-- A machine on the tape of a program. -/
def load (image : List Int) (base : Int) : TapeMachine := { tape := .ofList image, base }

def argument (mode : Mode) (a : Int) (m : TapeMachine) : Except Fault Int := do
  let operand ← m.tape.read a
  match mode with
  | .pointer => m.tape.read operand
  | .value => return operand
  | .relative => m.tape.read (operand + m.base)

def destination (mode : Mode) (a : Int) (m : TapeMachine) : Except Fault Int := do
  let operand ← m.tape.read a
  match mode with
  | .pointer => return operand
  | .value => throw (.valueTarget operand)
  | .relative => return operand + m.base

def store (a v : Int) (m : TapeMachine) : Except Fault TapeMachine := do
  return { m with tape := ← m.tape.write a v }

def fetch (a : Int) (m : TapeMachine) : Except Fault ((Int × Instruction) × TapeMachine) := do
  let cell ← m.tape.read a
  match Instruction.decode a cell with
  | .error f => throw (.decode f)
  | .ok i => return ((cell, i), { m with trace := m.trace.push ⟨a, cell⟩ })

/-- The two arguments of an instruction. -/
def arguments (a : Int) (i : Instruction) (m : TapeMachine) : Except Fault (Int × Int) := do
  let x ← m.argument i.first (a + 1)
  let y ← m.argument i.second (a + 2)
  return (x, y)

def combine (f : Int → Int → Int) (a : Int) (i : Instruction) (m : TapeMachine) :
    Except Fault (Effect × TapeMachine) := do
  let (x, y) ← m.arguments a i
  let t ← m.destination i.third (a + 3)
  return (.next (a + 4), ← m.store t (f x y))

def jumpWhen (test : Int → Bool) (a : Int) (i : Instruction) (m : TapeMachine) :
    Except Fault (Effect × TapeMachine) := do
  let (x, there) ← m.arguments a i
  return (.next (if test x then there else a + 3), m)

def perform (a : Int) (i : Instruction) (m : TapeMachine) :
    Except Fault (Effect × TapeMachine) := do
  match i.operation with
  | .add => m.combine (fun x y => Word.wrap (x + y)) a i
  | .multiply => m.combine (fun x y => Word.wrap (x * y)) a i
  | .lessThan => m.combine (fun x y => if x < y then 1 else 0) a i
  | .equals => m.combine (fun x y => if x = y then 1 else 0) a i
  | .jumpIfNonzero => m.jumpWhen (· != 0) a i
  | .jumpIfZero => m.jumpWhen (· == 0) a i
  | .input => return (.read (← m.destination i.first (a + 1)) (a + 2), m)
  | .output => return (.write (← m.argument i.first (a + 1)) (a + 2), m)
  | .adjustBase =>
    return (.next (a + 2), { m with base := m.base + (← m.argument i.first (a + 1)) })
  | .halt => return (.halt, m)

end TapeMachine

/-- A machine on a tape with the state of its wiring and its trace lines. -/
structure TapeSession (σ : Type) where
  machine : TapeMachine
  world : σ
  log : String := ""

namespace TapeSession
variable {σ α : Type}

def onTape (x : TapeMachine → Except Fault (α × TapeMachine)) : EStateM Fault (TapeSession σ) α :=
  fun s =>
    match x s.machine with
    | .ok (a, m) => .ok a { s with machine := m }
    | .error f => .error f s

def onWorld (x : EStateM Fault σ α) : EStateM Fault (TapeSession σ) α := fun s =>
  match x s.world with
  | .ok a world => .ok a { s with world }
  | .error f world => .error f { s with world }

def logLine (a cell : Int) (i : Instruction) : EStateM Fault (TapeSession σ) Unit := fun s =>
  if ∀ v ∈ [a, cell, s.machine.base], Numeral.Writable v then
    .ok () { s with log := s.log ++ Machine.traceLine a cell i s.machine.base }
  else .error .unwritable s

def logWhen (traced : Bool) (a cell : Int) (i : Instruction) : EStateM Fault (TapeSession σ) Unit :=
  if traced then logLine a cell i else pure ()

/-- Carries out the effect of an instruction, a read aside. -/
def conclude (w : Wiring σ) : Effect → EStateM Fault (TapeSession σ) Progress
  | .next b => return .running b
  | .halt => return .halted
  | .read target next => return .reading target next
  | .write v next => do
    onWorld (w.write v)
    return .running next

/-- Executes the instruction at `a`, a read up to its value. -/
def issue (w : Wiring σ) (traced : Bool) (a : Int) : EStateM Fault (TapeSession σ) Progress := do
  let (cell, i) ← onTape (TapeMachine.fetch a)
  logWhen traced a cell i
  conclude w (← onTape (TapeMachine.perform a i))

def complete (w : Wiring σ) (target next : Int) : EStateM Fault (TapeSession σ) Progress := do
  match ← onWorld w.read with
  | none => return .reading target next
  | some v =>
    onTape fun m => return (.running next, ← m.store target v)

def step (w : Wiring σ) (traced : Bool) (a : Int) : EStateM Fault (TapeSession σ) Progress := do
  match ← issue w traced a with
  | .reading target next => complete w target next
  | p => return p

/-- At most `fuel` instructions from `a` on. -/
def run (w : Wiring σ) (traced : Bool) : Nat → Int → EStateM Fault (TapeSession σ) Progress
  | 0, a => return .running a
  | fuel + 1, a => do
    match ← step w traced a with
    | .running b => run w traced fuel b
    | p => return p

end TapeSession

end Intcode
