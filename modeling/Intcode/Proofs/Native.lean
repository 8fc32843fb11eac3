import Intcode.Session

/-! # Machines of 64-bit words

A native machine computes with 64-bit words throughout: its cells, its base and all addresses are
words, sums and products are those of words, and comparisons read words as signed. It has a cell at
every word, so nothing grows and no address is wrong. An instruction decodes by the signed reading
of its cell. What passes through the wiring are the signed readings of words, and the words of the
integers that are read. -/

namespace Intcode

structure NativeMachine where
  cells : BitVec 64 → BitVec 64
  base : BitVec 64
  trace : Array (BitVec 64 × BitVec 64) := #[]

inductive NativeEffect
  | next (address : BitVec 64)
  | halt
  | read (target next : BitVec 64)
  | write (v next : BitVec 64)
deriving DecidableEq, Repr

namespace NativeMachine

/-- A machine with the words of a program. -/
def load (image : List Int) (base : Int) : NativeMachine where
  cells a := .ofInt 64 (image.getD a.toNat 0)
  base := .ofInt 64 base

def argument (mode : Mode) (a : BitVec 64) (m : NativeMachine) : BitVec 64 :=
  match mode with
  | .pointer => m.cells (m.cells a)
  | .value => m.cells a
  | .relative => m.cells (m.cells a + m.base)

def destination (mode : Mode) (a : BitVec 64) (m : NativeMachine) : Except Fault (BitVec 64) :=
  match mode with
  | .pointer => .ok (m.cells a)
  | .value => .error (.valueTarget (m.cells a).toInt)
  | .relative => .ok (m.cells a + m.base)

def store (a v : BitVec 64) (m : NativeMachine) : NativeMachine :=
  { m with cells := fun b => if b = a then v else m.cells b }

def fetch (a : BitVec 64) (m : NativeMachine) : Except Fault (Instruction × NativeMachine) :=
  match Instruction.decode a.toInt (m.cells a).toInt with
  | .error f => .error (.decode f)
  | .ok i => .ok (i, { m with trace := m.trace.push (a, m.cells a) })

def combine (f : BitVec 64 → BitVec 64 → BitVec 64) (a : BitVec 64) (i : Instruction)
    (m : NativeMachine) : Except Fault (NativeEffect × NativeMachine) := do
  let v := f (m.argument i.first (a + 1)) (m.argument i.second (a + 2))
  let t ← m.destination i.third (a + 3)
  return (.next (a + 4), m.store t v)

def jumpWhen (test : BitVec 64 → Bool) (a : BitVec 64) (i : Instruction) (m : NativeMachine) :
    NativeEffect :=
  .next (if test (m.argument i.first (a + 1)) then m.argument i.second (a + 2) else a + 3)

def perform (a : BitVec 64) (i : Instruction) (m : NativeMachine) :
    Except Fault (NativeEffect × NativeMachine) := do
  match i.operation with
  | .add => m.combine (· + ·) a i
  | .multiply => m.combine (· * ·) a i
  | .lessThan => m.combine (fun x y => if x.slt y then 1 else 0) a i
  | .equals => m.combine (fun x y => if x = y then 1 else 0) a i
  | .jumpIfNonzero => return (m.jumpWhen (· != 0) a i, m)
  | .jumpIfZero => return (m.jumpWhen (· == 0) a i, m)
  | .input => return (.read (← m.destination i.first (a + 1)) (a + 2), m)
  | .output => return (.write (m.argument i.first (a + 1)) (a + 2), m)
  | .adjustBase =>
    return (.next (a + 2), { m with base := m.base + m.argument i.first (a + 1) })
  | .halt => return (.halt, m)

end NativeMachine

/-- Where a native machine stands. -/
inductive NativeProgress
  | running (address : BitVec 64)
  | reading (target next : BitVec 64)
  | halted
deriving DecidableEq, Repr

/-- A native machine with the state of its wiring. -/
structure NativeSession (σ : Type) where
  machine : NativeMachine
  world : σ

namespace NativeSession
variable {σ α : Type}

def onMachine (x : NativeMachine → Except Fault (α × NativeMachine)) :
    EStateM Fault (NativeSession σ) α := fun s =>
  match x s.machine with
  | .ok (a, m) => .ok a { s with machine := m }
  | .error f => .error f s

def onWorld (x : EStateM Fault σ α) : EStateM Fault (NativeSession σ) α := fun s =>
  match x s.world with
  | .ok a world => .ok a { s with world }
  | .error f world => .error f { s with world }

/-- Carries out the effect of an instruction, a read aside. -/
def conclude (w : Wiring σ) : NativeEffect → EStateM Fault (NativeSession σ) NativeProgress
  | .next b => return .running b
  | .halt => return .halted
  | .read target next => return .reading target next
  | .write v next => do
    onWorld (w.write v.toInt)
    return .running next

/-- Executes the instruction at `a`, a read up to its value. -/
def issue (w : Wiring σ) (a : BitVec 64) : EStateM Fault (NativeSession σ) NativeProgress := do
  let i ← onMachine (NativeMachine.fetch a)
  conclude w (← onMachine (NativeMachine.perform a i))

def complete (w : Wiring σ) (target next : BitVec 64) :
    EStateM Fault (NativeSession σ) NativeProgress := do
  match ← onWorld w.read with
  | none => return .reading target next
  | some v =>
    modify fun s => { s with machine := s.machine.store target (.ofInt 64 v) }
    return .running next

def step (w : Wiring σ) (a : BitVec 64) : EStateM Fault (NativeSession σ) NativeProgress := do
  match ← issue w a with
  | .reading target next => complete w target next
  | p => return p

/-- At most `fuel` instructions from `a` on. -/
def run (w : Wiring σ) : Nat → BitVec 64 → EStateM Fault (NativeSession σ) NativeProgress
  | 0, a => return .running a
  | fuel + 1, a => do
    match ← step w a with
    | .running b => run w fuel b
    | p => return p

end NativeSession

end Intcode
