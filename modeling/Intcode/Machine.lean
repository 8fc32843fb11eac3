import Intcode.Fault
import Intcode.Memory

/-! # Machines

A machine holds the program it was loaded with, its memory, the base of relative addresses and the
trace of the instructions it has executed. Reading or writing an address past the end of the memory
grows it, and stays so if the instruction then fails. -/

namespace Intcode

/-- An executed instruction: where it stood, and the cell it stood in. -/
structure Entry where
  address : Int
  cell : Int
deriving DecidableEq, Repr

/-- The `image` is the program as loaded; nothing ever changes it. -/
structure Machine where
  image : List Int
  memory : Memory
  base : Int := 0
  trace : Array Entry := #[]
deriving DecidableEq, Repr

/-- An action on a machine. A failed action keeps what it changed before it failed. -/
abbrev MachineM := EStateM Fault Machine

namespace Machine

/-- A machine before its first instruction. -/
def load (image : List Int) : Machine := { image, memory := .ofList image }

/-- Restores the memory; a full reset restores the base and the trace too. -/
def reset (full : Bool) (m : Machine) : Machine :=
  if full then load m.image else { m with memory := .ofList m.image }

/-- A machine loaded with the same program. -/
def fresh (m : Machine) : Machine := load m.image

/-- The cells of the memory as program source. -/
def dump (m : Machine) : String := Source.render m.memory.toList

def label (m : Machine) : String :=
  "Program(" ++ Numeral.render m.memory.size ++ " cells, rb=" ++ Numeral.render m.base ++ ")"

/-! ### Memory access -/

/-- Makes sure that there is a cell at `a`. -/
def reach (a : Int) : MachineM Nat := do
  if a < 0 then throw (.negativeAddress a)
  modify fun m => { m with memory := m.memory.grow a.toNat }
  return a.toNat

/-- The value of the cell at `a`. -/
def peek (a : Int) : MachineM Int := do
  let i ← reach a
  return (← get).memory.get i

/-- Writes a cell and gives the value it held, if it was there before. -/
def poke (a v : Int) : MachineM (Option Int) := do
  let old := (← get).memory.get? a
  let i ← reach a
  modify fun m => { m with memory := m.memory.set i v }
  return old

/-! ### Parameters -/

/-- The value that a parameter stands for. -/
def value (mode : Mode) (operand : Int) : MachineM Int := do
  match mode with
  | .pointer => peek operand
  | .value => return operand
  | .relative => peek (operand + (← get).base)

/-- The address that a parameter stands for as the target of a write. -/
def target (mode : Mode) (operand : Int) : MachineM Int := do
  match mode with
  | .pointer => return operand
  | .value => throw (.valueTarget operand)
  | .relative => return operand + (← get).base

/-- Decodes the instruction at `a` without executing it. -/
def instructionAt (a : Int) : MachineM Instruction := do
  match Instruction.decode a (← peek a) with
  | .ok i => return i
  | .error f => throw (.decode f)

theorem reset_true (m : Machine) : m.reset true = load m.image := rfl

theorem reset_false (m : Machine) : m.reset false = { m with memory := .ofList m.image } := rfl

section
variable {a : Int} (m : Machine)

theorem reach_of_neg (h : a < 0) : reach a m = .error (.negativeAddress a) m := by
  simp only [reach, if_pos h]; rfl

theorem reach_of_nonneg (h : 0 ≤ a) :
    reach a m = .ok a.toNat { m with memory := m.memory.grow a.toNat } := by
  simp only [reach, if_neg (Int.not_lt.mpr h)]; rfl

theorem peek_of_neg (h : a < 0) : peek a m = .error (.negativeAddress a) m := by
  simp only [peek, bind, EStateM.bind, reach_of_neg m h]

theorem peek_of_nonneg (h : 0 ≤ a) :
    peek a m = .ok (m.memory.get a.toNat) { m with memory := m.memory.grow a.toNat } := by
  simp only [peek, bind, EStateM.bind, reach_of_nonneg m h]
  exact congrArg (EStateM.Result.ok · _) (m.memory.get_grow a.toNat a.toNat)

theorem poke_of_neg (h : a < 0) (v : Int) : poke a v m = .error (.negativeAddress a) m := by
  change EStateM.bind (reach a) _ m = _
  simp only [EStateM.bind, reach_of_neg m h]

theorem poke_of_nonneg (h : 0 ≤ a) (v : Int) :
    poke a v m = .ok (m.memory.get? a)
      { m with memory := (m.memory.grow a.toNat).set a.toNat v } := by
  change EStateM.bind (reach a) _ m = _
  simp only [EStateM.bind, reach_of_nonneg m h]
  rfl

end

end Machine

end Intcode
