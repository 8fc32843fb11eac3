import Intcode.Machine
import Intcode.Text.Column

/-! # Execution of one instruction

An instruction is fetched first: its cell is read, decoded and entered in the trace. Then it is
performed: its parameters are read from left to right, the target of a write last. Both operands of
a jump are read, whether it jumps or not. The machine itself has no devices; an instruction that
reads or writes a value ends in an effect for the machine's surroundings, and a read is completed by
a write to its target. -/

namespace Intcode

/-- How an instruction ends. -/
inductive Effect
  | next (address : Int)
  | halt
  | read (target next : Int)
  | write (v next : Int)
deriving DecidableEq, Repr

namespace Machine

/-- Reads and decodes the instruction at `a` and enters it in the trace. -/
def fetch (a : Int) : MachineM (Int × Instruction) := do
  let cell ← peek a
  match Instruction.decode a cell with
  | .error f => throw (.decode f)
  | .ok i =>
    modify fun m => { m with trace := m.trace.push ⟨a, cell⟩ }
    return (cell, i)

/-- The value of the parameter in the cell at `a`. -/
def argument (mode : Mode) (a : Int) : MachineM Int := do value mode (← peek a)

/-- The target that the parameter in the cell at `a` stands for. -/
def destination (mode : Mode) (a : Int) : MachineM Int := do target mode (← peek a)

/-- The effect of a jump to `there` when `taken`. -/
def jump (taken : Bool) (there otherwise : Int) : Effect :=
  .next (if taken then there else otherwise)

/-- Applies `f` to two arguments and writes the result to the third parameter's target. -/
def combine (f : Int → Int → Int) (a : Int) (i : Instruction) : MachineM Effect := do
  let x ← argument i.first (a + 1)
  let y ← argument i.second (a + 2)
  let t ← destination i.third (a + 3)
  let _ ← poke t (f x y)
  return .next (a + 4)

/-- Reads two arguments and jumps to the second one if the first satisfies `test`. -/
def jumpWhen (test : Int → Bool) (a : Int) (i : Instruction) : MachineM Effect := do
  let x ← argument i.first (a + 1)
  let there ← argument i.second (a + 2)
  return jump (test x) there (a + 3)

/-- Performs the instruction `i` that stands at `a`. -/
def perform (a : Int) (i : Instruction) : MachineM Effect := do
  match i.operation with
  | .add => combine (fun x y => Word.wrap (x + y)) a i
  | .multiply => combine (fun x y => Word.wrap (x * y)) a i
  | .lessThan => combine (fun x y => if x < y then 1 else 0) a i
  | .equals => combine (fun x y => if x = y then 1 else 0) a i
  | .jumpIfNonzero => jumpWhen (· != 0) a i
  | .jumpIfZero => jumpWhen (· == 0) a i
  | .input => return .read (← destination i.first (a + 1)) (a + 2)
  | .output => return .write (← argument i.first (a + 1)) (a + 2)
  | .adjustBase =>
    let x ← argument i.first (a + 1)
    modify fun m => { m with base := m.base + x }
    return .next (a + 2)
  | .halt => return .halt

/-- Executes the instruction at `a` up to its effect. -/
def execute (a : Int) : MachineM Effect := do
  let (_, i) ← fetch a
  perform a i

/-- The line written about an instruction when execution is traced, with the base before it. -/
def traceLine (a cell : Int) (i : Instruction) (base : Int) : String :=
  "[TRACE] " ++ Text.alignRight 6 (Numeral.render a) ++ ": " ++
    Text.alignRight 6 (Numeral.render cell) ++ "  " ++ i.mnemonic ++ " " ++
    " ".intercalate (i.modes.map Mode.label) ++ "  rb=" ++ Numeral.render base ++ "\n"

end Machine

end Intcode
