/-! # Instructions and their encoding in a cell

A cell that holds an instruction reads, in decimal, from the right: two digits of operation code,
then one mode digit for each of three parameters. Digits further left mean nothing, and `halt` has
no parameters, so none of its mode digits is looked at. A negative cell holds no instruction. -/

namespace Intcode

/-- What an instruction does. -/
inductive Operation
  | add | multiply | input | output | jumpIfNonzero | jumpIfZero | lessThan | equals | adjustBase
  | halt
deriving DecidableEq, Repr, Inhabited

namespace Operation

/-- Every operation, by its code. -/
def all : List Operation :=
  [add, multiply, input, output, jumpIfNonzero, jumpIfZero, lessThan, equals, adjustBase, halt]

/-- The two low digits of an instruction. -/
def code : Operation → Nat
  | add => 1
  | multiply => 2
  | input => 3
  | output => 4
  | jumpIfNonzero => 5
  | jumpIfZero => 6
  | lessThan => 7
  | equals => 8
  | adjustBase => 9
  | halt => 99

/-- The operation with a given code. -/
def ofCode? : Nat → Option Operation
  | 1 => some add
  | 2 => some multiply
  | 3 => some input
  | 4 => some output
  | 5 => some jumpIfNonzero
  | 6 => some jumpIfZero
  | 7 => some lessThan
  | 8 => some equals
  | 9 => some adjustBase
  | 99 => some halt
  | _ => none

/-- Cells taken by an instruction, its own included. -/
def length : Operation → Nat
  | add | multiply | lessThan | equals => 4
  | jumpIfNonzero | jumpIfZero => 3
  | input | output | adjustBase => 2
  | halt => 1

/-- The short name used in traces and on the debugger's screen. -/
def mnemonic : Operation → String
  | add => "ADD"
  | multiply => "MUL"
  | input => "IN"
  | output => "OUT"
  | jumpIfNonzero => "JNZ"
  | jumpIfZero => "JZ"
  | lessThan => "LT"
  | equals => "EQ"
  | adjustBase => "ARB"
  | halt => "END"

theorem ofCode?_code (o : Operation) : ofCode? o.code = some o := by cases o <;> rfl

theorem ofCode?_eq_some_iff {n : Nat} {o : Operation} : ofCode? n = some o ↔ o.code = n := by
  constructor
  · intro h; unfold ofCode? at h; split at h <;> simp_all [code] <;> subst h <;> rfl
  · rintro rfl; exact ofCode?_code o

end Operation

/-- What a parameter stands for: the cell it points to, itself, or the cell it points to relative to
the base. -/
inductive Mode
  | pointer | value | relative
deriving DecidableEq, Repr, Inhabited

namespace Mode

def digit : Mode → Nat
  | pointer => 0
  | value => 1
  | relative => 2

def ofDigit? : Nat → Option Mode
  | 0 => some pointer
  | 1 => some value
  | 2 => some relative
  | _ => none

def label : Mode → String
  | pointer => "POINTER"
  | value => "VALUE"
  | relative => "RELATIVE"

theorem ofDigit?_digit (m : Mode) : ofDigit? m.digit = some m := by cases m <;> rfl

theorem ofDigit?_eq_some_iff {n : Nat} {m : Mode} : ofDigit? n = some m ↔ m.digit = n := by
  constructor
  · intro h; unfold ofDigit? at h; split at h <;> simp_all [digit] <;> subst h <;> rfl
  · rintro rfl; exact ofDigit?_digit m

theorem ofDigit?_eq_none_iff {n : Nat} : ofDigit? n = none ↔ 2 < n := by
  match n with
  | 0 | 1 | 2 => simp [ofDigit?]
  | n + 3 => simp [ofDigit?]

end Mode

/-- A decoded instruction: always three modes, whether the operation has three parameters or fewer.
-/
structure Instruction where
  operation : Operation
  first : Mode
  second : Mode
  third : Mode
deriving DecidableEq, Repr, Inhabited

namespace Instruction

def length (i : Instruction) : Nat := i.operation.length

def mnemonic (i : Instruction) : String := i.operation.mnemonic

def modes (i : Instruction) : List Mode := [i.first, i.second, i.third]

/-- The smallest cell that holds `i`. -/
def encode (i : Instruction) : Nat :=
  i.operation.code + 100 * i.first.digit + 1000 * i.second.digit + 10000 * i.third.digit

end Instruction

/-- Why a cell holds no instruction. The address is that of the cell, where it has one. This is the
cause only: whether it can be told depends on the length of its integers. -/
inductive DecodeFault
  | unknownOpcode (cell : Int) (address : Option Int)
  | unknownMode (digit : Nat) (cell : Int) (address : Option Int)
deriving DecidableEq, Repr

namespace Instruction

/-- The operation named by the two low digits of a cell. -/
def operationOf (address : Option Int) (cell : Int) : Except DecodeFault Operation :=
  if cell < 0 then .error (.unknownOpcode cell address)
  else match Operation.ofCode? (cell.toNat % 100) with
    | some o => .ok o
    | none => .error (.unknownOpcode cell address)

/-- The mode at a decimal place of a cell; the units are place 0. -/
def modeAt (address : Option Int) (cell : Int) (place : Nat) : Except DecodeFault Mode :=
  let digit := cell.toNat / Nat.pow 10 place % 10
  match Mode.ofDigit? digit with
  | some m => .ok m
  | none => .error (.unknownMode digit cell address)

/-- The three modes above the operation code, the first parameter's first. -/
def modesOf (address : Option Int) (cell : Int) : Except DecodeFault (Mode × Mode × Mode) := do
  if cell < 0 then throw (.unknownOpcode cell address)
  let first ← modeAt address cell 2
  let second ← modeAt address cell 3
  let third ← modeAt address cell 4
  return (first, second, third)

/-- Decodes a cell. The operation is judged first, so a cell with both parts wrong has an unknown
operation. -/
def decode (address : Option Int) (cell : Int) : Except DecodeFault Instruction := do
  match ← operationOf address cell with
  | .halt => return ⟨.halt, .pointer, .pointer, .pointer⟩
  | o =>
    let (first, second, third) ← modesOf address cell
    return ⟨o, first, second, third⟩

theorem operationOf_of_neg {address : Option Int} {cell : Int} (h : cell < 0) :
    operationOf address cell = .error (.unknownOpcode cell address) := by
  simp [operationOf, h]

end Instruction

end Intcode
