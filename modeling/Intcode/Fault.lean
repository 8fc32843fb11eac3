import Intcode.Report

/-! # Faults of a running machine

A fault is the cause for which an instruction fails: its cell does not decode, an address is
negative, a result has no place to go, or the traffic through a device fails. Each cause has one
report, which names the integers involved. If one of them is too long to be written the fault cannot
be told, and its report says only that. -/

namespace Intcode

/-- The two directions of an exchange. -/
inductive Side
  | input | output
deriving DecidableEq, Repr

def Side.label : Side → String
  | input => "Input"
  | output => "Output"

/-- Why an exchange through a device fails. -/
inductive DeviceCause
  | unconnected
  | numeral (f : NumeralFault)
  | channel (f : ChannelFault)
  | endOfInput
  | readFailed (reason : String)
  | promptFailed (reason : String)
  | writeFailed (reason : String)
deriving DecidableEq, Repr

def DeviceCause.message (side : Side) : DeviceCause → String
  | unconnected =>
    match side with
    | .input => "no input configured"
    | .output => "no output configured"
  | numeral f => f.message
  | channel f => f.message
  | endOfInput => "end of input"
  | readFailed reason => "read failed: " ++ reason
  | promptFailed reason => "prompt failed: " ++ reason
  | writeFailed reason => "write failed: " ++ reason

/-- Why an instruction fails. `channel` is a fault met outside the devices, at a bare channel;
`unwritable` is an integer that has to be shown and is too long to be written. -/
inductive Fault
  | decode (f : DecodeFault)
  | negativeAddress (address : Int)
  | valueTarget (operand : Int)
  | device (side : Side) (cause : DeviceCause)
  | channel (f : ChannelFault)
  | unwritable
deriving DecidableEq, Repr

namespace Fault

/-- The integers in the message of a fault. -/
def numbers : Fault → List Int
  | decode f => f.numbers
  | negativeAddress a => [a]
  | valueTarget operand => [operand]
  | device .. | channel _ | unwritable => []

/-- The faults whose own message can be written. -/
def Tellable (f : Fault) : Prop := f ≠ .unwritable ∧ ∀ v ∈ f.numbers, Numeral.Writable v

instance : DecidablePred Tellable := fun _ => inferInstanceAs (Decidable (_ ∧ _))

/-- The report of a fault that can be told. -/
def ownReport : Fault → Report
  | decode f => f.report
  | negativeAddress a => .address ("Negative address " ++ Numeral.render a)
  | valueTarget operand =>
    .address ("Value mode used as write target (operand " ++ Numeral.render operand ++ ")")
  | device side cause => .device side.label (cause.message side)
  | channel f => f.report
  | unwritable => .value Numeral.unwritableMessage

def report (f : Fault) : Report :=
  if f.Tellable then f.ownReport else .value Numeral.unwritableMessage

def message (f : Fault) : String := f.report.message

end Fault

/-- Decodes a cell for someone who is told why it is refused: by the report of the fault. -/
def Instruction.examine (address : Option Int) (cell : Int) : Except Report Instruction :=
  match decode address cell with
  | .ok i => .ok i
  | .error f => .error (Fault.decode f).report

end Intcode
