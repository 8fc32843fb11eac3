import Intcode.Source
import Intcode.Channel
import Intcode.Instruction

/-! # Reports

A report is what is told about a failure: its category, its message and the details that came with
it. Categories form a small hierarchy; a report of a category is also one of each of its ancestors.
-/

namespace Intcode

/-- The categories of reports. `device` is an exchange with an input or output, `value` a value that
does not fit its use. -/
inductive Category
  | general | load | decode | unknownOpcode | unknownMode | device | address | channelClosed
  | channelTimeout | value
deriving DecidableEq, Repr

namespace Category

/-- A category and all those it belongs to, the nearest first. -/
def ancestry : Category → List Category
  | general => [general]
  | value => [value]
  | load => [load, general, value]
  | decode => [decode, general]
  | unknownOpcode => [unknownOpcode, decode, general]
  | unknownMode => [unknownMode, decode, general]
  | device => [device, general]
  | address => [address, general]
  | channelClosed => [channelClosed, general]
  | channelTimeout => [channelTimeout, channelClosed, general]

end Category

/-- A report with its details; the texts of the plain ones are their whole message. -/
inductive Report
  | general (text : String)
  | load (field : String) (line : Int)
  | decode (summary : String) (cell : Int) (address : Option Int)
  | unknownOpcode (cell : Int) (address : Option Int)
  | unknownMode (digit : Int) (cell : Int) (address : Option Int)
  | device (operation reason : String)
  | address (text : String)
  | channelClosed (text : String)
  | channelTimeout (text : String)
  | value (text : String)
deriving DecidableEq, Repr

namespace Report

def category : Report → Category
  | general .. => .general
  | load .. => .load
  | decode .. => .decode
  | unknownOpcode .. => .unknownOpcode
  | unknownMode .. => .unknownMode
  | device .. => .device
  | address .. => .address
  | channelClosed .. => .channelClosed
  | channelTimeout .. => .channelTimeout
  | value .. => .value

/-- Where a cell stands that did not decode, if that is known. -/
def position (cell : Int) : Option Int → String
  | none => ""
  | some a => " at address " ++ Numeral.render a ++ " (cell " ++ Numeral.render cell ++ ")"

/-- The operation code that a report names: the two low digits, or the whole of a negative cell. -/
def opcode (cell : Int) : Int := if cell < 0 then cell else cell % 100

/-- The integers that `position` names. -/
def positionNumbers (cell : Int) : Option Int → List Int
  | none => []
  | some a => [a, cell]

def message : Report → String
  | general text | address text | channelClosed text | channelTimeout text | value text => text
  | load field line => "Invalid integer " ++ Text.quote field ++ " on line " ++ Numeral.render line
  | decode summary cell a => summary ++ position cell a
  | unknownOpcode cell a => "Unknown opcode " ++ Numeral.render (opcode cell) ++ position cell a
  | unknownMode digit cell a =>
    "Unknown parameter mode " ++ Numeral.render digit ++ position cell a
  | device operation reason => operation ++ ": " ++ reason

end Report

def LoadFault.report (f : LoadFault) : Report := .load f.field f.line

def NumeralFault.report (f : NumeralFault) : Report := .value f.message

def DecodeFault.report : DecodeFault → Report
  | unknownOpcode cell a => .unknownOpcode cell a
  | unknownMode digit cell a => .unknownMode digit cell a

/-- The integers in the message of a decode fault. -/
def DecodeFault.numbers : DecodeFault → List Int
  | unknownOpcode cell a => Report.opcode cell :: Report.positionNumbers cell a
  | unknownMode digit cell a => digit :: Report.positionNumbers cell a

def ChannelFault.report (f : ChannelFault) : Report :=
  match f with
  | .timedOut _ => .channelTimeout f.message
  | .sendClosed _ | .recvClosed _ => .channelClosed f.message

def Channel.RecvFault.report : RecvFault → Report
  | negativeTimeout => .value "'timeout' must be a non-negative number"
  | channel f => f.report

end Intcode
