import Intcode.Session

/-! # Relays

A signal passes through one machine per phase, one after the other. Each machine is loaded afresh,
reads its phase and the signal from a closed channel, and the first value it writes is the next
signal. -/

namespace Intcode.Relay

/-- The devices of one machine: a closed channel with its two values, and an empty one. -/
def devices (phase signal : Int) : Devices where
  input := .channel (Channel.ofList "in" [phase, signal]).close
  output := .channel { name := "out" }

/-- The first value that was written, once the output is closed. -/
def firstWritten (d : Devices) : Except Fault Int :=
  match d.output with
  | .channel c =>
    match c.close.recv with
    | (.value v, _) => .ok v
    | (_, c) => .error (.channel (.recvClosed c.name))
  | _ => .error (.device .output .unconnected)

/-- One machine of the relay: the signal it passes on, if it halts within `fuel` instructions. -/
def pass (fuel : Nat) (image : List Int) (signal phase : Int) : ExceptT Fault Option Int :=
  let s : Session Devices := { machine := .load image, world := devices phase signal }
  match Session.run Devices.wiring false fuel 0 s with
  | .ok .halted s => ExceptT.mk (some (firstWritten s.world))
  | .ok _ _ => ExceptT.mk none
  | .error f _ => throw f

/-- The signal behind the last machine; nothing if a machine does not halt within `fuel`
instructions. -/
def signal (fuel : Nat) (image : List Int) (start : Int) (phases : List Int) :
    ExceptT Fault Option Int :=
  phases.foldlM (pass fuel image) start

end Intcode.Relay
