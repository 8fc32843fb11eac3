import Intcode.Network

/-! # Stages in a ring

Every stage runs the same program and starts with a setting of its own, its phase, on its channel;
the first one finds a signal behind it. The last stage writes back to the first. What is left on the
first channel when all have finished ends with the signal that came round last. -/

namespace Intcode

/-- Why signals give no result. -/
inductive SignalFault
  | noPhases
  | noSignal
  | machine (f : Fault)
deriving DecidableEq, Repr

namespace SignalFault

def report : SignalFault → Report
  | noPhases => .value "run_loop needs at least one phase"
  | noSignal => .value "feedback loop produced no signal"
  | machine f => f.report

end SignalFault

namespace Network

/-- The channel of stage `i` with its phase on it. -/
def phaseChannel (phase : Int) (i : Nat) (behind : List Int) : Channel :=
  .ofList ("amp" ++ toString i) (phase :: behind)

/-- The network of stages in a ring, before its first step. -/
def ring (image phases : List Int) (signal : Int) : Network where
  stages := phases.map fun _ => .start (.load image)
  channels := phases.zipIdx.map fun (phase, i) =>
    phaseChannel phase i (if i = 0 then [signal] else [])

/-- The last signal in a finished ring. -/
def ringResult? (n : Network) : Option (Except SignalFault Int) :=
  (n.result? 0).map fun
    | .error f => .error (.machine f)
    | .ok values =>
      match values.getLast? with
      | some v => .ok v
      | none => .error .noSignal

/-- The signal of a ring that finishes within `fuel` steps. -/
def feedback (fuel : Nat) (image : List Int) (signal : Int) (phases : List Int) :
    ExceptT SignalFault Option Int :=
  if phases.isEmpty then throw .noPhases
  else ExceptT.mk (((ring image phases signal).settle fuel).ringResult?)

theorem length_channels_ring (image phases : List Int) (signal : Int) :
    (ring image phases signal).channels.length = phases.length := by simp [ring]

end Network

end Intcode
