import Intcode.Network

/-! # Stages in a line

The first stage reads a closed channel with the given values; the last one writes a channel that
nobody reads, and what is left there is the result. -/

namespace Intcode.Network

/-- The network of machines in a line, before its first step. -/
def line (machines : List Machine) (values : List Int) : Network where
  stages := machines.map Stage.start
  channels :=
    (Channel.ofList "pipe0" values).close ::
      (List.range machines.length).map fun i => { name := "pipe" ++ toString (i + 1) }

/-- What a finished line has written. -/
def lineResult? (n : Network) : Option (Except Fault (List Int)) := n.result? n.stages.length

theorem length_channels_line (machines : List Machine) (values : List Int) :
    (line machines values).channels.length = machines.length + 1 := by simp [line]

end Intcode.Network
