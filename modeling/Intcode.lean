import Intcode.Relay
import Intcode.Ordering
import Intcode.Network.Line
import Intcode.Network.Ring
import Intcode.Main
import Intcode.Source.Loading
import Intcode.Proofs.Action
import Intcode.Proofs.ChannelQueue
import Intcode.Proofs.Execution
import Intcode.Proofs.Interleaving
import Intcode.Proofs.SessionStep
import Intcode.Proofs.Tape
import Intcode.Proofs.TapeView
import Intcode.Proofs.Request
import Intcode.Proofs.NetworkOrder
import Intcode.Proofs.Path
import Intcode.Proofs.StagePath
import Intcode.Proofs.LineSequence
import Intcode.Proofs.NumeralRoundTrip
import Intcode.Proofs.DebuggerStep
import Intcode.Proofs.DebuggerScript
import Intcode.Proofs.MachineValues
import Intcode.Proofs.FailureOrder
import Intcode.Proofs.ChannelTraffic
import Intcode.Proofs.SessionValues
import Intcode.Proofs.SystemRange
import Intcode.Proofs.NativeRun
import Intcode.Proofs.Deadlock
import Intcode.Proofs.StreamTraffic
import Intcode.Proofs.Feedback
import Intcode.Proofs.ExitStatus
import Intcode.Proofs.DebuggerLooks
import Intcode.Proofs.DebuggerTrail
import Intcode.Proofs.RingRelay
import Intcode.Proofs.MemoryDump
import Intcode.Proofs.SourceTokens
import Intcode.Proofs.FailedStep
import Intcode.Proofs.InputTarget
import Intcode.Proofs.UntakenJump
import Intcode.Proofs.ControlFlow
import Intcode.Proofs.MemoryExtent
import Intcode.Proofs.SourceLoading
import Intcode.Proofs.BestOrdering
import Intcode.Proofs.InstructionCode
import Intcode.Proofs.NumeralGrammar
import Intcode.Proofs.ReaderLines
import Intcode.Proofs.RunFlags
import Intcode.Proofs.TwosComplement
import Intcode.Proofs.FullReset
import Intcode.Proofs.ScreenWindow
