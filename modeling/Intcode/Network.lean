import Intcode.Session

/-! # Networks

A network is a row of stages, each a machine of its own, that run at the same time and exchange
values over channels: stage `i` reads channel `i` and writes the next one, the first after the last.
In one step one stage advances: it issues an instruction, completes a read, or ends. A stage ends in
two steps: a fault is recorded first, and then the output is closed, so a reader downstream that
finds the end of the traffic fails after the stage that caused it. Any stage that can advance may be
the next to do so; `settle` picks the one of least index. -/

namespace Intcode

/-- Where a stage stands. A `raised` fault is still to be recorded; a `closing` stage has still to
close its output. -/
inductive Stage.Status
  | running (address : Int)
  | reading (target next : Int)
  | raised (f : Fault)
  | closing (outcome : Option Fault)
  | finished (outcome : Option Fault)
deriving DecidableEq, Repr

structure Stage where
  machine : Machine
  status : Stage.Status
deriving DecidableEq, Repr

namespace Stage

/-- A stage about to run its machine from address 0. -/
def start (machine : Machine) : Stage := ⟨machine, .running 0⟩

/-- Keeps the place of a stage while it acts. -/
def absent : Stage := ⟨.load [], .finished none⟩

def isFinished (s : Stage) : Bool :=
  match s.status with
  | .finished _ => true
  | _ => false

def Status.ofProgress : Progress → Status
  | .running a => .running a
  | .reading target next => .reading target next
  | .halted => .closing none

end Stage

/-- The faults are recorded with the index of their stage, the earliest first. -/
structure Network where
  stages : List Stage
  channels : List Channel
  failures : List (Nat × Fault) := []
deriving DecidableEq, Repr

namespace Network

/-- Runs an action on channel `i`. -/
def onChannel {α : Type} (side : Side) (i : Nat) (x : EStateM Fault Channel α) :
    EStateM Fault (List Channel) α := fun cs =>
  match cs[i]? with
  | none => .error (.device side .unconnected) cs
  | some c =>
    match x c with
    | .ok a c => .ok a (cs.set i c)
    | .error f c => .error f (cs.set i c)

/-- Reads channel `source` and writes channel `sink`. -/
def wiring (source sink : Nat) : Wiring (List Channel) where
  read := onChannel .input source Channel.fetch
  write v := onChannel .output sink (Channel.deliver v)

/-- The channel that stage `i` writes. -/
def sink (n : Network) (i : Nat) : Nat := (i + 1) % n.channels.length

/-- Whether channel `i` has nothing for its reader, neither a value nor the end mark. -/
def starved (n : Network) (i : Nat) : Bool :=
  match n.channels[i]? with
  | some c => c.queue.isEmpty
  | none => false

/-- Whether stage `i` can take a step: a finished stage cannot, nor one that waits for a value. -/
def ready (n : Network) (i : Nat) : Bool :=
  match n.stages[i]?.map Stage.status with
  | none | some (.finished _) => false
  | some (.reading ..) => !n.starved i
  | some (.running _) | some (.raised _) | some (.closing _) => true

/-- Runs an action of stage `i` on its machine and the channels. -/
def act (i : Nat) (machine : Machine) (x : SessionM (List Channel) Progress) : Network → Network :=
  fun ⟨stages, channels, failures⟩ =>
    let stages := stages.set i .absent
    match x { machine, world := channels } with
    | .ok p s => ⟨stages.set i ⟨s.machine, .ofProgress p⟩, s.world, failures⟩
    | .error f s => ⟨stages.set i ⟨s.machine, .raised f⟩, s.world, failures⟩

/-- One step of stage `i`. -/
def advance (i : Nat) (n : Network) : Network :=
  match n.stages[i]? with
  | none => n
  | some ⟨machine, status⟩ =>
    let w := wiring i (n.sink i)
    match status with
    | .running a => n.act i machine (Session.issue w false a)
    | .reading target next => n.act i machine (Session.complete w target next)
    | .raised f =>
      { n with
        stages := n.stages.set i ⟨machine, .closing (some f)⟩
        failures := n.failures ++ [(i, f)] }
    | .closing outcome =>
      { n with
        stages := n.stages.set i ⟨machine, .finished outcome⟩
        channels := n.channels.modify (n.sink i) Channel.close }
    | .finished _ => n

/-- The first stage that can take a step. -/
def firstReady? (n : Network) : Option Nat := (List.range n.stages.length).find? n.ready

/-- At most `fuel` steps, each of the first stage that can take one. -/
def settle : Nat → Network → Network
  | 0, n => n
  | fuel + 1, n =>
    match n.firstReady? with
    | none => n
    | some i => settle fuel (n.advance i)

def isFinished (n : Network) : Bool := n.stages.all Stage.isFinished

def machines (n : Network) : List Machine := n.stages.map Stage.machine

/-- The values queued on channel `i`. -/
def values (n : Network) (i : Nat) : List Int := (n.channels[i]?.map Channel.values).getD []

/-- What a finished network leaves on channel `i`, or the fault recorded first; nothing while a
stage has not finished. -/
def result? (n : Network) (i : Nat) : Option (Except Fault (List Int)) :=
  if n.isFinished then
    match n.failures with
    | (_, f) :: _ => some (.error f)
    | [] => some (.ok (n.values i))
  else none

end Network

end Intcode
