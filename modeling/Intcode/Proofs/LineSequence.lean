import Intcode.Proofs.StagePath

/-! # A line and its machines one after the other

The machines of a line may as well run one after the other, each to its halt, on a closed channel
with everything that the one before has sent. This is one of the schedules of the line: the first
stage steps until it has finished, then the second one, and so on. So if all machines halt in this
way, then the line comes to the same result under every schedule. -/

namespace Intcode

namespace Devices

/-- The values on the channel that is written. -/
def written (d : Devices) : List Int :=
  match d.output with
  | .channel c => c.values
  | _ => []

theorem written_channels (source sink : String) (vs ws : List Int) :
    (channels source sink vs ws).written = ws :=
  Channel.values_ofList sink ws

end Devices

namespace Machine

/-- The machine at its halt, and what it has sent, after it ran alone on a closed channel that held
the given values; nothing if it does not halt within `fuel` instructions. -/
def alone (fuel : Nat) (m : Machine) (values : List Int) : Option (Machine × List Int) :=
  match Session.run Devices.wiring false fuel 0 ⟨m, .channels "in" "out" values [], ""⟩ with
  | .ok .halted s => some (s.machine, s.world.written)
  | _ => none

/-- The machines at their halts, run one after the other, and what the last one has sent: each is
given everything that the one before it has sent. -/
def inSequence (fuel : Nat) : List Machine → List Int → Option (List Machine × List Int)
  | [], values => some ([], values)
  | m :: machines, values => do
    let (m, sent) ← alone fuel m values
    let (machines, result) ← inSequence fuel machines sent
    return (m :: machines, result)

theorem path_of_alone {fuel : Nat} {m m' : Machine} {values sent : List Int}
    (h : alone fuel m values = some (m', sent)) :
    ∃ es a m₁ rest, m.Path 0 es a m₁ ∧ execute a m₁ = .ok .halt m' ∧
      values = Event.received es ++ rest ∧ sent = Event.sent es := by
  unfold alone at h
  split at h
  · rename_i s hs
    obtain ⟨es, a, m₁, m₂, rest, hp, hv, rfl, hend⟩ := Session.run_channels hs
    rcases hend with ⟨hc, -⟩ | ⟨-, he⟩
    · cases hc
    cases h
    exact ⟨es, a, m₁, rest, hp, he, hv, Devices.written_channels _ _ _ _⟩
  · cases h

theorem length_of_sequence {fuel : Nat} {machines machines' : List Machine} {values out : List Int}
    (h : inSequence fuel machines values = some (machines', out)) :
    machines'.length = machines.length := by
  induction machines generalizing values machines' with
  | nil => cases h; rfl
  | cons m machines ih =>
    simp only [inSequence, Option.bind_eq_bind, Option.bind_eq_some_iff] at h
    obtain ⟨⟨m', sent⟩, -, ⟨ms, result⟩, hs, h⟩ := h
    cases h
    exact congrArg (· + 1) (ih hs)

end Machine

namespace Network
open Machine (inSequence)
variable {fuel : Nat} {machines machines' : List Machine} {values out : List Int}

/-- Channels with nothing on them. -/
def emptyChannels (names : List String) : List Channel := names.map fun name => { name }

/-- A stage whose machine has halted. -/
def halted (m : Machine) : Stage := ⟨m, .finished none⟩

/-- The sequential schedule, from the stage on in front of which all have finished. -/
theorem run_of_sequence (source : String) {before : List Stage} {used : List Channel}
    {names : List String} (haligned : used.length = before.length)
    (hnames : names.length = machines.length)
    (h : inSequence fuel machines values = some (machines', out)) :
    ∃ js used' sink, used'.length = before.length + machines.length ∧
      Network.Run ⟨before ++ machines.map Stage.start,
          used ++ (Channel.ofList source values).close :: emptyChannels names, []⟩ js
        ⟨before ++ machines'.map halted, used' ++ [(Channel.ofList sink out).close], []⟩ := by
  induction machines generalizing before used source names values machines' with
  | nil =>
    obtain rfl := List.eq_nil_of_length_eq_zero hnames
    cases h
    exact ⟨[], used, source, haligned, rfl⟩
  | cons m machines ih =>
    obtain ⟨name, names, rfl⟩ := List.exists_cons_of_length_eq_add_one hnames
    simp only [inSequence, Option.bind_eq_bind, Option.bind_eq_some_iff] at h
    obtain ⟨⟨m', sent⟩, ha, ⟨ms, result⟩, hs, h⟩ := h
    cases h
    obtain ⟨es, a, m₁, rest, hp, he, rfl, rfl⟩ := Machine.path_of_alone ha
    let p : Spot := ⟨before, machines.map Stage.start, used, emptyChannels names, haligned⟩
    obtain ⟨js, hjs⟩ := p.run_of_halt source name rest [] hp he
    have haligned' : (used ++ [(Channel.ofList source rest).close]).length =
        (before ++ [halted m']).length := by simp [haligned]
    obtain ⟨ks, used', sink, hlen, hks⟩ := ih name haligned' (by simpa using hnames) hs
    simp only [List.append_assoc, List.singleton_append] at hks
    refine ⟨js ++ ks, used', sink, ?_, ?_⟩
    · rw [hlen, List.length_append, List.length_singleton, List.length_cons]
      omega
    · exact Interleaving.Run.append hjs hks

/-- The names of the channels of a line, the first one aside. -/
def pipeNames (count : Nat) : List String :=
  (List.range count).map fun i => "pipe" ++ toString (i + 1)

theorem line_eq (machines : List Machine) (values : List Int) :
    line machines values = ⟨machines.map Stage.start,
      (Channel.ofList "pipe0" values).close :: emptyChannels (pipeNames machines.length), []⟩ := by
  simp only [line, emptyChannels, pipeNames, List.map_map]
  rfl

theorem isFinished_halted (machines : List Machine) (channels : List Channel)
    (failures : List (Nat × Fault)) :
    Network.isFinished ⟨machines.map halted, channels, failures⟩ = true := by
  simp [isFinished, halted, Stage.isFinished]

theorem lineResult?_halted {used : List Channel} (sink : String) (out : List Int)
    (h : used.length = machines.length) :
    lineResult? ⟨machines.map halted, used ++ [(Channel.ofList sink out).close], []⟩ =
      some (.ok out) := by
  have hv : Network.values ⟨machines.map halted, used ++ [(Channel.ofList sink out).close], []⟩
      used.length = out := by
    simp [values, Channel.values_close_ofList]
  rw [lineResult?, result?, isFinished_halted]
  simp only [List.length_map, ← h, hv]
  rfl

/-- If the machines halt one after the other, then no schedule of the line is longer than a certain
one, a schedule that has not finished can go on, and where a schedule cannot go on the line gives
what the last machine has sent, without a fault, and every machine is as it was at its halt. -/
theorem line_eq_sequence (h : inSequence fuel machines values = some (machines', out)) :
    ∃ bound, ∀ js u, (line machines values).Run js u → js.length ≤ bound ∧
      (u.isFinished = false → ∃ i, u.ready i = true) ∧
      (u.Stopped → lineResult? u = some (.ok out) ∧ u.machines = machines') := by
  have hlength := Machine.length_of_sequence h
  have hnames : (pipeNames machines.length).length = machines.length := by simp [pipeNames]
  have haligned : ([] : List Channel).length = ([] : List Stage).length := rfl
  obtain ⟨is, used, sink, hlen, hrun⟩ := run_of_sequence "pipe0" haligned hnames h
  simp only [List.nil_append, List.length_nil, Nat.zero_add] at hlen hrun
  rw [← line_eq] at hrun
  refine ⟨is.length, fun js u hjs => ?_⟩
  obtain ⟨hle, hgo, hend⟩ :=
    (wellFormed_line machines values).run_end hrun (isFinished_halted _ _ _) hjs
  refine ⟨hle, hgo, fun hu => ?_⟩
  obtain ⟨-, -, -, hs, hc, hf⟩ := hend hu
  obtain ⟨stages, channels, failures⟩ := u
  obtain rfl : stages = machines'.map halted := hs
  obtain rfl : channels = used ++ [(Channel.ofList sink out).close] := hc
  obtain rfl : failures = [] := hf.eq_nil
  refine ⟨lineResult?_halted sink out (hlen.trans hlength.symm), ?_⟩
  simp [Network.machines, halted, Function.comp_def]

/-- The first machine reads nothing, the second one does not read everything. -/
theorem line_eq_sequence_unread :
    let machines : List Machine := [.load [104, 5, 104, 6, 99], .load [3, 5, 4, 5, 99, 0]]
    let ended : List Machine :=
      [⟨[104, 5, 104, 6, 99], .ofList [104, 5, 104, 6, 99], 0, #[⟨0, 104⟩, ⟨2, 104⟩, ⟨4, 99⟩]⟩,
        ⟨[3, 5, 4, 5, 99, 0], .ofList [3, 5, 4, 5, 99, 5], 0, #[⟨0, 3⟩, ⟨2, 4⟩, ⟨4, 99⟩]⟩]
    inSequence 9 machines [7] = some (ended, [5]) ∧
      ∃ bound, ∀ js u, (line machines [7]).Run js u → js.length ≤ bound ∧
        (u.isFinished = false → ∃ i, u.ready i = true) ∧
        (u.Stopped → lineResult? u = some (.ok [5]) ∧ u.machines = ended) := by
  intro machines ended
  have h : inSequence 9 machines [7] = some (ended, [5]) := by decide
  exact ⟨h, line_eq_sequence h⟩

end Network

end Intcode
