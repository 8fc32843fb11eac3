import Intcode.Proofs.DeviceExchange
import Intcode.Proofs.StepCases

/-! # Instructions that fail

An instruction can fail at its cell, at its trace line, at a parameter, at its target or at a
device. Wherever it does, it leaves the cells as they were but for zeros added at the end, and the
base; it has been entered in the trace if it was decoded at all. The same is true of an instruction
that waits for a value, and of one that fails after that. So a run that fails leaves the tape and
the base of its last instruction that succeeded.

The devices do not always come away untouched. What a read has taken is not given back. A value has
not been sent, unless a writer has been given its line and then could not be flushed. -/

namespace Intcode

namespace Breaks
variable {σ : Type} {w : Wiring σ} {a : Int} {i : Instruction} {f : Fault} {m m' : Machine}

theorem grown {world world' : σ} (h : Breaks w a i m world f m' world') : m.Grown m' := by
  cases h with
  | line => exact .refl m
  | alone h => exact Machine.grown_of_perform_error h
  | write h | read h | target h => exact Machine.grown_of_perform_ok h nofun

/-- The most that has happened to the devices is one read, or one line that was not passed on. -/
theorem devices {d d' : Devices} (h : Breaks Devices.wiring a i m d f m' d') :
    d' = d ∨ i.operation = .input ∧ d' = finalState (Devices.read d) ∨
      ∃ v b, Machine.perform a i m = .ok (.write v b) m' ∧ Devices.Unflushed v f d d' := by
  cases h with
  | line | alone => exact .inl rfl
  | @write v b _ _ _ h hw =>
    rcases Devices.write_error hw with hd | hd
    · exact .inl hd
    · exact .inr (.inr ⟨v, b, h, hd⟩)
  | @read t b _ _ _ h hr =>
    have hread : Devices.read d = .error f d' := hr
    exact .inr (.inl ⟨(Machine.effect_read_iff h).mp ⟨t, b, rfl⟩, by rw [hread]; rfl⟩)
  | @target t b v _ _ h hr =>
    have hread : Devices.read d = .ok (some v) d' := hr
    exact .inr (.inl ⟨(Machine.effect_read_iff h).mp ⟨t, b, rfl⟩, by rw [hread]; rfl⟩)

end Breaks

theorem Devices.Unflushed.input {v : Int} {f : Fault} {d d' : Devices} (h : Unflushed v f d d') :
    d'.input = d.input := by
  obtain ⟨w, w', g, -, rfl, -⟩ := h
  rfl

namespace Session
variable {a b t : Int} {i : Instruction} {f : Fault} {cause : Option Fault}
  {s s' : Session Devices} {traced : Bool}

/-- The instruction at `a` has written a value to a writer, and has failed because the line of the
value could not be passed on. -/
def LeavesLine (a : Int) (cause : Option Fault) (s s' : Session Devices) : Prop :=
  ∃ v b f, cause = some f ∧ Machine.execute a s.machine = .ok (.write v b) s'.machine ∧
    Devices.Unflushed v f s.world s'.world

/-- What the instruction at `a` leaves when it comes to nothing: for the `cause`, or because it has
to wait. -/
structure Spares (a : Int) (cause : Option Fault) (s s' : Session Devices) : Prop where
  image : s'.machine.image = s.machine.image
  memory : s.machine.memory.Extends s'.machine.memory
  base : s'.machine.base = s.machine.base
  unentered : (a < 0 ∨ ∃ g, s.machine.decodeAt a = .error g) →
    s'.machine.trace = s.machine.trace
  entered : 0 ≤ a → (∃ i, s.machine.decodeAt a = .ok i) →
    s'.machine.trace = s.machine.trace.push ⟨a, s.machine.memory.get a.toNat⟩
  world : s'.world = s.world ∨
    s.machine.ReadsAt a ∧ s'.world = finalState (Devices.read s.world) ∨ LeavesLine a cause s s'
  input : s'.world.input = s.world.input ∨
    s.machine.ReadsAt a ∧ s.world.input.Taken s'.world.input
  silent : Devices.Silent (s.machine.ReadsAt a) s.world s'.world ∨ LeavesLine a cause s s'

theorem Spares.get (h : Spares a cause s s') (b : Nat) :
    s'.machine.memory.get b = s.machine.memory.get b :=
  h.memory.get b

end Session

end Intcode
