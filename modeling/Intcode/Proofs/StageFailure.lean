import Intcode.Proofs.MachineValues
import Intcode.Proofs.Request

/-! # Why a stage fails

A stage fails by itself, or because it finds the end of its traffic before it has all that it reads
(`starvation`). `Sound` says so of a stage and the channel that it reads, together with the reason
for a halt. A starvation stays justified, because a channel that is closed and empty stays so
whatever is asked of it. And as a channel is closed only when its writer has finished, no send is
refused. -/

namespace Intcode

namespace Fault

/-- The fault of a stage that finds the end of its traffic. -/
def starvation (name : String) : Fault := .device .input (.channel (.recvClosed name))

theorem not_own_starvation (name : String) : ¬ (starvation name).Own := id

end Fault

namespace Machine
variable {a : Int} {m m' : Machine} {i : Instruction} {f : Fault}

/-- A halt is the last instruction that was executed. -/
def AtHalt (m : Machine) : Prop :=
  ∃ e i, m.trace.back? = some e ∧ Instruction.decode (some e.address) e.cell = .ok i ∧
    i.operation = .halt

theorem effect_halt (h : perform a i m = .ok .halt m') : i.operation = .halt ∧ m' = m := by
  unfold perform at h
  cases ho : i.operation with
  | add | multiply | lessThan | equals =>
    rw [ho] at h
    cases effect_combine h
  | jumpIfNonzero | jumpIfZero =>
    rw [ho] at h
    obtain ⟨b, hb⟩ := effect_jumpWhen h
    cases hb
  | input | output | adjustBase =>
    rw [ho] at h
    obtain ⟨x, m₁, -, h⟩ := bind_eq_ok h
    cases h
  | halt =>
    rw [ho] at h
    cases h
    exact ⟨rfl, rfl⟩

theorem atHalt_of_execute (h : execute a m = .ok .halt m') : m'.AtHalt := by
  obtain ⟨-, i, hi, hperf⟩ := decodeAt_of_execute h
  obtain ⟨hop, rfl⟩ := effect_halt hperf
  exact ⟨⟨a, m.memory.get a.toNat⟩, i, by simp [enter], hi, hop⟩

end Machine

/-! ### Requests on regular channels -/

namespace Request
variable {r : Request} {c : Channel}

theorem regular_serve (r : Request) (hc : c.Regular) : (r.serve c).2.Regular := by
  cases r with
  | rest s => exact hc
  | send v sent refused =>
    simp only [serve]
    cases h : c.send v with
    | ok d => exact (hc.send h).1
    | error f => exact hc
  | receive got waiting ended => rw [serve_receive_snd]; exact hc.recv
  | close s => exact hc.close.1

/-- A channel whose traffic is over stays as it is. -/
theorem serve_of_spent (r : Request) (hc : c.Regular) (h : c.Spent) : (r.serve c).2 = c := by
  cases r with
  | rest s => rfl
  | send v sent refused => simp only [serve, Channel.send_of_closed h.1]
  | receive got waiting ended => rw [serve_receive_snd, h.recv hc]
  | close s => simp only [serve, Channel.close, h.1, if_true]

theorem closed_serve_input (hr : r.side = .input) : (r.serve c).2.closed = c.closed := by
  cases r with
  | receive got waiting ended => rw [serve_receive_snd, Channel.closed_recv]
  | rest s | send v sent refused | close s => cases hr

end Request

/-! ### How a stage has come to its status -/

namespace Stage
variable {s : Stage} {c d : Channel} {f : Fault}

/-- The fault of a stage that has failed, recorded or not. -/
def fault? (s : Stage) : Option Fault :=
  match s.status with
  | .raised f => some f
  | .closing outcome | .finished outcome => outcome
  | .running _ | .reading .. => none

/-- The fault of a stage once it has been recorded. -/
def recorded? (s : Stage) : Option Fault :=
  match s.status with
  | .closing outcome | .finished outcome => outcome
  | .raised _ | .running _ | .reading .. => none

/-- The stage has ended without a fault, at a halt instruction. -/
def Halted (s : Stage) : Prop := s.status = .finished none ∧ s.machine.AtHalt

/-- A stage that reads `c` has failed by itself or by the end of its traffic, or it has come to a
halt instruction. -/
structure Sound (c : Channel) (s : Stage) : Prop where
  fault : ∀ f, s.fault? = some f → f.Own ∨ f = .starvation c.name ∧ c.Spent
  halt : s.status = .closing none ∨ s.status = .finished none → s.machine.AtHalt

theorem Sound.serve (h : s.Sound c) (hc : c.Regular) (r : Request) : s.Sound (r.serve c).2 := by
  refine ⟨fun f hf => ?_, h.halt⟩
  rcases h.fault f hf with hown | ⟨hst, hspent⟩
  · exact .inl hown
  · rw [Request.serve_of_spent r hc hspent]
    exact .inr ⟨hst, hspent⟩

theorem sound_of_running (m : Machine) (a : Int) : (Stage.mk m (.running a)).Sound c := by
  constructor
  · intro f hf
    cases hf
  · rintro (h | h) <;> cases h

theorem sound_of_reading (m : Machine) (t b : Int) : (Stage.mk m (.reading t b)).Sound c := by
  constructor
  · intro f hf
    cases hf
  · rintro (h | h) <;> cases h

theorem sound_of_raised (m : Machine) (hf : f.Own ∨ f = .starvation c.name ∧ c.Spent) :
    (Stage.mk m (.raised f)).Sound c := by
  constructor
  · intro g hg
    cases hg
    exact hf
  · rintro (h | h) <;> cases h

/-- The next stage of a writer, at a sink that is closed exactly when the stage has finished. So a
send is never refused. -/
theorem serve_output (h : s.Sound c) (hside : s.request.side = .output)
    (hd : d.closed = true ↔ s.isFinished = true) :
    (s.request.serve d).1.Sound c ∧
      ((s.request.serve d).2.closed = true ↔ (s.request.serve d).1.isFinished = true) := by
  obtain ⟨m, status⟩ := s
  cases status with
  | running a =>
    simp only [request]
    cases he : Machine.execute a m with
    | error f m' => exact ⟨sound_of_raised m' (.inl (Machine.own_of_execute he)), hd⟩
    | ok e m' =>
      cases e with
      | next b => exact ⟨sound_of_running m' b, hd⟩
      | halt =>
        refine ⟨⟨fun f hf => ?_, fun _ => Machine.atHalt_of_execute he⟩, hd⟩
        cases hf
      | read t b => exact ⟨sound_of_reading m' t b, hd⟩
      | write v b =>
        have ho : d.closed = false := Bool.eq_false_iff.mpr fun hcl => by cases hd.mp hcl
        simp only [Request.serve, Channel.send_of_open ho]
        exact ⟨sound_of_running m' b, hd⟩
  | reading t b => cases hside
  | raised f =>
    refine ⟨⟨h.fault, ?_⟩, hd⟩
    rintro (hs | hs) <;> cases hs
  | closing outcome =>
    refine ⟨⟨h.fault, fun hs => h.halt ?_⟩, iff_of_true (Channel.closed_close d) rfl⟩
    rcases hs with hs | hs
    · cases hs
    · cases hs
      exact .inl rfl
  | finished outcome => exact ⟨h, hd⟩

/-- The next stage of a reader. -/
theorem serve_input (hc : c.Regular) (hside : s.request.side = .input) :
    (s.request.serve c).1.Sound (s.request.serve c).2 ∧ s.isFinished = false ∧
      (s.request.serve c).1.isFinished = false := by
  obtain ⟨m, status⟩ := s
  obtain ⟨t, b, hst⟩ := side_request_eq_input.mp hside
  obtain rfl : status = .reading t b := hst
  simp only [request, Request.serve]
  rcases hc.recv_cases with ⟨hr, -⟩ | ⟨v, d, hr, -⟩ | ⟨hr, hspent⟩
  · rw [hr]
    exact ⟨sound_of_reading m t b, rfl, rfl⟩
  · rw [hr]
    simp only [resume]
    cases hp : Machine.poke t v m with
    | ok old m' => exact ⟨sound_of_running m' b, rfl, rfl⟩
    | error f m' => exact ⟨sound_of_raised m' (.inl (Machine.own_of_poke hp)), rfl, rfl⟩
  · rw [hr]
    exact ⟨sound_of_raised m (.inr ⟨rfl, hspent⟩), rfl, rfl⟩

theorem recorded?_serve (s : Stage) (c : Channel) :
    (s.request.serve c).1.recorded? = s.recorded?.or s.failure? := by
  obtain ⟨m, status⟩ := s
  cases status with
  | running a =>
    simp only [request]
    cases Machine.execute a m with
    | error f m' => rfl
    | ok e m' =>
      cases e with
      | next b | halt | read t b => rfl
      | write v b =>
        simp only [Request.serve]
        cases c.send v <;> rfl
  | reading t b =>
    simp only [request, Request.serve]
    split
    · simp only [resume]
      cases Machine.poke t _ m <;> rfl
    · rfl
    · rfl
  | raised f => rfl
  | closing outcome | finished outcome => cases outcome <;> rfl

theorem fault?_of_recorded? (h : s.recorded? = some f) : s.fault? = some f := by
  obtain ⟨m, status⟩ := s
  cases status with
  | closing outcome | finished outcome => exact h
  | raised f | running a | reading t b => cases h

theorem serve_of_finished {outcome : Option Fault} (h : s.status = .finished outcome)
    (c : Channel) : (s.request.serve c).1 = s := by
  simp only [request, h, Request.serve]

theorem exists_outcome (h : s.isFinished = true) : ∃ outcome, s.status = .finished outcome := by
  unfold isFinished at h
  split at h
  · exact ⟨_, ‹_›⟩
  · cases h

end Stage

end Intcode
