import Intcode.Proofs.ChannelQueue
import Intcode.Proofs.SessionStep

/-! # The path of a machine

A machine meets its surroundings in the values that it receives and sends, and in nothing else. A
`Path` leads from one instruction to another one and lists what was exchanged on the way. Whatever
drives a machine, the instructions it completes make up a path. Here the driver is a session that
reads a closed channel and writes an open one: along the path it takes the received values off the
first channel and puts the sent ones on the second. -/

namespace Intcode

/-- What an instruction exchanges with the surroundings of its machine. -/
inductive Event
  | silent
  | receive (v : Int)
  | send (v : Int)
deriving DecidableEq, Repr

namespace Event

def received? : Event → Option Int
  | receive v => some v
  | _ => none

def sent? : Event → Option Int
  | send v => some v
  | _ => none

/-- The values received along a path. -/
def received (es : List Event) : List Int := es.filterMap received?

/-- The values sent along a path. -/
def sent (es : List Event) : List Int := es.filterMap sent?

theorem received_cons (e : Event) (es : List Event) :
    received (e :: es) = received [e] ++ received es := by
  cases e <;> rfl

theorem sent_cons (e : Event) (es : List Event) : sent (e :: es) = sent [e] ++ sent es := by
  cases e <;> rfl

theorem received_of_ne {e : Event} (h : ∀ v, e ≠ receive v) : received [e] = [] := by
  cases e with
  | receive v => exact absurd rfl (h v)
  | silent | send v => rfl

@[simp] theorem sent_nil : sent [] = [] := rfl

@[simp] theorem sent_silent : sent [silent] = [] := rfl

@[simp] theorem sent_receive (v : Int) : sent [receive v] = [] := rfl

end Event

namespace Machine
variable {a b c : Int} {m m₁ m₂ m' : Machine} {e : Event} {es : List Event} {f : Fault}

/-- One instruction, which is completed if it reads. -/
inductive Moves (a : Int) (m : Machine) : Event → Int → Machine → Prop
  | next {b : Int} {m' : Machine} (h : execute a m = .ok (.next b) m') : Moves a m .silent b m'
  | write {v b : Int} {m' : Machine} (h : execute a m = .ok (.write v b) m') :
    Moves a m (.send v) b m'
  | read {t v b : Int} {old : Option Int} {m₁ m' : Machine}
    (h : execute a m = .ok (.read t b) m₁) (hp : poke t v m₁ = .ok old m') :
    Moves a m (.receive v) b m'

/-- Instructions one after the other, from `a` up to the one at the second address. -/
inductive Path : Int → Machine → List Event → Int → Machine → Prop
  | refl (a : Int) (m : Machine) : Path a m [] a m
  | step {a b c : Int} {m m₁ m₂ : Machine} {e : Event} {es : List Event} (h : Moves a m e b m₁)
    (p : Path b m₁ es c m₂) : Path a m (e :: es) c m₂

end Machine

namespace Devices
variable {source sink : String} {v : Int} {vs ws : List Int}

/-- A closed channel to read, with the values that are left on it, and an open one to write. -/
def channels (source sink : String) (unread written : List Int) : Devices where
  input := .channel (Channel.ofList source unread).close
  output := .channel (.ofList sink written)

theorem read_channels_cons :
    wiring.read (channels source sink (v :: vs) ws) = .ok (some v) (channels source sink vs ws) :=
  rfl

theorem read_channels_nil : wiring.read (channels source sink [] ws) =
    .error (.device .input (.channel (.recvClosed source))) (channels source sink [] ws) :=
  rfl

theorem write_channels : wiring.write v (channels source sink vs ws) =
    .ok () (channels source sink vs (ws ++ [v])) := by
  have h : Channel.deliver v (.ofList sink ws) = .ok () (.ofList sink (ws ++ [v])) := by
    simp only [Channel.deliver, Channel.send_ofList]
  show onOutput (Channel.deliver v) (.ofList sink ws) (channels source sink vs ws) = _
  simp only [onOutput, h]
  rfl

end Devices

namespace Session
open Devices (channels)
variable {source sink : String} {vs ws : List Int} {a : Int} {m : Machine} {log : String}
  {s : Session Devices} {p : Progress} {f : Fault}

/-- How a step between two channels ends. It waits for nothing, and only an instruction that reads
can fail otherwise than by itself. -/
def StepEnds (source sink : String) (vs ws : List Int) (log : String) (a : Int) (m : Machine) :
    EStateM.Result Fault (Session Devices) Progress → Prop
  | .ok (.running b) s => ∃ e m' rest, Machine.Moves a m e b m' ∧ vs = Event.received [e] ++ rest ∧
      s = ⟨m', channels source sink rest (ws ++ Event.sent [e]), log⟩
  | .ok (.reading ..) _ => False
  | .ok .halted s => ∃ m', Machine.execute a m = .ok .halt m' ∧
      s = ⟨m', channels source sink vs ws, log⟩
  | .error f s =>
    (∃ m', Machine.execute a m = .error f m' ∧ s = ⟨m', channels source sink vs ws, log⟩) ∨
      ∃ t b m', Machine.execute a m = .ok (.read t b) m'

theorem step_ends (source sink : String) (vs ws : List Int) (log : String) (a : Int) (m : Machine) :
    StepEnds source sink vs ws log a m
      (step Devices.wiring false a ⟨m, channels source sink vs ws, log⟩) := by
  cases he : Machine.execute a m with
  | error f m' =>
    rw [step_of_error he]
    exact .inl ⟨m', he, rfl⟩
  | ok e m' =>
    cases e with
    | next b =>
      rw [step_of_next he]
      exact ⟨.silent, m', vs, .next he, rfl, by rw [Event.sent_silent, List.append_nil]⟩
    | halt =>
      rw [step_of_halt he]
      exact ⟨m', he, rfl⟩
    | write v b =>
      rw [step_of_write he Devices.write_channels]
      exact ⟨.send v, m', vs, .write he, rfl, rfl⟩
    | read t b =>
      rw [step_of_reading (issue_of_read he)]
      cases vs with
      | nil =>
        rw [complete_of_error Devices.read_channels_nil]
        exact .inr ⟨t, b, m', he⟩
      | cons v vs =>
        cases hp : Machine.poke t v m' with
        | ok old m₁ =>
          rw [complete_of_some (s := ⟨m', channels source sink (v :: vs) ws, log⟩)
            Devices.read_channels_cons hp]
          exact ⟨.receive v, m₁, vs, .read he hp, rfl, by rw [Event.sent_receive, List.append_nil]⟩
        | error f m₁ =>
          rw [complete_of_some_error (s := ⟨m', channels source sink (v :: vs) ws, log⟩)
            Devices.read_channels_cons hp]
          exact .inr ⟨t, b, m', he⟩

/-- How a run between two channels ends, if it does not fail. -/
theorem run_channels {n : Nat} {s : Session Devices}
    (h : run Devices.wiring false n a ⟨m, channels source sink vs ws, log⟩ = .ok p s) :
    ∃ es c m₁ m' rest, Machine.Path a m es c m₁ ∧ vs = Event.received es ++ rest ∧
      s = ⟨m', channels source sink rest (ws ++ Event.sent es), log⟩ ∧
      (p = .running c ∧ m' = m₁ ∨ p = .halted ∧ Machine.execute c m₁ = .ok .halt m') := by
  induction n generalizing a m vs ws with
  | zero =>
    cases h
    refine ⟨[], a, m, m, vs, .refl a m, rfl, ?_, .inl ⟨rfl, rfl⟩⟩
    rw [Event.sent_nil, List.append_nil]
  | succ n ih =>
    have hstep := step_ends source sink vs ws log a m
    rw [run] at h
    obtain ⟨q, s₁, hq, h⟩ := bind_eq_ok h
    rw [hq] at hstep
    cases q with
    | running b =>
      obtain ⟨e, m₁, rest, hm, rfl, rfl⟩ := hstep
      obtain ⟨es, c, m₂, m', rest', hp, rfl, rfl, hend⟩ := ih h
      refine ⟨e :: es, c, m₂, m', rest', .step hm hp, ?_, ?_, hend⟩
      · rw [Event.received_cons e es, List.append_assoc]
      · rw [Event.sent_cons e es, List.append_assoc]
    | reading t b => exact hstep.elim
    | halted =>
      cases h
      obtain ⟨m', he, rfl⟩ := hstep
      refine ⟨[], a, m, m', vs, .refl a m, rfl, ?_, .inr ⟨rfl, he⟩⟩
      rw [Event.sent_nil, List.append_nil]

end Session

end Intcode
