import Intcode.Proofs.Operand
import Intcode.Proofs.SessionStep

/-! # How an instruction ends in a session

The equations of a step say what follows from the machine and the wiring; here it is said backwards.
An instruction that is not there fails at its cell. One that is there is entered in the trace and
told of, if the session is traced, and can then fail at five points (`Breaks`). If it waits, it has
asked for a value and done no more. A run comes to its end in one last instruction. -/

namespace Intcode

/-! ### Where an instruction fails -/

/-- How the instruction `i` at `a`, which has been entered in the trace, fails: its trace line cannot
be written, it fails by itself, the device fails, or there is no cell for the value read. -/
inductive Breaks {σ : Type} (w : Wiring σ) (a : Int) (i : Instruction) (m : Machine) (world : σ) :
    Fault → Machine → σ → Prop
  | line : Breaks w a i m world .unwritable m world
  | alone {f : Fault} {m' : Machine} (h : Machine.perform a i m = .error f m') :
    Breaks w a i m world f m' world
  | write {v b : Int} {f : Fault} {m' : Machine} {world' : σ}
    (h : Machine.perform a i m = .ok (.write v b) m') (hw : w.write v world = .error f world') :
    Breaks w a i m world f m' world'
  | read {t b : Int} {f : Fault} {m' : Machine} {world' : σ}
    (h : Machine.perform a i m = .ok (.read t b) m') (hr : w.read world = .error f world') :
    Breaks w a i m world f m' world'
  | target {t b v : Int} {m' : Machine} {world' : σ}
    (h : Machine.perform a i m = .ok (.read t b) m') (hr : w.read world = .ok (some v) world')
    (ht : t < 0) : Breaks w a i m world (.negativeAddress t) m' world'

namespace Session
variable {σ α : Type} {w : Wiring σ} {a b t : Int} {i : Instruction} {f : Fault} {p : Progress}
  {s s' : Session σ} {traced : Bool} {cell : Int}

theorem logWhen_ok {u : Unit} (h : logWhen traced a cell i s = .ok u s') :
    ∃ log, s' = { s with log } := by
  cases traced with
  | false => cases h; exact ⟨s.log, rfl⟩
  | true =>
    simp only [logWhen, logLine, if_true] at h
    split at h <;> cases h
    exact ⟨_, rfl⟩

theorem logWhen_error (h : logWhen traced a cell i s = .error f s') : f = .unwritable ∧ s' = s := by
  cases traced with
  | false => cases h
  | true =>
    simp only [logWhen, logLine, if_true] at h
    split at h <;> cases h
    exact ⟨rfl, rfl⟩

/-- A trace line is written whenever its integers can be. -/
theorem logWhen_writable (h : traced = true → ∀ v ∈ [a, cell, s.machine.base], Numeral.Writable v) :
    ∃ log, logWhen traced a cell i s = .ok () { s with log } := by
  cases traced with
  | false => exact ⟨s.log, rfl⟩
  | true =>
    have hw := h rfl
    refine ⟨s.log ++ Machine.traceLine a cell i s.machine.base, ?_⟩
    rw [logWhen, if_pos rfl, logLine, if_pos hw]

theorem onMachine_error {x : MachineM α} (h : onMachine x s = .error f s') :
    ∃ m, x s.machine = .error f m ∧ s' = { s with machine := m } := by
  cases hx : x s.machine with
  | ok r m => rw [onMachine_of_ok hx] at h; cases h
  | error g m => rw [onMachine_of_error hx] at h; cases h; exact ⟨m, rfl, rfl⟩

theorem onMachine_ok {x : MachineM α} {r : α} (h : onMachine x s = .ok r s') :
    ∃ m, x s.machine = .ok r m ∧ s' = { s with machine := m } := by
  cases hx : x s.machine with
  | ok r m => rw [onMachine_of_ok hx] at h; cases h; exact ⟨m, rfl, rfl⟩
  | error g m => rw [onMachine_of_error hx] at h; cases h

theorem onWorld_error {x : EStateM Fault σ α} (h : onWorld x s = .error f s') :
    ∃ world, x s.world = .error f world ∧ s' = { s with world } := by
  cases hx : x s.world with
  | ok r world => rw [onWorld_of_ok hx] at h; cases h
  | error g world => rw [onWorld_of_error hx] at h; cases h; exact ⟨world, rfl, rfl⟩

theorem onWorld_ok {x : EStateM Fault σ α} {r : α} (h : onWorld x s = .ok r s') :
    ∃ world, x s.world = .ok r world ∧ s' = { s with world } := by
  cases hx : x s.world with
  | ok r world => rw [onWorld_of_ok hx] at h; cases h; exact ⟨world, rfl, rfl⟩
  | error g world => rw [onWorld_of_error hx] at h; cases h

/-! ### Instructions that are not there -/

theorem step_of_neg (ha : a < 0) (traced : Bool) (s : Session σ) :
    step w traced a s = .error (.negativeAddress a) s := by
  rw [step, issue_eq, bind_assoc,
    bind_of_error (onMachine_of_error (Machine.fetch_of_neg ha s.machine))]

theorem step_of_undecoded {g : DecodeFault} (ha : 0 ≤ a) (hd : s.machine.decodeAt a = .error g)
    (traced : Bool) :
    step w traced a s = .error (.decode g) { s with machine := s.machine.look a } := by
  rw [step, issue_eq, bind_assoc,
    bind_of_error (onMachine_of_error (Machine.fetch_of_undecoded ha hd))]

/-- An instruction that is there is entered in the trace, and told of, before it is performed. -/
theorem issue_of_decoded (ha : 0 ≤ a) (hi : s.machine.decodeAt a = .ok i) (traced : Bool) :
    issue w traced a s = (logWhen traced a (s.machine.memory.get a.toNat) i >>= fun _ =>
      onMachine (Machine.perform a i) >>= conclude w) { s with machine := s.machine.enter a } := by
  rw [issue_eq, bind_of_ok (onMachine_of_ok (Machine.fetch_of_decoded ha hi))]

section
variable {e : Effect} {m : Machine}
  (hline : traced = true →
    ∀ v ∈ [a, s.machine.memory.get a.toNat, s.machine.base], Numeral.Writable v)
include hline

theorem issue_of_performed (ha : 0 ≤ a) (hi : s.machine.decodeAt a = .ok i)
    (h : Machine.perform a i (s.machine.enter a) = .ok e m) :
    ∃ log, issue w traced a s = conclude w e ⟨m, s.world, log⟩ := by
  obtain ⟨log, hlog⟩ := logWhen_writable (i := i) (s := { s with machine := s.machine.enter a }) hline
  refine ⟨log, ?_⟩
  rw [issue_of_decoded ha hi, bind_of_ok hlog, bind_of_ok (onMachine_of_ok h)]

theorem step_of_performed {b : Int} (ha : 0 ≤ a) (hi : s.machine.decodeAt a = .ok i)
    (h : Machine.perform a i (s.machine.enter a) = .ok (.next b) m) :
    ∃ log, step w traced a s = .ok (.running b) ⟨m, s.world, log⟩ := by
  obtain ⟨log, hissue⟩ := issue_of_performed (w := w) hline ha hi h
  exact ⟨log, by rw [step, bind_of_ok (hissue.trans rfl)]; rfl⟩

theorem step_of_performed_read {t b : Int} (ha : 0 ≤ a) (hi : s.machine.decodeAt a = .ok i)
    (h : Machine.perform a i (s.machine.enter a) = .ok (.read t b) m) :
    ∃ log, step w traced a s = complete w t b ⟨m, s.world, log⟩ := by
  obtain ⟨log, hissue⟩ := issue_of_performed (w := w) hline ha hi h
  exact ⟨log, by rw [step, bind_of_ok (hissue.trans rfl)]⟩

theorem step_of_perform_error (ha : 0 ≤ a) (hi : s.machine.decodeAt a = .ok i)
    (h : Machine.perform a i (s.machine.enter a) = .error f m) :
    ∃ log, step w traced a s = .error f ⟨m, s.world, log⟩ := by
  obtain ⟨log, hlog⟩ := logWhen_writable (i := i) (s := { s with machine := s.machine.enter a }) hline
  have hissue : issue w traced a s = .error f ⟨m, s.world, log⟩ := by
    rw [issue_of_decoded ha hi, bind_of_ok hlog, bind_of_error (onMachine_of_error h)]
  exact ⟨log, by rw [step, bind_of_error hissue]⟩

end

/-! ### Inversions -/

theorem complete_error (h : complete w t b s = .error f s') :
    ∃ world, s' = { s with world } ∧ (w.read s.world = .error f world ∨
      ∃ v, w.read s.world = .ok (some v) world ∧ t < 0 ∧ f = .negativeAddress t) := by
  rcases bind_eq_error h with h | ⟨v, s₁, hv, h⟩
  · obtain ⟨world, hr, rfl⟩ := onWorld_error h
    exact ⟨world, rfl, .inl hr⟩
  · obtain ⟨world, hr, rfl⟩ := onWorld_ok hv
    cases v with
    | none => cases h
    | some v =>
      rcases bind_eq_error h with h | ⟨old, s₂, -, h⟩
      · obtain ⟨m, hp, rfl⟩ := onMachine_error h
        obtain ⟨ht, rfl, rfl⟩ := Machine.poke_error hp
        exact ⟨world, rfl, .inr ⟨v, hr, ht, rfl⟩⟩
      · cases h

theorem complete_waiting {t' b' : Int} (h : complete w t b s = .ok (.reading t' b') s') :
    t' = t ∧ b' = b ∧ ∃ world, w.read s.world = .ok none world ∧ s' = { s with world } := by
  obtain ⟨v, s₁, hv, h⟩ := bind_eq_ok h
  obtain ⟨world, hr, rfl⟩ := onWorld_ok hv
  cases v with
  | none => cases h; exact ⟨rfl, rfl, world, hr, rfl⟩
  | some v =>
    obtain ⟨old, s₂, -, h⟩ := bind_eq_ok h
    cases h

theorem conclude_error {e : Effect} (h : conclude w e s = .error f s') :
    ∃ v b world, e = .write v b ∧ w.write v s.world = .error f world ∧ s' = { s with world } := by
  cases e with
  | next b | halt | read t b => cases h
  | write v b =>
    rcases bind_eq_error h with h | ⟨u, s₁, -, h⟩
    · obtain ⟨world, hw, rfl⟩ := onWorld_error h
      exact ⟨v, b, world, rfl, hw, rfl⟩
    · cases h

theorem conclude_reading {e : Effect} (h : conclude w e s = .ok (.reading t b) s') :
    e = .read t b ∧ s' = s := by
  cases e with
  | next b | halt => cases h
  | read t b => cases h; exact ⟨rfl, rfl⟩
  | write v b =>
    obtain ⟨u, s₁, -, h⟩ := bind_eq_ok h
    cases h

/-- A read that is issued has changed nothing around the machine. -/
theorem issue_reading (ha : 0 ≤ a) (hi : s.machine.decodeAt a = .ok i)
    (h : issue w traced a s = .ok (.reading t b) s') :
    ∃ m log, Machine.perform a i (s.machine.enter a) = .ok (.read t b) m ∧
      s' = ⟨m, s.world, log⟩ := by
  rw [issue_of_decoded ha hi] at h
  obtain ⟨u, s₁, hlog, h⟩ := bind_eq_ok h
  obtain ⟨log, rfl⟩ := logWhen_ok hlog
  obtain ⟨e, s₂, he, h⟩ := bind_eq_ok h
  obtain ⟨m, hm, rfl⟩ := onMachine_ok he
  obtain ⟨rfl, rfl⟩ := conclude_reading h
  exact ⟨m, log, hm, rfl⟩

theorem issue_error (ha : 0 ≤ a) (hi : s.machine.decodeAt a = .ok i)
    (h : issue w traced a s = .error f s') :
    Breaks w a i (s.machine.enter a) s.world f s'.machine s'.world := by
  rw [issue_of_decoded ha hi] at h
  rcases bind_eq_error h with h | ⟨u, s₁, hlog, h⟩
  · obtain ⟨rfl, rfl⟩ := logWhen_error h
    exact .line
  obtain ⟨log, rfl⟩ := logWhen_ok hlog
  rcases bind_eq_error h with h | ⟨e, s₂, he, h⟩
  · obtain ⟨m, hm, rfl⟩ := onMachine_error h
    exact .alone hm
  obtain ⟨m, hm, rfl⟩ := onMachine_ok he
  obtain ⟨v, b, world, rfl, hw, rfl⟩ := conclude_error h
  exact .write hm hw

/-- How an instruction fails in a session. -/
theorem step_error (ha : 0 ≤ a) (hi : s.machine.decodeAt a = .ok i)
    (h : step w traced a s = .error f s') :
    Breaks w a i (s.machine.enter a) s.world f s'.machine s'.world := by
  rcases bind_eq_error h with h | ⟨p, s₁, hp, h⟩
  · exact issue_error ha hi h
  cases p with
  | running b | halted => cases h
  | reading t b =>
    obtain ⟨m, log, hm, rfl⟩ := issue_reading ha hi hp
    obtain ⟨world, rfl, hr | ⟨v, hr, ht, rfl⟩⟩ := complete_error h
    · exact .read hm hr
    · exact .target hm hr ht

/-- An instruction that waits has asked for a value and got none. -/
theorem step_waiting (h : step w traced a s = .ok (.reading t b) s') :
    0 ≤ a ∧ ∃ i m, s.machine.decodeAt a = .ok i ∧
      Machine.perform a i (s.machine.enter a) = .ok (.read t b) m ∧ s'.machine = m ∧
      w.read s.world = .ok none s'.world := by
  by_cases ha : a < 0
  · rw [step_of_neg ha] at h
    cases h
  have ha : 0 ≤ a := Int.not_lt.mp ha
  refine ⟨ha, ?_⟩
  cases hd : s.machine.decodeAt a with
  | error g =>
    rw [step_of_undecoded ha hd] at h
    cases h
  | ok i =>
    obtain ⟨p, s₁, hp, h⟩ := bind_eq_ok h
    cases p with
    | running b | halted => cases h
    | reading t' b' =>
      obtain ⟨m, log, hm, rfl⟩ := issue_reading ha hd hp
      obtain ⟨rfl, rfl, world, hr, rfl⟩ := complete_waiting h
      exact ⟨i, m, rfl, hm, rfl, hr⟩

end Session

end Intcode
