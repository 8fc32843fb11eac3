import Intcode.Proofs.Action
import Intcode.Session

/-! # The steps of a session

A step first executes the instruction on the machine alone and then carries out the effect on the
wiring. The equations here separate the two, so that nothing behind them opens a session's `do`
blocks again. -/

namespace Intcode.Session
variable {σ α β : Type}

theorem onMachine_eq (x : MachineM α) (s : Session σ) :
    onMachine x s = viewResult (fun machine => { s with machine }) (x s.machine) := by
  simp only [onMachine]
  cases x s.machine <;> rfl

theorem onWorld_eq (x : EStateM Fault σ α) (s : Session σ) :
    onWorld x s = viewResult (fun world => { s with world }) (x s.world) := by
  simp only [onWorld]
  cases x s.world <;> rfl

theorem onMachine_bind (x : MachineM α) (f : α → MachineM β) :
    onMachine (σ := σ) (x >>= f) = onMachine x >>= fun a => onMachine (f a) := by
  funext s
  change onMachine (EStateM.bind x f) s = EStateM.bind (onMachine x) (fun a => onMachine (f a)) s
  simp only [onMachine, EStateM.bind]
  cases x s.machine <;> rfl

/-- The trace line of an instruction, in a session that is traced. -/
def logWhen (traced : Bool) (a cell : Int) (i : Instruction) : SessionM σ Unit :=
  if traced then logLine a cell i else pure ()

/-- Carries out the effect of an instruction, a read aside. -/
def conclude (w : Wiring σ) : Effect → SessionM σ Progress
  | .next b => return .running b
  | .halt => return .halted
  | .read target next => return .reading target next
  | .write v next => do
    onWorld (w.write v)
    return .running next

theorem issue_eq (w : Wiring σ) (traced : Bool) (a : Int) :
    issue w traced a = onMachine (Machine.fetch a) >>= fun (cell, i) =>
      logWhen traced a cell i >>= fun _ => onMachine (Machine.perform a i) >>= conclude w := by
  unfold issue logWhen
  refine congrArg _ (funext fun (cell, i) => ?_)
  cases traced with
  | false => simp only [Bool.false_eq_true, if_false, pure_bind]; rfl
  | true => simp only [if_true]; rfl

theorem issue_eq_execute (w : Wiring σ) (a : Int) :
    issue w false a = onMachine (Machine.execute a) >>= conclude w := by
  rw [issue_eq, Machine.execute, onMachine_bind, bind_assoc]
  rfl

/-! ### Equations for each ending -/

variable {w : Wiring σ} {a b t : Int} {s : Session σ} {m : Machine} {f : Fault} {world : σ}

theorem onMachine_of_ok {x : MachineM α} {r : α} (h : x s.machine = .ok r m) :
    onMachine x s = .ok r { s with machine := m } := by
  simp only [onMachine, h]

theorem onMachine_of_error {x : MachineM α} (h : x s.machine = .error f m) :
    onMachine x s = .error f { s with machine := m } := by
  simp only [onMachine, h]

theorem onWorld_of_ok {x : EStateM Fault σ α} {r : α} (h : x s.world = .ok r world) :
    onWorld x s = .ok r { s with world } := by
  simp only [onWorld, h]

theorem onWorld_of_error {x : EStateM Fault σ α} (h : x s.world = .error f world) :
    onWorld x s = .error f { s with world } := by
  simp only [onWorld, h]

theorem issue_of_ok {e : Effect} (h : Machine.execute a s.machine = .ok e m) :
    issue w false a s = conclude w e { s with machine := m } := by
  rw [issue_eq_execute, bind_of_ok (onMachine_of_ok h)]

theorem issue_of_error (h : Machine.execute a s.machine = .error f m) :
    issue w false a s = .error f { s with machine := m } := by
  rw [issue_eq_execute, bind_of_error (onMachine_of_error h)]

theorem issue_of_next (h : Machine.execute a s.machine = .ok (.next b) m) :
    issue w false a s = .ok (.running b) { s with machine := m } :=
  issue_of_ok h

theorem issue_of_halt (h : Machine.execute a s.machine = .ok .halt m) :
    issue w false a s = .ok .halted { s with machine := m } :=
  issue_of_ok h

theorem issue_of_read (h : Machine.execute a s.machine = .ok (.read t b) m) :
    issue w false a s = .ok (.reading t b) { s with machine := m } :=
  issue_of_ok h

theorem issue_of_write {v : Int} (h : Machine.execute a s.machine = .ok (.write v b) m)
    (hw : w.write v s.world = .ok () world) :
    issue w false a s = .ok (.running b) { s with machine := m, world } := by
  rw [issue_of_ok h, conclude]
  exact bind_of_ok (onWorld_of_ok hw)

theorem issue_of_write_error {v : Int} (h : Machine.execute a s.machine = .ok (.write v b) m)
    (hw : w.write v s.world = .error f world) :
    issue w false a s = .error f { s with machine := m, world } := by
  rw [issue_of_ok h, conclude]
  exact bind_of_error (onWorld_of_error hw)

theorem complete_of_error (h : w.read s.world = .error f world) :
    complete w t b s = .error f { s with world } := by
  rw [complete, bind_of_error (onWorld_of_error h)]

theorem complete_of_none (h : w.read s.world = .ok none world) :
    complete w t b s = .ok (.reading t b) { s with world } := by
  rw [complete, bind_of_ok (onWorld_of_ok h)]
  rfl

theorem complete_of_some {v : Int} {old : Option Int} (h : w.read s.world = .ok (some v) world)
    (hp : Machine.poke t v s.machine = .ok old m) :
    complete w t b s = .ok (.running b) { s with machine := m, world } := by
  rw [complete, bind_of_ok (onWorld_of_ok h)]
  exact bind_of_ok (onMachine_of_ok hp)

theorem complete_of_some_error {v : Int} (h : w.read s.world = .ok (some v) world)
    (hp : Machine.poke t v s.machine = .error f m) :
    complete w t b s = .error f { s with machine := m, world } := by
  rw [complete, bind_of_ok (onWorld_of_ok h)]
  exact bind_of_error (onMachine_of_error hp)

theorem step_of_issue {p : Progress} {s₁ : Session σ} (h : issue w false a s = .ok p s₁)
    (hp : ∀ t b, p ≠ .reading t b) : step w false a s = .ok p s₁ := by
  rw [step, bind_of_ok h]
  cases p with
  | reading t b => exact absurd rfl (hp t b)
  | running | halted => rfl

theorem step_of_reading {s₁ : Session σ} (h : issue w false a s = .ok (.reading t b) s₁) :
    step w false a s = complete w t b s₁ := by
  rw [step, bind_of_ok h]

theorem step_of_next (h : Machine.execute a s.machine = .ok (.next b) m) :
    step w false a s = .ok (.running b) { s with machine := m } :=
  step_of_issue (issue_of_next h) (fun _ _ => Progress.noConfusion)

theorem step_of_halt (h : Machine.execute a s.machine = .ok .halt m) :
    step w false a s = .ok .halted { s with machine := m } :=
  step_of_issue (issue_of_halt h) (fun _ _ => Progress.noConfusion)

theorem step_of_write {v : Int} (h : Machine.execute a s.machine = .ok (.write v b) m)
    (hw : w.write v s.world = .ok () world) :
    step w false a s = .ok (.running b) { s with machine := m, world } :=
  step_of_issue (issue_of_write h hw) (fun _ _ => Progress.noConfusion)

theorem step_of_read {v : Int} {old : Option Int} {m₁ : Machine}
    (h : Machine.execute a s.machine = .ok (.read t b) m₁)
    (hr : w.read s.world = .ok (some v) world) (hp : Machine.poke t v m₁ = .ok old m) :
    step w false a s = .ok (.running b) { s with machine := m, world } := by
  rw [step_of_reading (issue_of_read h)]
  exact complete_of_some hr hp

theorem step_of_error (h : Machine.execute a s.machine = .error f m) :
    step w false a s = .error f { s with machine := m } := by
  rw [step, bind_of_error (issue_of_error h)]

end Intcode.Session
