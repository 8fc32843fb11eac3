import Intcode.Proofs.Action
import Intcode.Proofs.Tape
import Intcode.Proofs.SessionStep

/-! # A growing memory is a tape

`Machine.tape` forgets how many cells a machine has. Every action on a machine does to its tape what
the rules of `TapeMachine` say, with the same value or fault; hence a session cannot tell a grown
memory from a short one. -/

namespace Intcode

namespace Machine

/-- The machine on the tape that the memory holds. -/
def tape (m : Machine) : TapeMachine := ⟨m.memory.get, m.base, m.trace⟩

/-- The tape machine with more cells in memory is the same. -/
theorem tape_grow (m : Machine) (a : Nat) : { m with memory := m.memory.grow a }.tape = m.tape := by
  have h : (m.memory.grow a).get = m.memory.get := funext (m.memory.get_grow a)
  simp only [tape, h]

theorem tape_set (m : Machine) (a : Nat) (v : Int) :
    { m with memory := (m.memory.grow a).set a v }.tape =
      { m.tape with tape := fun b => if b = a then v else m.tape.tape b } := by
  have h : ((m.memory.grow a).set a v).get = fun b => if b = a then v else m.memory.get b := by
    funext b
    have ha : a < (m.memory.grow a).size := by rw [Memory.size_grow]; omega
    rw [Memory.get_set ha, Memory.get_grow]
    simp only [eq_comm]
  simp only [tape, h]

theorem tape_load (image : List Int) (base : Int) :
    { load image with base }.tape = TapeMachine.load image base := by
  have h : (Memory.ofList image).get = Tape.ofList image := by
    funext a
    simp [Memory.ofList, Memory.get, Tape.ofList, Array.getD_eq_getD_getElem?,
      List.getD_eq_getElem?_getD]
  simp only [tape, load, TapeMachine.load, h]

end Machine

namespace TapeMachine
variable {α β : Type}

/-- A rule as an action on machines. -/
def run (x : TapeMachine → Except Fault (α × TapeMachine)) : EStateM Fault TapeMachine α := fun m =>
  match x m with
  | .ok (a, m') => .ok a m'
  | .error f => .error f m

/-- A rule that changes nothing, as an action on machines. -/
def ask (x : TapeMachine → Except Fault α) : EStateM Fault TapeMachine α := fun m =>
  match x m with
  | .ok a => .ok a m
  | .error f => .error f m

theorem ask_bind (x : TapeMachine → Except Fault α) (y : α → TapeMachine → Except Fault β) :
    ask (fun m => x m >>= fun a => y a m) = ask x >>= fun a => ask (y a) := by
  funext m
  change _ = EStateM.bind (ask x) (fun a => ask (y a)) m
  simp only [EStateM.bind, ask]
  cases x m <;> rfl

theorem run_bind (x : TapeMachine → Except Fault α)
    (y : α → TapeMachine → Except Fault (β × TapeMachine)) :
    run (fun m => x m >>= fun a => y a m) = ask x >>= fun a => run (y a) := by
  funext m
  change _ = EStateM.bind (ask x) (fun a => run (y a)) m
  simp only [EStateM.bind, run, ask]
  cases x m <;> rfl

end TapeMachine

/-! ### Actions on a machine -/

namespace Machine
open TapeMachine (ask run)

/-- `x` obeys the rule `y`. -/
abbrev Obeys {α : Type} (x : MachineM α) (y : EStateM Fault TapeMachine α) : Prop :=
  Simulates tape x y

theorem obeys_peek (a : Int) : Obeys (peek a) (ask fun m => m.tape.read a) := by
  intro m
  by_cases h : a < 0
  · rw [peek_of_neg m h]
    simp [viewResult, ask, Tape.read, h]
  · rw [peek_of_nonneg m (by omega)]
    simp [viewResult, ask, Tape.read, h, tape_grow]
    rfl

/-- The value that `poke` gives tells whether the cell was there, so it must not be used. -/
theorem obeys_poke {α : Type} (a v : Int) (r : α) :
    Obeys (poke a v >>= fun _ => pure r) (run fun m => return (r, ← m.store a v)) := by
  intro m
  change viewResult tape (EStateM.bind (poke a v) (fun _ => pure r) m) = _
  by_cases h : a < 0
  · simp only [EStateM.bind, poke_of_neg m h]
    simp only [viewResult, run, TapeMachine.store, Tape.write, if_pos h]
    rfl
  · simp only [EStateM.bind, poke_of_nonneg m (Int.not_lt.mp h)]
    change EStateM.Result.ok r _ = _
    rw [tape_set]
    simp only [run, TapeMachine.store, Tape.write, if_neg h]
    rfl

theorem obeys_value (mode : Mode) (operand : Int) :
    Obeys (value mode operand) (ask fun m => match mode with
      | .pointer => m.tape.read operand
      | .value => return operand
      | .relative => m.tape.read (operand + m.base)) := by
  cases mode with
  | pointer => exact obeys_peek operand
  | value => exact .ret operand
  | relative => exact fun m => obeys_peek (operand + m.base) m

theorem obeys_argument (mode : Mode) (a : Int) :
    Obeys (argument mode a) (ask (TapeMachine.argument mode a)) := by
  unfold TapeMachine.argument
  rw [TapeMachine.ask_bind]
  exact (obeys_peek a).bind fun operand => obeys_value mode operand

theorem obeys_target (mode : Mode) (operand : Int) :
    Obeys (target mode operand) (ask fun m => match mode with
      | .pointer => return operand
      | .value => throw (.valueTarget operand)
      | .relative => return operand + m.base) := by
  cases mode with
  | pointer => exact .ret operand
  | value => exact .fail (Fault.valueTarget operand)
  | relative => exact fun m => rfl

theorem obeys_destination (mode : Mode) (a : Int) :
    Obeys (destination mode a) (ask (TapeMachine.destination mode a)) := by
  unfold TapeMachine.destination
  rw [TapeMachine.ask_bind]
  exact (obeys_peek a).bind fun operand => obeys_target mode operand

theorem obeys_fetch (a : Int) : Obeys (fetch a) (run (TapeMachine.fetch a)) := by
  unfold TapeMachine.fetch
  rw [TapeMachine.run_bind]
  refine (obeys_peek a).bind fun cell => ?_
  cases Instruction.decode a cell with
  | error f => exact .fail (Fault.decode f)
  | ok i => exact fun m => rfl

theorem obeys_combine (f : Int → Int → Int) (a : Int) (i : Instruction) :
    Obeys (combine f a i) (run (TapeMachine.combine f a i)) := by
  unfold TapeMachine.combine TapeMachine.arguments
  simp only [bind_assoc, pure_bind]
  rw [TapeMachine.run_bind]
  refine (obeys_argument i.first (a + 1)).bind fun x => ?_
  rw [TapeMachine.run_bind]
  refine (obeys_argument i.second (a + 2)).bind fun y => ?_
  rw [TapeMachine.run_bind]
  exact (obeys_destination i.third (a + 3)).bind fun t => obeys_poke t (f x y) _

theorem obeys_jumpWhen (test : Int → Bool) (a : Int) (i : Instruction) :
    Obeys (jumpWhen test a i) (run (TapeMachine.jumpWhen test a i)) := by
  unfold TapeMachine.jumpWhen TapeMachine.arguments
  simp only [bind_assoc, pure_bind]
  rw [TapeMachine.run_bind]
  refine (obeys_argument i.first (a + 1)).bind fun x => ?_
  rw [TapeMachine.run_bind]
  exact (obeys_argument i.second (a + 2)).bind fun there m => rfl

theorem obeys_perform (a : Int) (i : Instruction) :
    Obeys (perform a i) (run (TapeMachine.perform a i)) := by
  unfold perform TapeMachine.perform
  cases i.operation with
  | add | multiply | lessThan | equals => exact obeys_combine _ a i
  | jumpIfNonzero | jumpIfZero => exact obeys_jumpWhen _ a i
  | input =>
    rw [TapeMachine.run_bind]
    exact (obeys_destination i.first (a + 1)).bind fun t m => rfl
  | output =>
    rw [TapeMachine.run_bind]
    exact (obeys_argument i.first (a + 1)).bind fun v m => rfl
  | adjustBase =>
    rw [TapeMachine.run_bind]
    exact (obeys_argument i.first (a + 1)).bind fun x m => rfl
  | halt => exact fun m => rfl

end Machine

/-! ### Sessions -/

namespace Session
variable {σ α : Type}

/-- The session on the tape of its machine. -/
def tape (s : Session σ) : TapeSession σ := ⟨s.machine.tape, s.world, s.log⟩

abbrev Obeys (x : SessionM σ α) (y : EStateM Fault (TapeSession σ) α) : Prop :=
  Simulates tape x y

theorem obeys_onMachine {x : MachineM α} {y : TapeMachine → Except Fault (α × TapeMachine)}
    (h : Machine.Obeys x (TapeMachine.run y)) :
    Obeys (onMachine (σ := σ) x) (TapeSession.onTape y) := by
  intro s
  have hs := h s.machine
  simp only [TapeMachine.run] at hs
  simp only [onMachine, TapeSession.onTape, tape]
  cases hx : x s.machine <;> cases hy : y s.machine.tape <;> simp_all [viewResult, tape]

theorem obeys_onWorld (x : EStateM Fault σ α) : Obeys (onWorld x) (TapeSession.onWorld x) := by
  intro s
  simp only [onWorld, TapeSession.onWorld, tape]
  cases x s.world <;> rfl

theorem obeys_logLine (a cell : Int) (i : Instruction) :
    Obeys (σ := σ) (logLine a cell i) (TapeSession.logLine a cell i) := by
  intro s
  have hbase : s.tape.machine.base = s.machine.base := rfl
  unfold logLine TapeSession.logLine
  rw [hbase]
  by_cases h : ∀ v ∈ [a, cell, s.machine.base], Numeral.Writable v
  · rw [if_pos h, if_pos h]; rfl
  · rw [if_neg h, if_neg h]; rfl

theorem obeys_logWhen (traced : Bool) (a cell : Int) (i : Instruction) :
    Obeys (σ := σ) (logWhen traced a cell i) (TapeSession.logWhen traced a cell i) := by
  unfold logWhen TapeSession.logWhen
  split
  · exact obeys_logLine a cell i
  · exact .ret ()

theorem obeys_conclude (w : Wiring σ) (e : Effect) :
    Obeys (conclude w e) (TapeSession.conclude w e) := by
  cases e with
  | next b => exact .ret _
  | halt => exact .ret _
  | read target next => exact .ret _
  | write v next => exact (obeys_onWorld (w.write v)).bind fun _ => .ret _

theorem obeys_issue (w : Wiring σ) (traced : Bool) (a : Int) :
    Obeys (issue w traced a) (TapeSession.issue w traced a) := by
  rw [issue_eq]
  refine (obeys_onMachine (Machine.obeys_fetch a)).bind fun (cell, i) => ?_
  refine (obeys_logWhen traced a cell i).bind fun _ => ?_
  exact (obeys_onMachine (Machine.obeys_perform a i)).bind (obeys_conclude w)

theorem obeys_complete (w : Wiring σ) (target next : Int) :
    Obeys (complete w target next) (TapeSession.complete w target next) := by
  refine (obeys_onWorld w.read).bind fun v => ?_
  cases v with
  | none => exact .ret _
  | some v =>
    have h := obeys_onMachine (σ := σ) (Machine.obeys_poke target v (Progress.running next))
    rw [onMachine_bind] at h
    exact h

theorem obeys_step (w : Wiring σ) (traced : Bool) (a : Int) :
    Obeys (step w traced a) (TapeSession.step w traced a) := by
  refine (obeys_issue w traced a).bind fun p => ?_
  cases p with
  | running b => exact .ret _
  | reading target next => exact obeys_complete w target next
  | halted => exact .ret _

theorem obeys_run (w : Wiring σ) (traced : Bool) (fuel : Nat) (a : Int) :
    Obeys (run w traced fuel a) (TapeSession.run w traced fuel a) := by
  induction fuel generalizing a with
  | zero => exact .ret _
  | succ fuel ih =>
    refine (obeys_step w traced a).bind fun p => ?_
    cases p with
    | running b => exact ih b
    | reading target next => exact .ret _
    | halted => exact .ret _

/-- With any wiring, after any number of instructions, a program in a growing memory and the program
on its tape have come to the same next address, end or fault, with the same trace, base, trace lines
and state of the wiring, and the memory holds the tape. More cells in the memory make no difference.
-/
theorem run_refines_tape (w : Wiring σ) (traced : Bool) (fuel : Nat) (start base : Int)
    (image : List Int) (world : σ) (log : String) :
    let m : Machine := { Machine.load image with base }
    let onTape := TapeSession.run w traced fuel start ⟨.load image base, world, log⟩
    viewResult tape (run w traced fuel start ⟨m, world, log⟩) = onTape ∧
      ∀ a, viewResult tape
        (run w traced fuel start ⟨{ m with memory := m.memory.grow a }, world, log⟩) = onTape := by
  intro m onTape
  have hm : m.tape = .load image base := Machine.tape_load image base
  have hrun : ∀ m' : Machine, m'.tape = m.tape →
      viewResult tape (run w traced fuel start ⟨m', world, log⟩) = onTape := by
    intro m' h
    rw [obeys_run w traced fuel start ⟨m', world, log⟩]
    show TapeSession.run w traced fuel start ⟨m'.tape, world, log⟩ = _
    rw [h, hm]
  exact ⟨hrun m rfl, fun a => hrun _ (m.tape_grow a)⟩

end Session

end Intcode
