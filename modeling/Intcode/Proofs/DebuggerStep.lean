import Intcode.Debugger
import Intcode.Proofs.Execution
import Intcode.Proofs.NumeralRoundTrip
import Intcode.Proofs.Path

/-! # The steps of a debugger

A debugger looks at an instruction before it executes it, and may have looked already when it told
that an input is required. `Stands` is what stays true of it between two instructions: its machine
is the one that is driven, but for a look at the next instruction, and what the machine has sent is
among its outputs. In this position a step does what the machine alone does. -/

namespace Intcode

namespace Debugger
open Machine (ReadsAt)
variable {d : Debugger} {a b : Int} {m m' : Machine} {outs : List Int} {f : Fault}
  {line : Option String}

/-- The debugger is about to execute the instruction at `a` on `m`, which has sent `outs`. -/
structure Stands (d : Debugger) (a : Int) (m : Machine) (outs : List Int) : Prop where
  ip : d.ip = a
  halted : d.halted = false
  capture : d.capture = .ofList "capture" []
  machine : d.machine = m ∨ 0 ≤ a ∧ d.machine = m.look a
  outputs : d.outputs.toList = outs

namespace Stands

theorem execute_machine (h : Stands d a m outs) :
    Machine.execute a d.machine = Machine.execute a m := by
  rcases h.machine with hm | ⟨ha, hm⟩
  · rw [hm]
  · rw [hm, Machine.execute_look ha]

theorem decodeAt_machine (h : Stands d a m outs) : d.machine.decodeAt a = m.decodeAt a := by
  rcases h.machine with hm | ⟨-, hm⟩
  · rw [hm]
  · rw [hm, Machine.decodeAt_look]

theorem look_machine (h : Stands d a m outs) : d.machine.look a = m.look a := by
  rcases h.machine with hm | ⟨-, hm⟩
  · rw [hm]
  · rw [hm, Machine.look_look]

/-- To look at the next instruction changes nothing that matters. -/
theorem look (h : Stands d a m outs) (ha : 0 ≤ a) (status : Status) :
    Stands { d with machine := d.machine.look a, status } a m outs :=
  ⟨h.ip, h.halted, h.capture, .inr ⟨ha, h.look_machine⟩, h.outputs⟩

theorem outputs_append_nil (h : Stands d a m outs) :
    (d.outputs ++ ([] : List Int)).toList = outs := by
  rw [Array.toList_appendList, List.append_nil, h.outputs]

end Stands

/-! ### Looking at the current instruction -/

theorem current_of_ok {i : Instruction} (h : Machine.instructionAt d.ip d.machine = .ok i m) :
    current d = .ok (some i) { d with machine := m } := by
  simp only [current, h]

theorem current_of_told (h : Machine.instructionAt d.ip d.machine = .error f m)
    (hf : f.Tellable) : current d = .ok none { d with machine := m } := by
  simp only [current, h, if_pos hf]

theorem current_of_untold (h : Machine.instructionAt d.ip d.machine = .error f m)
    (hf : ¬ f.Tellable) : current d = .error f { d with machine := m } := by
  simp only [current, h, if_neg hf]

theorem waiting_of_current {i : Option Instruction} {d' : Debugger} (h : current d = .ok i d') :
    waiting d = .ok (i.any (·.operation == .input)) d' := by
  rw [waiting, bind_of_ok h]
  rfl

/-- An instruction that decodes waits for a value if it reads. -/
theorem waiting_of_decoded {i : Instruction} (h : Stands d a m outs) (ha : 0 ≤ a)
    (hi : m.decodeAt a = .ok i) :
    waiting d = .ok (i.operation == .input) { d with machine := d.machine.look a } := by
  obtain rfl := h.ip
  have hcur := current_of_ok (Machine.instructionAt_of_decoded ha (h.decodeAt_machine.trans hi))
  exact waiting_of_current hcur

theorem waiting_of_reads (h : Stands d a m outs) (hr : ReadsAt a m) :
    waiting d = .ok true { d with machine := d.machine.look a } := by
  obtain ⟨ha, i, hi, hop⟩ := hr
  rw [waiting_of_decoded h ha hi, hop]
  rfl

/-- An instruction that does not read is not waited for, unless it cannot be told why it does not
decode; then it could not be executed either. -/
theorem waiting_of_not_reads (h : Stands d a m outs) (hr : ¬ ReadsAt a m) :
    (∃ d', waiting d = .ok false d' ∧ Stands d' a m outs) ∨
      ∃ f m', ¬ f.Tellable ∧ Machine.execute a m = .error f m' ∧
        waiting d = .error f { d with machine := m' } := by
  obtain rfl := h.ip
  -- what is found at the address fails in the same way when it is looked at and when it is executed
  have failing : ∀ {f m'}, Machine.instructionAt d.ip d.machine = .error f m' →
      Machine.execute d.ip m = .error f m' → Stands { d with machine := m' } d.ip m outs →
      (∃ d', waiting d = .ok false d' ∧ Stands d' d.ip m outs) ∨
        ∃ f m', ¬ f.Tellable ∧ Machine.execute d.ip m = .error f m' ∧
          waiting d = .error f { d with machine := m' } := by
    intro f m' hlook hexec hstands
    by_cases hf : f.Tellable
    · exact .inl ⟨_, waiting_of_current (current_of_told hlook hf), hstands⟩
    · refine .inr ⟨f, m', hf, hexec, ?_⟩
      rw [waiting, bind_of_error (current_of_untold hlook hf)]
  by_cases ha : d.ip < 0
  · have hm : d.machine = m := by
      rcases h.machine with hm | ⟨ha', -⟩
      · exact hm
      · omega
    subst hm
    exact failing (Machine.instructionAt_of_neg ha _) (Machine.execute_of_neg ha _) h
  have ha : 0 ≤ d.ip := Int.not_lt.mp ha
  cases hi : m.decodeAt d.ip with
  | error f =>
    have hi' := h.decodeAt_machine.trans hi
    have hlook := Machine.instructionAt_of_undecoded ha hi'
    rw [h.look_machine] at hlook
    have hstands := h.look ha d.status
    rw [h.look_machine] at hstands
    exact failing hlook (Machine.execute_of_undecoded ha hi) hstands
  | ok i =>
    refine .inl ⟨_, ?_, h.look ha d.status⟩
    rw [waiting_of_decoded h ha hi]
    have hop : (i.operation == .input) = false := by
      refine beq_eq_false_iff_ne.mpr fun hop => hr ⟨ha, i, hi, hop⟩
    rw [hop]

/-! ### Executing the current instruction -/

variable {name : String} {ws : List Int} {s : Session Channel}

theorem execute_of_running
    (h : Session.step (wiring line) false d.ip ⟨d.machine, d.capture, ""⟩ = .ok (.running b) s)
    (hw : s.world = .ofList name ws) :
    execute line d = .ok true { d with
      machine := s.machine, ip := b, status := .ready, outputs := d.outputs ++ ws,
      capture := .ofList name [] } := by
  simp only [execute, h, hw, Channel.drain_ofList]

theorem execute_of_halted
    (h : Session.step (wiring line) false d.ip ⟨d.machine, d.capture, ""⟩ = .ok .halted s)
    (hw : s.world = .ofList name ws) :
    execute line d = .ok false { d with
      machine := s.machine, halted := true, status := .halted, outputs := d.outputs ++ ws,
      capture := .ofList name [] } := by
  simp only [execute, h, hw, Channel.drain_ofList]

theorem execute_of_told
    (h : Session.step (wiring line) false d.ip ⟨d.machine, d.capture, ""⟩ = .error f s)
    (hw : s.world = .ofList name ws) (hf : f.Tellable) :
    execute line d = .ok false { d with
      machine := s.machine, halted := true, status := .failed f, outputs := d.outputs ++ ws,
      capture := .ofList name [] } := by
  simp only [execute, h, hw, Channel.drain_ofList, if_pos hf]

theorem execute_of_untold
    (h : Session.step (wiring line) false d.ip ⟨d.machine, d.capture, ""⟩ = .error f s)
    (hw : s.world = .ofList name ws) (hf : ¬ f.Tellable) :
    execute line d = .error f { d with
      machine := s.machine, outputs := d.outputs ++ ws, capture := .ofList name [] } := by
  simp only [execute, h, hw, Channel.drain_ofList, if_neg hf]

theorem write_capture (line : Option String) (v : Int) :
    (wiring line).write v (.ofList "capture" []) = .ok () (.ofList "capture" [v]) := rfl

theorem read_render {v : Int} (h : Word.InRange v) (s : Session Channel) :
    (wiring (some (Numeral.render v))).read s.world = .ok (some v) s.world := by
  simp only [wiring, Input.integer_render h]
  rfl

/-- The debugger moves on like its machine, if it is given the value that is read. -/
theorem execute_of_moves (line : Option String) {e : Event} (h : Stands d a m outs)
    (hm : m.Moves a e b m')
    (hline : ∀ v, e = .receive v → Word.InRange v ∧ line = some (Numeral.render v)) :
    ∃ d', execute line d = .ok true d' ∧ Stands d' b m' (outs ++ Event.sent [e]) := by
  obtain rfl := h.ip
  have hexec := h.execute_machine
  have houts : ∀ ws : List Int, (d.outputs ++ ws).toList = outs ++ ws := by
    intro ws
    rw [Array.toList_appendList, h.outputs]
  cases hm with
  | next he =>
    have hstep := Session.step_of_next (w := wiring line) (s := ⟨d.machine, d.capture, ""⟩)
      (hexec.trans he)
    exact ⟨_, execute_of_running hstep h.capture, rfl, h.halted, rfl, .inl rfl, houts _⟩
  | write he =>
    have hstep := Session.step_of_write (w := wiring line) (s := ⟨d.machine, d.capture, ""⟩)
      (hexec.trans he) (by rw [h.capture]; exact write_capture line _)
    exact ⟨_, execute_of_running hstep rfl, rfl, h.halted, rfl, .inl rfl, houts _⟩
  | @read t v b old m₁ m' he hp =>
    obtain ⟨hv, rfl⟩ := hline v rfl
    have hread := read_render hv ⟨d.machine, d.capture, ""⟩
    have hstep := Session.step_of_read (hexec.trans he) hread hp
    exact ⟨_, execute_of_running hstep h.capture, rfl, h.halted, rfl, .inl rfl, houts _⟩

/-! ### Steps and runs -/

variable {d' : Debugger} {fuel : Nat}

theorem step_of_not_waiting (hd : d.halted = false) (hw : waiting d = .ok false d') :
    step none d = execute none d' := by
  rw [step, get_bind, hd]
  exact bind_of_ok hw

theorem step_of_waiting {text : String} (hd : d.halted = false) (hw : waiting d = .ok true d') :
    step (some text) d = execute (some text) d' := by
  rw [step, get_bind, hd]
  exact bind_of_ok hw

theorem step_of_untold (hd : d.halted = false) (hw : waiting d = .error f d') :
    step line d = .error f d' := by
  rw [step, get_bind, hd]
  exact bind_of_error hw

theorem run_of_halted (hd : d.halted = true) : run fuel d = .ok () d := by
  cases fuel with
  | zero => rfl
  | succ fuel =>
    rw [run, get_bind, hd]
    rfl

theorem run_of_waiting (hd : d.halted = false) (hw : waiting d = .ok true d') :
    run (fuel + 1) d = .ok () { d' with status := .inputRequired } := by
  rw [run, get_bind, hd]
  exact bind_of_ok hw

theorem run_of_not_waiting (hd : d.halted = false) (hw : waiting d = .ok false d') :
    run (fuel + 1) d = (step none >>= fun _ => run fuel) d' := by
  rw [run, get_bind, hd]
  exact bind_of_ok hw

theorem run_of_untold (hd : d.halted = false) (hw : waiting d = .error f d') :
    run (fuel + 1) d = .error f d' := by
  rw [run, get_bind, hd]
  exact bind_of_error hw

/-- A run executes an instruction that does not read, or fails when it looks at it. -/
theorem run_of_not_reads (h : Stands d a m outs) (hr : ¬ ReadsAt a m) :
    (∃ d', Stands d' a m outs ∧
        ∀ fuel, run (fuel + 1) d = (execute none >>= fun _ => run fuel) d') ∨
      ∃ f m' d', ¬ f.Tellable ∧ Machine.execute a m = .error f m' ∧ d'.machine = m' ∧
        d'.halted = false ∧ d'.outputs.toList = outs ∧ ∀ fuel, run (fuel + 1) d = .error f d' := by
  rcases waiting_of_not_reads h hr with ⟨d₁, hw, h₁⟩ | ⟨f, m', hf, he, hw⟩
  · -- the step looks once more
    rcases waiting_of_not_reads h₁ hr with ⟨d₂, hw₂, h₂⟩ | ⟨f, m', hf, he, hw₂⟩
    · refine .inl ⟨d₂, h₂, fun fuel => ?_⟩
      rw [run_of_not_waiting h.halted hw]
      show EStateM.bind (step none) _ d₁ = EStateM.bind (execute none) _ d₂
      simp only [EStateM.bind, step_of_not_waiting h₁.halted hw₂]
    · refine .inr ⟨f, m', { d₁ with machine := m' }, hf, he, rfl, h₁.halted, h₁.outputs,
        fun fuel => ?_⟩
      rw [run_of_not_waiting h.halted hw, bind_of_error (step_of_untold h₁.halted hw₂)]
  · exact .inr ⟨f, m', { d with machine := m' }, hf, he, rfl, h.halted, h.outputs,
      fun _ => run_of_untold h.halted hw⟩

end Debugger

end Intcode
