import Intcode.Debugger.Screen
import Intcode.Proofs.Action

/-! # What every command keeps

A command looks at the current instruction, steps, says something in the status or moves the window,
and a dialogue shows the screen in between. What holds of each of these parts holds of every command
and of every dialogue. -/

namespace Intcode.Debugger
variable {P : Debugger → Prop} {E : Fault → Prop} {fuel : Nat}

/-! ### Properties of actions -/

/-- The parts of a command have the property. A command does nothing after a step, a run or a remark,
but it goes on after a look. That an instruction has failed is said by the steps alone. -/
structure Covers (R : (α : Type) → DebuggerM α → Prop) : Prop where
  stop : R Bool (pure false)
  goesOn : ∀ {α : Type} {x : DebuggerM α}, R α x → R Bool (x >>= fun _ => pure true)
  afterLook : ∀ {f : Bool → DebuggerM Bool}, (∀ reads, R Bool (f reads)) → R Bool (waiting >>= f)
  step : ∀ line, R Bool (step line)
  run : ∀ fuel, R Unit (run fuel)
  status : ∀ status, (∀ f, status ≠ .failed f) → R Unit (setStatus status)
  view : ∀ view, R Unit (modify fun d => { d with view })

theorem Covers.moveView {R : (α : Type) → DebuggerM α → Prop} (h : Covers R) (text : String) :
    R Unit (moveView text) := by
  unfold Debugger.moveView
  split
  · exact h.view _
  · exact h.status _ nofun

theorem Covers.command {R : (α : Type) → DebuggerM α → Prop} (h : Covers R) (fuel : Nat)
    (line : String) : R Bool (command fuel line) := by
  have steps : ∀ line, R Bool (discard (Debugger.step line) >>= fun _ => pure true) := by
    intro line
    rw [discard_bind]
    exact h.goesOn (h.step line)
  unfold Debugger.command
  split
  · exact steps none
  · exact steps none
  · exact h.stop
  · exact h.goesOn (h.status _ nofun)
  · exact steps _
  · exact h.goesOn (h.run fuel)
  · exact h.goesOn (h.view none)
  · exact h.goesOn (h.moveView _)
  · refine h.afterLook fun reads => ?_
    cases reads with
    | true => exact steps _
    | false => exact h.goesOn (h.status _ nofun)

/-- A dialogue has a property of the screen and of commands, if one action after the other keeps
it. -/
theorem dialogue_of_parts {R : (α : Type) → DebuggerM α → Prop}
    (ret : ∀ {α : Type} (a : α), R α (pure a))
    (bind : ∀ {α β : Type} {x : DebuggerM α} {f : α → DebuggerM β},
      R α x → (∀ a, R β (f a)) → R β (x >>= f))
    (hrender : R String render) (hcommand : ∀ line, R Bool (command fuel line))
    (lines : List (List Char)) : R String (dialogue fuel lines) := by
  have hask : R String ask := bind hrender fun _ => ret _
  induction lines with
  | nil => exact hask
  | cons line rest ih =>
    refine bind hask fun shown => bind (hcommand (commandOfLine line)) fun goesOn => ?_
    cases goesOn with
    | true => exact bind ih fun _ => ret _
    | false => exact ret shown

/-! ### Properties of sessions -/

/-- The parts of a command keep `P`, and have only faults of `E`. That an instruction has failed is
said by the steps alone. -/
structure Kept (P : Debugger → Prop) (E : Fault → Prop) : Prop where
  look : Ensures P (fun _ => True) E current
  step : ∀ line, Ensures P (fun _ => True) E (step line)
  status : ∀ status, (∀ f, status ≠ .failed f) → ∀ d, P d → P { d with status }
  view : ∀ view d, P d → P { d with view }

namespace Kept

theorem waiting (h : Kept P E) : Ensures P (fun _ => True) E waiting :=
  h.look.bind fun _ _ => .ret trivial

theorem setStatus (h : Kept P E) {status : Status} (hs : ∀ f, status ≠ .failed f) :
    Ensures P (fun _ => True) E (setStatus status) := fun d hd => ⟨h.status status hs d hd, trivial⟩

theorem run (h : Kept P E) (fuel : Nat) : Ensures P (fun _ => True) E (run fuel) := by
  induction fuel with
  | zero => exact .ret trivial
  | succ fuel ih =>
    refine .get_bind fun d _ => ?_
    split
    · exact .ret trivial
    · refine h.waiting.bind fun reads _ => ?_
      split
      · exact h.setStatus nofun
      · exact (h.step none).bind fun _ _ => ih

theorem covers (h : Kept P E) : Covers fun _ x => Ensures P (fun _ => True) E x where
  stop := .ret trivial
  goesOn hx := hx.bind fun _ _ => .ret trivial
  afterLook hf := h.waiting.bind fun reads _ => hf reads
  step := h.step
  run := h.run
  status _ hs := h.setStatus hs
  view view d hd := ⟨h.view view d hd, trivial⟩

theorem command (h : Kept P E) (fuel : Nat) (line : String) :
    Ensures P (fun _ => True) E (command fuel line) := h.covers.command fuel line

theorem render (h : Kept P E) (hE : E .unwritable) : Ensures P (fun _ => True) E render := by
  refine h.look.bind fun i _ => .get_bind fun d _ => ?_
  split
  · exact .ret trivial
  · exact .fail hE

theorem dialogue (h : Kept P E) (hE : E .unwritable) (fuel : Nat) (lines : List (List Char)) :
    Ensures P (fun _ => True) E (dialogue fuel lines) :=
  dialogue_of_parts (R := fun _ x => Ensures P (fun _ => True) E x) (fun _ => .ret trivial)
    (fun hx hf => hx.bind fun a _ => hf a) (h.render hE) (h.command fuel) lines

end Kept

end Intcode.Debugger
