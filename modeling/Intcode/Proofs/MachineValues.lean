import Intcode.Machine.Execute
import Intcode.Proofs.Action

/-! # The values in a machine

What an instruction computes is a 64-bit word, 0 or 1; everything else that it writes it has read
from a cell. So no set of values that includes the signed 64-bit range is ever left: if all cells
lie in it before an instruction, they do so afterwards, and what the instruction writes to its
surroundings lies in it too. In passing, the faults of an instruction are seen to be its own: they
speak of the cell, the address or the operand that is at fault, and of nothing around the machine.
-/

namespace Intcode

/-- The faults that an instruction can have by itself. -/
def Fault.Own : Fault → Prop
  | decode _ | negativeAddress _ | valueTarget _ => True
  | device .. | channel _ | unwritable => False

namespace Memory

/-- All cells hold values in `C`. -/
def Within (C : Int → Prop) (m : Memory) : Prop := ∀ v ∈ m.toList, C v

variable {C : Int → Prop} {m : Memory} {v : Int}

theorem within_ofList {cells : List Int} (h : ∀ v ∈ cells, C v) : (ofList cells).Within C := by
  simpa [Within, ofList, toList] using h

namespace Within

theorem get (h : m.Within C) (h0 : C 0) (a : Nat) : C (m.get a) := by
  rw [Memory.get, Array.getD_eq_getD_getElem?]
  cases ha : m.cells[a]? with
  | none => exact h0
  | some v => exact h v (Array.mem_def.mp (Array.mem_of_getElem? ha))

theorem grow (h : m.Within C) (h0 : C 0) (a : Nat) : (m.grow a).Within C := by
  intro v hv
  simp only [toList, Memory.grow, Array.toList_append, Array.toList_replicate, List.mem_append,
    List.mem_replicate] at hv
  rcases hv with hv | ⟨-, rfl⟩
  · exact h v hv
  · exact h0

theorem set (h : m.Within C) (hv : C v) (a : Nat) : (m.set a v).Within C := by
  intro u hu
  simp only [toList, Memory.set, Array.toList_setIfInBounds] at hu
  rcases List.mem_or_eq_of_mem_set hu with hu | rfl
  · exact h u hu
  · exact hv

end Within

end Memory

/-- A value that is written lies in `C`. -/
def Effect.Within (C : Int → Prop) : Effect → Prop
  | write v _ => C v
  | next _ | halt | read .. => True

namespace Machine

/-- All cells hold values in `C`. -/
def Within (C : Int → Prop) (m : Machine) : Prop := m.memory.Within C

variable {C : Int → Prop} (hC : ∀ v, Word.InRange v → C v)
include hC

theorem ensures_reach (a : Int) : Ensures (Within C) (fun _ => True) Fault.Own (reach a) := by
  intro m hm
  by_cases h : a < 0
  · rw [reach_of_neg m h]
    exact ⟨hm, trivial⟩
  · rw [reach_of_nonneg m (Int.not_lt.mp h)]
    exact ⟨Memory.Within.grow hm (hC 0 (by decide)) _, trivial⟩

theorem ensures_peek (a : Int) : Ensures (Within C) C Fault.Own (peek a) := by
  refine (ensures_reach hC a).bind fun i _ => .get_bind fun m hm => ?_
  exact .ret (Memory.Within.get hm (hC 0 (by decide)) i)

theorem ensures_poke {v : Int} (hv : C v) (a : Int) :
    Ensures (Within C) (fun _ => True) Fault.Own (poke a v) := by
  refine .get_bind fun _ _ => (ensures_reach hC a).bind fun i _ => ?_
  refine .modify_bind (fun m hm => ?_) (.ret trivial)
  exact Memory.Within.set hm hv i

theorem ensures_value (mode : Mode) {operand : Int} (h : C operand) :
    Ensures (Within C) C Fault.Own (value mode operand) := by
  cases mode with
  | pointer => exact ensures_peek hC operand
  | value => exact .ret h
  | relative => exact .get_bind fun m _ => ensures_peek hC (operand + m.base)

theorem ensures_argument (mode : Mode) (a : Int) :
    Ensures (Within C) C Fault.Own (argument mode a) := by
  refine (ensures_peek hC a).bind fun operand h => ?_
  exact ensures_value hC mode h

omit hC in
theorem ensures_target (mode : Mode) (operand : Int) :
    Ensures (Within C) (fun _ => True) Fault.Own (target mode operand) := by
  cases mode with
  | pointer => exact .ret trivial
  | value => exact .fail trivial
  | relative => exact .get_bind fun _ _ => .ret trivial

theorem ensures_destination (mode : Mode) (a : Int) :
    Ensures (Within C) (fun _ => True) Fault.Own (destination mode a) := by
  refine (ensures_peek hC a).bind fun operand _ => ?_
  exact ensures_target mode operand

theorem ensures_fetch (a : Int) : Ensures (Within C) (fun _ => True) Fault.Own (fetch a) := by
  refine (ensures_peek hC a).bind fun cell _ => ?_
  cases Instruction.decode a cell with
  | error f => exact .fail trivial
  | ok i => exact .modify_bind (fun _ hm => hm) (.ret trivial)

theorem ensures_combine {f : Int → Int → Int} (hf : ∀ x y, Word.InRange (f x y)) (a : Int)
    (i : Instruction) : Ensures (Within C) (Effect.Within C) Fault.Own (combine f a i) := by
  refine (ensures_argument hC i.first (a + 1)).bind fun x _ => ?_
  refine (ensures_argument hC i.second (a + 2)).bind fun y _ => ?_
  refine (ensures_destination hC i.third (a + 3)).bind fun t _ => ?_
  refine (ensures_poke hC (hC _ (hf x y)) t).bind fun _ _ => ?_
  exact .ret trivial

theorem ensures_jumpWhen (test : Int → Bool) (a : Int) (i : Instruction) :
    Ensures (Within C) (Effect.Within C) Fault.Own (jumpWhen test a i) := by
  refine (ensures_argument hC i.first (a + 1)).bind fun x _ => ?_
  refine (ensures_argument hC i.second (a + 2)).bind fun there _ => ?_
  exact .ret trivial

theorem ensures_perform (a : Int) (i : Instruction) :
    Ensures (Within C) (Effect.Within C) Fault.Own (perform a i) := by
  have hbit : ∀ p : Prop, [Decidable p] → Word.InRange (if p then 1 else 0) := by
    intro p _
    split <;> decide
  unfold perform
  cases i.operation with
  | add => exact ensures_combine hC (fun x y => Word.inRange_wrap (x + y)) a i
  | multiply => exact ensures_combine hC (fun x y => Word.inRange_wrap (x * y)) a i
  | lessThan => exact ensures_combine hC (fun x y => hbit (x < y)) a i
  | equals => exact ensures_combine hC (fun x y => hbit (x = y)) a i
  | jumpIfNonzero | jumpIfZero => exact ensures_jumpWhen hC _ a i
  | input =>
    refine (ensures_destination hC i.first (a + 1)).bind fun t _ => ?_
    exact .ret trivial
  | output =>
    refine (ensures_argument hC i.first (a + 1)).bind fun v hv => ?_
    exact .ret hv
  | adjustBase =>
    refine (ensures_argument hC i.first (a + 1)).bind fun x _ => ?_
    exact .modify_bind (fun _ hm => hm) (.ret trivial)
  | halt => exact .ret trivial

theorem ensures_execute (a : Int) :
    Ensures (Within C) (Effect.Within C) Fault.Own (execute a) := by
  refine (ensures_fetch hC a).bind fun (_, i) _ => ?_
  exact ensures_perform hC a i

theorem ensures_instructionAt (a : Int) :
    Ensures (Within C) (fun _ => True) Fault.Own (instructionAt a) := by
  refine (ensures_peek hC a).bind fun cell _ => ?_
  cases Instruction.decode a cell with
  | error f => exact .fail trivial
  | ok i => exact .ret trivial

section
variable {a v : Int} {m m' : Machine} {f : Fault}

omit hC in
theorem own_of_execute (h : execute a m = .error f m') : f.Own :=
  ((ensures_execute (C := fun _ => True) (fun _ _ => trivial) a).of_error
    (fun _ _ => trivial) h).2

omit hC in
theorem own_of_poke (h : poke a v m = .error f m') : f.Own :=
  ((ensures_poke (C := fun _ => True) (fun _ _ => trivial) trivial a).of_error
    (fun _ _ => trivial) h).2

end

end Machine

end Intcode
