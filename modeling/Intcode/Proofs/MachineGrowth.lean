import Intcode.Proofs.Operand

/-! # The memory of a machine never shrinks

An instruction at an address from 0 on makes sure that there is a cell there, and no instruction takes
a cell away. So whatever has become of an instruction, a look at its address afterwards changes
nothing any more. -/

namespace Intcode.Machine
variable {k : Nat} {a : Int} {m m' : Machine} {f : Fault}

/-- There are at least `k` cells. -/
def Spans (k : Nat) (m : Machine) : Prop := k ≤ m.memory.size

theorem spans_reach (a : Int) : Ensures (Spans k) (fun _ => True) (fun _ => True) (reach a) := by
  intro m hm
  by_cases h : a < 0
  · rw [reach_of_neg m h]
    exact ⟨hm, trivial⟩
  · rw [reach_of_nonneg m (Int.not_lt.mp h)]
    refine ⟨?_, trivial⟩
    show k ≤ (m.memory.grow a.toNat).size
    rw [Memory.size_grow]
    exact Nat.le_trans hm (Nat.le_max_left _ _)

theorem spans_poke (a v : Int) : Ensures (Spans k) (fun _ => True) (fun _ => True) (poke a v) := by
  refine .get_bind fun _ _ => (spans_reach a).bind fun i _ => ?_
  refine .modify_bind (fun m hm => ?_) (.ret trivial)
  show k ≤ (m.memory.set i v).size
  rw [Memory.size_set]
  exact hm

theorem Spans.grown (h : m.Grown m') (hm : m.Spans k) : m'.Spans k := by
  obtain ⟨n, hn⟩ := h.memory
  have hlength := congrArg List.length hn
  simp only [Memory.toList, Array.length_toList, List.length_append] at hlength
  unfold Spans Memory.size at *
  omega

theorem spans_argument (mode : Mode) (a : Int) :
    Ensures (Spans k) (fun _ => True) (fun _ => True) (argument mode a) :=
  ensures_of_grown (fun _ _ => Spans.grown) fun _ => grown_argument mode a

theorem spans_destination (mode : Mode) (a : Int) :
    Ensures (Spans k) (fun _ => True) (fun _ => True) (destination mode a) :=
  ensures_of_grown (fun _ _ => Spans.grown) fun _ => grown_destination mode a

theorem spans_combine (g : Int → Int → Int) (a : Int) (i : Instruction) :
    Ensures (Spans k) (fun _ => True) (fun _ => True) (combine g a i) := by
  refine (spans_argument i.first (a + 1)).bind fun x _ => ?_
  refine (spans_argument i.second (a + 2)).bind fun y _ => ?_
  refine (spans_destination i.third (a + 3)).bind fun t _ => ?_
  exact (spans_poke t (g x y)).bind fun _ _ => .ret trivial

theorem spans_jumpWhen (test : Int → Bool) (a : Int) (i : Instruction) :
    Ensures (Spans k) (fun _ => True) (fun _ => True) (jumpWhen test a i) :=
  ensures_of_grown (fun _ _ => Spans.grown) fun _ => grown_jumpWhen test a i

theorem spans_perform (a : Int) (i : Instruction) :
    Ensures (Spans k) (fun _ => True) (fun _ => True) (perform a i) := by
  unfold perform
  cases i.operation with
  | add | multiply | lessThan | equals => exact spans_combine _ a i
  | jumpIfNonzero | jumpIfZero => exact spans_jumpWhen _ a i
  | input => exact (spans_destination i.first (a + 1)).bind fun t _ => .ret trivial
  | output => exact (spans_argument i.first (a + 1)).bind fun v _ => .ret trivial
  | adjustBase =>
    refine (spans_argument i.first (a + 1)).bind fun x _ => ?_
    exact .modify_bind (fun _ hm => hm) (.ret trivial)
  | halt => exact .ret trivial

theorem spans_look (a : Int) (m : Machine) : (m.look a).Spans (a.toNat + 1) := by
  show a.toNat + 1 ≤ (m.memory.grow a.toNat).size
  rw [Memory.size_grow]
  exact Nat.le_max_right _ _

/-! ### Glances -/

/-- The machine after a look at the cell at `a`, if `a` is an address. -/
def glance (a : Int) (m : Machine) : Machine := if 0 ≤ a then m.look a else m

theorem glance_of_neg (h : a < 0) (m : Machine) : m.glance a = m := if_neg (Int.not_le.mpr h)

theorem glance_of_nonneg (h : 0 ≤ a) (m : Machine) : m.glance a = m.look a := if_pos h

theorem glance_of_spans (h : 0 ≤ a → m.Spans (a.toNat + 1)) : m.glance a = m := by
  by_cases ha : 0 ≤ a
  · rw [glance_of_nonneg ha, look_of_lt (h ha)]
  · exact glance_of_neg (Int.not_le.mp ha) m

theorem glance_glance (a : Int) (m : Machine) : (m.glance a).glance a = m.glance a := by
  refine glance_of_spans fun ha => ?_
  rw [glance_of_nonneg ha]
  exact spans_look a m

theorem base_glance (a : Int) (m : Machine) : (m.glance a).base = m.base := by
  unfold glance
  split <;> rfl

theorem trace_glance (a : Int) (m : Machine) : (m.glance a).trace = m.trace := by
  unfold glance
  split <;> rfl

theorem image_glance (a : Int) (m : Machine) : (m.glance a).image = m.image := by
  unfold glance
  split <;> rfl

/-- A glance adds zeros at the end, at addresses up to `a`. -/
theorem memory_glance (a : Int) (m : Machine) : ∃ k,
    (m.glance a).memory.toList = m.memory.toList ++ List.replicate k 0 ∧
      (k ≠ 0 → ((m.memory.size + k : Nat) : Int) ≤ a + 1) := by
  by_cases ha : 0 ≤ a
  · refine ⟨a.toNat + 1 - m.memory.size, ?_, fun hk => by omega⟩
    rw [glance_of_nonneg ha]
    exact toList_look a m
  · refine ⟨0, ?_, fun hk => absurd rfl hk⟩
    rw [glance_of_neg (Int.not_le.mp ha), List.replicate_zero, List.append_nil]

/-- What is found at an address does not depend on an earlier glance. -/
theorem instructionAt_glance (a : Int) (m : Machine) :
    instructionAt a (m.glance a) = instructionAt a m := by
  by_cases ha : a < 0
  · rw [glance_of_neg ha]
  have ha : 0 ≤ a := Int.not_lt.mp ha
  rw [glance_of_nonneg ha]
  have hd : (m.look a).decodeAt a = m.decodeAt a := decodeAt_look a m
  cases hm : m.decodeAt a with
  | error f =>
    rw [instructionAt_of_undecoded ha hm, instructionAt_of_undecoded ha (hd.trans hm), look_look]
  | ok i => rw [instructionAt_of_decoded ha hm, instructionAt_of_decoded ha (hd.trans hm), look_look]

theorem finalState_instructionAt (a : Int) (m : Machine) :
    finalState (instructionAt a m) = m.glance a := by
  by_cases ha : a < 0
  · rw [glance_of_neg ha, instructionAt_of_neg ha]
    rfl
  have ha : 0 ≤ a := Int.not_lt.mp ha
  rw [glance_of_nonneg ha]
  cases hm : m.decodeAt a with
  | error f => rw [instructionAt_of_undecoded ha hm]; rfl
  | ok i => rw [instructionAt_of_decoded ha hm]; rfl

theorem execute_glance (a : Int) (m : Machine) : execute a (m.glance a) = execute a m := by
  by_cases ha : 0 ≤ a
  · rw [glance_of_nonneg ha, execute_look ha]
  · rw [glance_of_neg (Int.not_le.mp ha)]

theorem decodeAt_of_found {i : Instruction} (h : instructionAt a m = .ok i m') :
    0 ≤ a ∧ m.decodeAt a = .ok i := by
  by_cases ha : a < 0
  · rw [instructionAt_of_neg ha] at h
    cases h
  have ha : 0 ≤ a := Int.not_lt.mp ha
  refine ⟨ha, ?_⟩
  cases hm : m.decodeAt a with
  | error g =>
    rw [instructionAt_of_undecoded ha hm] at h
    cases h
  | ok j =>
    rw [instructionAt_of_decoded ha hm] at h
    cases h
    rfl

/-- An instruction that is not found cannot be executed either, for the same reason. -/
theorem execute_of_unfound (h : instructionAt a m = .error f m') : execute a m = .error f m' := by
  by_cases ha : a < 0
  · rw [instructionAt_of_neg ha] at h
    cases h
    exact execute_of_neg ha m
  have ha : 0 ≤ a := Int.not_lt.mp ha
  cases hm : m.decodeAt a with
  | error g =>
    rw [instructionAt_of_undecoded ha hm] at h
    cases h
    exact execute_of_undecoded ha hm
  | ok i =>
    rw [instructionAt_of_decoded ha hm] at h
    cases h

/-- After an instruction, however it has ended, its own cell is there. -/
theorem spans_execute (ha : 0 ≤ a) (m : Machine) :
    (finalState (execute a m)).Spans (a.toNat + 1) := by
  cases hi : m.decodeAt a with
  | error f =>
    rw [execute_of_undecoded ha hi]
    exact spans_look a m
  | ok i =>
    rw [execute_of_decoded ha hi]
    exact (spans_perform a i (m.enter a) (spans_look a m)).1

theorem glance_execute (a : Int) (m : Machine) :
    (finalState (execute a m)).glance a = finalState (execute a m) :=
  glance_of_spans fun ha => spans_execute ha m

end Intcode.Machine
