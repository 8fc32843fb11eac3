import Intcode.Machine.Execute
import Intcode.Proofs.Action

/-! # Execution of one instruction, case by case

What `Machine.execute` gives depends on the cell at the address: there is none below 0, a cell may
not decode, and otherwise the decoded instruction is performed. In each case the machine has at
least looked at the cell, and to look once more changes nothing. -/

namespace Intcode.Machine
variable {a b : Int} {m m' : Machine} {i : Instruction} {e : Effect} {f : Fault}

/-- The machine with a cell at `a`. -/
def look (a : Int) (m : Machine) : Machine := { m with memory := m.memory.grow a.toNat }

/-- What the cell at `a` holds, for an address from 0 on. -/
def decodeAt (a : Int) (m : Machine) : Except DecodeFault Instruction :=
  Instruction.decode a (m.memory.get a.toNat)

theorem toList_look (a : Int) (m : Machine) : (m.look a).memory.toList =
    m.memory.toList ++ List.replicate (a.toNat + 1 - m.memory.size) 0 := by
  simp only [look, Memory.toList, Memory.grow, Memory.size, Array.toList_append,
    Array.toList_replicate]

theorem look_look (a : Int) (m : Machine) : (m.look a).look a = m.look a := by
  have h : (m.memory.grow a.toNat).grow a.toNat = m.memory.grow a.toNat :=
    Memory.grow_of_lt (by rw [Memory.size_grow]; omega)
  simp only [look, h]

theorem get_look (a : Int) (m : Machine) (b : Nat) : (m.look a).memory.get b = m.memory.get b :=
  m.memory.get_grow a.toNat b

theorem decodeAt_look (a : Int) (m : Machine) : (m.look a).decodeAt a = m.decodeAt a := by
  simp only [decodeAt, get_look]

theorem peek_eq (h : 0 ≤ a) (m : Machine) : peek a m = .ok (m.memory.get a.toNat) (m.look a) :=
  peek_of_nonneg m h

theorem look_of_lt (h : a.toNat < m.memory.size) : m.look a = m := by
  rw [look, Memory.grow_of_lt h]

theorem peek_of_lt (ha : 0 ≤ a) (h : a.toNat < m.memory.size) :
    peek a m = .ok (m.memory.get a.toNat) m := by
  rw [peek_eq ha, look_of_lt h]

/-! ### Decoding in place -/

theorem instructionAt_of_neg (h : a < 0) (m : Machine) :
    instructionAt a m = .error (.negativeAddress a) m := by
  rw [instructionAt, bind_of_error (peek_of_neg m h)]

theorem instructionAt_of_undecoded {f : DecodeFault} (h : 0 ≤ a) (hd : m.decodeAt a = .error f) :
    instructionAt a m = .error (.decode f) (m.look a) := by
  rw [decodeAt] at hd
  rw [instructionAt, bind_of_ok (peek_eq h m), hd]
  rfl

theorem instructionAt_of_decoded (h : 0 ≤ a) (hd : m.decodeAt a = .ok i) :
    instructionAt a m = .ok i (m.look a) := by
  rw [decodeAt] at hd
  rw [instructionAt, bind_of_ok (peek_eq h m), hd]
  rfl

/-! ### Execution -/

theorem fetch_of_neg (h : a < 0) (m : Machine) : fetch a m = .error (.negativeAddress a) m := by
  rw [fetch, bind_of_error (peek_of_neg m h)]

theorem fetch_of_undecoded {f : DecodeFault} (h : 0 ≤ a) (hd : m.decodeAt a = .error f) :
    fetch a m = .error (.decode f) (m.look a) := by
  rw [decodeAt] at hd
  rw [fetch, bind_of_ok (peek_eq h m), hd]
  rfl

/-- The machine that has entered the instruction at `a` in its trace. -/
def enter (a : Int) (m : Machine) : Machine :=
  { m.look a with trace := m.trace.push ⟨a, m.memory.get a.toNat⟩ }

theorem fetch_of_decoded (h : 0 ≤ a) (hd : m.decodeAt a = .ok i) :
    fetch a m = .ok (m.memory.get a.toNat, i) (m.enter a) := by
  rw [decodeAt] at hd
  rw [fetch, bind_of_ok (peek_eq h m), hd]
  rfl

theorem enter_of_lt (h : a.toNat < m.memory.size) :
    m.enter a = { m with trace := m.trace.push ⟨a, m.memory.get a.toNat⟩ } := by
  rw [enter, look_of_lt h]

theorem execute_of_neg (h : a < 0) (m : Machine) : execute a m = .error (.negativeAddress a) m := by
  rw [execute, bind_of_error (fetch_of_neg h m)]

theorem execute_of_undecoded {f : DecodeFault} (h : 0 ≤ a) (hd : m.decodeAt a = .error f) :
    execute a m = .error (.decode f) (m.look a) := by
  rw [execute, bind_of_error (fetch_of_undecoded h hd)]

theorem execute_of_decoded (h : 0 ≤ a) (hd : m.decodeAt a = .ok i) :
    execute a m = perform a i (m.enter a) := by
  rw [execute, bind_of_ok (fetch_of_decoded h hd)]

theorem enter_look (a : Int) (m : Machine) : (m.look a).enter a = m.enter a := by
  rw [enter, enter, look_look, get_look]
  rfl

/-- To look at an instruction first makes no difference to its execution. -/
theorem execute_look (h : 0 ≤ a) (m : Machine) : execute a (m.look a) = execute a m := by
  have hd : (m.look a).decodeAt a = m.decodeAt a := decodeAt_look a m
  cases hm : m.decodeAt a with
  | error f =>
    rw [execute_of_undecoded h hm, execute_of_undecoded h (hd.trans hm), look_look]
  | ok i => rw [execute_of_decoded h hm, execute_of_decoded h (hd.trans hm), enter_look]

/-- An instruction that has an effect stands at an address and decodes. -/
theorem decodeAt_of_execute (h : execute a m = .ok e m') :
    0 ≤ a ∧ ∃ i, m.decodeAt a = .ok i ∧ perform a i (m.enter a) = .ok e m' := by
  by_cases ha : a < 0
  · rw [execute_of_neg ha] at h; cases h
  have ha : 0 ≤ a := Int.not_lt.mp ha
  refine ⟨ha, ?_⟩
  cases hd : m.decodeAt a with
  | error f => rw [execute_of_undecoded ha hd] at h; cases h
  | ok i => exact ⟨i, rfl, (execute_of_decoded ha hd).symm.trans h⟩

/-! ### Effects -/

theorem effect_combine {g : Int → Int → Int} (h : combine g a i m = .ok e m') :
    e = .next (a + 4) := by
  obtain ⟨x, m₁, -, h⟩ := bind_eq_ok h
  obtain ⟨y, m₂, -, h⟩ := bind_eq_ok h
  obtain ⟨t, m₃, -, h⟩ := bind_eq_ok h
  obtain ⟨old, m₄, -, h⟩ := bind_eq_ok h
  cases h; rfl

theorem effect_jumpWhen {test : Int → Bool} (h : jumpWhen test a i m = .ok e m') :
    ∃ b, e = .next b := by
  obtain ⟨x, m₁, -, h⟩ := bind_eq_ok h
  obtain ⟨there, m₂, -, h⟩ := bind_eq_ok h
  cases h
  exact ⟨_, rfl⟩

/-- Only the input operation reads. -/
theorem effect_read_iff (h : perform a i m = .ok e m') :
    (∃ t b, e = .read t b) ↔ i.operation = .input := by
  unfold perform at h
  cases ho : i.operation with
  | add | multiply | lessThan | equals =>
    rw [ho] at h
    rw [effect_combine h]
    simp
  | jumpIfNonzero | jumpIfZero =>
    rw [ho] at h
    obtain ⟨b, rfl⟩ := effect_jumpWhen h
    simp
  | input =>
    rw [ho] at h
    obtain ⟨t, m₁, -, h⟩ := bind_eq_ok h
    cases h
    simp
  | output =>
    rw [ho] at h
    obtain ⟨v, m₁, -, h⟩ := bind_eq_ok h
    cases h
    simp
  | adjustBase =>
    rw [ho] at h
    obtain ⟨x, m₁, -, h⟩ := bind_eq_ok h
    cases h
    simp
  | halt =>
    rw [ho] at h
    cases h
    simp

/-- The instruction at `a` reads. -/
def ReadsAt (a : Int) (m : Machine) : Prop :=
  0 ≤ a ∧ ∃ i, m.decodeAt a = .ok i ∧ i.operation = .input

theorem reads_of_readsAt (h : execute a m = .ok e m') (hr : ReadsAt a m) :
    ∃ t b, e = .read t b := by
  obtain ⟨-, i, hi, hop⟩ := hr
  obtain ⟨-, j, hj, hperf⟩ := decodeAt_of_execute h
  rw [hi] at hj
  cases hj
  exact (effect_read_iff hperf).mpr hop

theorem readsAt_of_reads {t : Int} (h : execute a m = .ok (.read t b) m') : ReadsAt a m := by
  obtain ⟨ha, i, hi, hperf⟩ := decodeAt_of_execute h
  exact ⟨ha, i, hi, (effect_read_iff hperf).mp ⟨t, b, rfl⟩⟩

end Intcode.Machine
