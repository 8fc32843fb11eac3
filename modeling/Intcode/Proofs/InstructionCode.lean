import Intcode.Fault

/-! # Which cells hold an instruction

A cell is decoded digit by digit. `decode` accepts a cell exactly if it is not negative, its two low
digits are an operation code and, unless that is the end of the program, the three digits above it
are modes. The instruction is then the one that `encode` writes into the five low digits; what
stands further left is not looked at. A cell that is refused is refused for its operation code, or
else for the lowest of its digits that is no mode. `examine` reports this with the cell and its
address, as long as these are not too long to be written. -/

namespace Intcode

theorem Numeral.writable_of_lt {v : Int} (h : v.natAbs < 100) : Writable v :=
  Nat.lt_trans h (by decide +kernel)

theorem Operation.exists_code_iff {c : Int} :
    (∃ o : Operation, c = o.code) ↔ c = 99 ∨ 1 ≤ c ∧ c ≤ 9 := by
  constructor
  · rintro ⟨o, rfl⟩
    cases o <;> decide
  · rintro (rfl | hlow)
    · exact ⟨halt, rfl⟩
    · have hcases : c = 1 ∨ c = 2 ∨ c = 3 ∨ c = 4 ∨ c = 5 ∨ c = 6 ∨ c = 7 ∨ c = 8 ∨ c = 9 := by
        omega
      rcases hcases with rfl | rfl | rfl | rfl | rfl | rfl | rfl | rfl | rfl
      · exact ⟨add, rfl⟩
      · exact ⟨multiply, rfl⟩
      · exact ⟨input, rfl⟩
      · exact ⟨output, rfl⟩
      · exact ⟨jumpIfNonzero, rfl⟩
      · exact ⟨jumpIfZero, rfl⟩
      · exact ⟨lessThan, rfl⟩
      · exact ⟨equals, rfl⟩
      · exact ⟨adjustBase, rfl⟩

theorem Operation.code_bounds {o : Operation} (h : o ≠ halt) : 1 ≤ o.code ∧ o.code ≤ 9 := by
  cases o with
  | halt => exact absurd rfl h
  | _ => decide

namespace Mode
variable {m m' : Mode}

theorem digit_le (m : Mode) : m.digit ≤ 2 := by cases m <;> decide

theorem digit_injective (h : m.digit = m'.digit) : m = m' := by
  have hsome := ofDigit?_digit m
  rw [h, ofDigit?_digit] at hsome
  exact (Option.some.inj hsome).symm

end Mode

namespace Instruction
variable {address : Option Int} {cell : Int} {f : DecodeFault} {i : Instruction} {o : Operation}
  {m₁ m₂ m₃ : Mode} {place d : Nat} {r : Report}

/-! ### Modes -/

/-- The hundreds, the thousands and the ten thousands of a cell: the modes of its parameters, the
first parameter's first. -/
def modeDigits (cell : Int) : List Nat :=
  [cell.toNat / 100 % 10, cell.toNat / 1000 % 10, cell.toNat / 10000 % 10]

/-- The lowest digit of a cell that should be a mode and is none. -/
def badDigit? (cell : Int) : Option Nat := (modeDigits cell).find? (2 < ·)

theorem badDigit_lt (h : badDigit? cell = some d) : d < 10 := by
  have hmem : d ∈ modeDigits cell := List.mem_of_find?_eq_some h
  simp only [modeDigits, List.mem_cons, List.not_mem_nil, or_false] at hmem
  omega

theorem modeAt_of_some (h : Mode.ofDigit? (cell.toNat / Nat.pow 10 place % 10) = some m₁) :
    modeAt address cell place = .ok m₁ := by
  simp only [modeAt, h]

theorem modeAt_of_none (h : Mode.ofDigit? (cell.toNat / Nat.pow 10 place % 10) = none) :
    modeAt address cell place =
      .error (.unknownMode (cell.toNat / Nat.pow 10 place % 10) cell address) := by
  simp only [modeAt, h]

/-- The modes are read off the digits, up to the first one that is none. -/
theorem modesOf_cases (address : Option Int) (h : 0 ≤ cell) :
    (∃ m₁ m₂ m₃, modeDigits cell = [m₁.digit, m₂.digit, m₃.digit] ∧
      modesOf address cell = .ok (m₁, m₂, m₃)) ∨
    ∃ d, badDigit? cell = some d ∧ modesOf address cell = .error (.unknownMode d cell address) := by
  unfold modesOf badDigit? modeDigits
  rw [if_neg (Int.not_lt.mpr h)]
  cases h₁ : Mode.ofDigit? (cell.toNat / 100 % 10) with
  | none =>
    have hbad := Mode.ofDigit?_eq_none_iff.mp h₁
    rw [modeAt_of_none h₁]
    exact .inr ⟨_, by simp [hbad], rfl⟩
  | some m₁ =>
    have hfirst := Mode.ofDigit?_eq_some_iff.mp h₁
    have hm₁ := m₁.digit_le
    rw [modeAt_of_some h₁]
    cases h₂ : Mode.ofDigit? (cell.toNat / 1000 % 10) with
    | none =>
      have hbad := Mode.ofDigit?_eq_none_iff.mp h₂
      rw [modeAt_of_none h₂]
      exact .inr ⟨_, by simp [hbad, ← hfirst, hm₁], rfl⟩
    | some m₂ =>
      have hsecond := Mode.ofDigit?_eq_some_iff.mp h₂
      have hm₂ := m₂.digit_le
      rw [modeAt_of_some h₂]
      cases h₃ : Mode.ofDigit? (cell.toNat / 10000 % 10) with
      | none =>
        have hbad := Mode.ofDigit?_eq_none_iff.mp h₃
        rw [modeAt_of_none h₃]
        exact .inr ⟨_, by simp [hbad, ← hfirst, hm₁, ← hsecond, hm₂], rfl⟩
      | some m₃ =>
        have hthird := Mode.ofDigit?_eq_some_iff.mp h₃
        rw [modeAt_of_some h₃]
        exact .inl ⟨m₁, m₂, m₃, by rw [hfirst, hsecond, hthird], rfl⟩

theorem modesOf_eq_ok_iff (h : 0 ≤ cell) : modesOf address cell = .ok (m₁, m₂, m₃) ↔
    modeDigits cell = [m₁.digit, m₂.digit, m₃.digit] := by
  rcases modesOf_cases address h with ⟨n₁, n₂, n₃, hdigits, hmodes⟩ | ⟨d, hbad, hmodes⟩
  · rw [hdigits, hmodes]
    constructor
    · intro heq
      cases heq
      rfl
    · intro heq
      simp only [List.cons.injEq, and_true] at heq
      obtain ⟨h₁, h₂, h₃⟩ := heq
      rw [Mode.digit_injective h₁, Mode.digit_injective h₂, Mode.digit_injective h₃]
  · refine iff_of_false (by rw [hmodes]; exact nofun) fun heq => ?_
    have hm₁ := m₁.digit_le
    have hm₂ := m₂.digit_le
    have hm₃ := m₃.digit_le
    simp [badDigit?, heq, hm₁, hm₂, hm₃] at hbad

theorem modesOf_eq_error_iff (h : 0 ≤ cell) : modesOf address cell = .error f ↔
    ∃ d, badDigit? cell = some d ∧ f = .unknownMode d cell address := by
  rcases modesOf_cases address h with ⟨n₁, n₂, n₃, hdigits, hmodes⟩ | ⟨d, hbad, hmodes⟩
  · have hn₁ := n₁.digit_le
    have hn₂ := n₂.digit_le
    have hn₃ := n₃.digit_le
    have hnone : badDigit? cell = none := by simp [badDigit?, hdigits, hn₁, hn₂, hn₃]
    rw [hmodes, hnone]
    exact iff_of_false nofun fun ⟨_, hd, _⟩ => nomatch hd
  · rw [hmodes, hbad]
    constructor
    · intro heq
      cases heq
      exact ⟨d, rfl, rfl⟩
    · rintro ⟨_, heq, rfl⟩
      cases heq
      rfl

/-! ### Cells -/

/-- The two low digits of a cell are an operation code. -/
def HasCode (cell : Int) : Prop := cell % 100 = 99 ∨ 1 ≤ cell % 100 ∧ cell % 100 ≤ 9

theorem operationOf_eq_ok_iff : operationOf address cell = .ok o ↔
    0 ≤ cell ∧ cell % 100 = o.code := by
  by_cases h : cell < 0
  · rw [operationOf_of_neg h]
    exact iff_of_false nofun fun hcell => absurd h (Int.not_lt.mpr hcell.1)
  · have hcode : cell % 100 = o.code ↔ Operation.ofCode? (cell.toNat % 100) = some o := by
      rw [Operation.ofCode?_eq_some_iff]
      omega
    rw [hcode, operationOf, if_neg h]
    cases Operation.ofCode? (cell.toNat % 100) with
    | none => simp
    | some n => simpa using fun _ => Int.not_lt.mp h

theorem operationOf_cases (address : Option Int) (cell : Int) :
    (∃ o, operationOf address cell = .ok o ∧ 0 ≤ cell ∧ HasCode cell ∧ cell % 100 = o.code) ∨
      operationOf address cell = .error (.unknownOpcode cell address) ∧
        (cell < 0 ∨ ¬ HasCode cell) := by
  cases ho : operationOf address cell with
  | ok o =>
    obtain ⟨h, hcode⟩ := operationOf_eq_ok_iff.mp ho
    exact .inl ⟨o, rfl, h, Operation.exists_code_iff.mp ⟨o, hcode⟩, hcode⟩
  | error f =>
    have hno : cell < 0 ∨ ¬ HasCode cell := by
      by_cases h : cell < 0
      · exact .inl h
      · refine .inr fun hcode => ?_
        obtain ⟨o, hcode⟩ := Operation.exists_code_iff.mpr hcode
        rw [operationOf_eq_ok_iff.mpr ⟨Int.not_lt.mp h, hcode⟩] at ho
        cases ho
    refine .inr ⟨?_, hno⟩
    unfold operationOf at ho
    split at ho
    · cases ho
      rfl
    · split at ho <;> cases ho
      rfl

theorem decode_of_halt (h : operationOf address cell = .ok .halt) :
    decode address cell = .ok ⟨.halt, .pointer, .pointer, .pointer⟩ := by
  rw [decode, h]
  rfl

theorem decode_of_operationOf (h : operationOf address cell = .ok o) (ho : o ≠ .halt) :
    decode address cell = (modesOf address cell).map fun (m₁, m₂, m₃) => ⟨o, m₁, m₂, m₃⟩ := by
  rw [decode, h]
  cases o with
  | halt => exact absurd rfl ho
  | _ => cases modesOf address cell <;> rfl

theorem decode_of_unknown (h : operationOf address cell = .error f) :
    decode address cell = .error f := by
  rw [decode, h]
  rfl

/-- What a cell is decoded to. -/
inductive Decodes (address : Option Int) (cell : Int) : Except DecodeFault Instruction → Prop
  | unknown (hno : cell < 0 ∨ ¬ HasCode cell) :
    Decodes address cell (.error (.unknownOpcode cell address))
  | halt (h : 0 ≤ cell) (hcode : cell % 100 = 99) :
    Decodes address cell (.ok ⟨.halt, .pointer, .pointer, .pointer⟩)
  | whole {i : Instruction} (h : 0 ≤ cell) (hi : i.operation ≠ .halt)
    (hcode : cell % 100 = i.operation.code) (hdigits : modeDigits cell = i.modes.map Mode.digit) :
    Decodes address cell (.ok i)
  | badMode {o : Operation} {d : Nat} (h : 0 ≤ cell) (ho : o ≠ .halt) (hcode : cell % 100 = o.code)
    (hd : badDigit? cell = some d) : Decodes address cell (.error (.unknownMode d cell address))

theorem decodes (address : Option Int) (cell : Int) :
    Decodes address cell (decode address cell) := by
  rcases operationOf_cases address cell with ⟨o, ho, h, -, hcode⟩ | ⟨hunknown, hno⟩
  · by_cases hhalt : o = .halt
    · subst hhalt
      rw [decode_of_halt ho]
      exact .halt h hcode
    · rw [decode_of_operationOf ho hhalt]
      rcases modesOf_cases address h with ⟨m₁, m₂, m₃, hdigits, hmodes⟩ | ⟨d, hbad, hmodes⟩
      · rw [hmodes]
        exact .whole h hhalt hcode hdigits
      · rw [hmodes]
        exact .badMode h hhalt hcode hbad
  · rw [decode_of_unknown hunknown]
    exact .unknown hno

/-- An instruction is written into the five low digits of its cell. -/
theorem encode_eq_iff (h : 0 ≤ cell) : (i.encode : Int) = cell % 100000 ↔
    cell % 100 = i.operation.code ∧ modeDigits cell = i.modes.map Mode.digit := by
  have hcode : i.operation.code ≤ 99 := by cases i.operation <;> decide
  have h₁ := i.first.digit_le
  have h₂ := i.second.digit_le
  have h₃ := i.third.digit_le
  simp only [modeDigits, modes, encode, List.map_cons, List.map_nil, List.cons.injEq, and_true]
  omega

theorem decode_of_parts {m : Mode × Mode × Mode} (ho : operationOf address cell = .ok o)
    (hm : modesOf address cell = .ok m) (hhalt : o ≠ .halt) :
    decode address cell = .ok ⟨o, m.1, m.2.1, m.2.2⟩ := by
  rw [decode_of_operationOf ho hhalt, hm]
  rfl

theorem decode_eq_ok_iff (hi : i.operation ≠ .halt) : decode address cell = .ok i ↔
    0 ≤ cell ∧ (i.encode : Int) = cell % 100000 := by
  have hdecodes := decodes address cell
  constructor
  · intro heq
    rw [heq] at hdecodes
    cases hdecodes with
    | halt h hcode => exact absurd rfl hi
    | whole h _ hcode hdigits => exact ⟨h, (encode_eq_iff h).mpr ⟨hcode, hdigits⟩⟩
  · rintro ⟨h, hencode⟩
    obtain ⟨hcode, hdigits⟩ := (encode_eq_iff h).mp hencode
    have ho : operationOf address cell = .ok i.operation := operationOf_eq_ok_iff.mpr ⟨h, hcode⟩
    exact decode_of_parts ho ((modesOf_eq_ok_iff h).mpr hdigits) hi

theorem decode_eq_halt_iff (hi : i.operation = .halt) : decode address cell = .ok i ↔
    0 ≤ cell ∧ cell % 100 = 99 ∧ i.modes = [.pointer, .pointer, .pointer] := by
  have hdecodes := decodes address cell
  constructor
  · intro heq
    rw [heq] at hdecodes
    cases hdecodes with
    | halt h hcode => exact ⟨h, hcode, rfl⟩
    | whole h hno => exact absurd hi hno
  · rintro ⟨h, hcode, hmodes⟩
    have ho : operationOf address cell = .ok .halt := operationOf_eq_ok_iff.mpr ⟨h, hcode⟩
    obtain ⟨o, m₁, m₂, m₃⟩ := i
    simp only [modes, List.cons.injEq, and_true] at hi hmodes
    obtain ⟨rfl, rfl, rfl⟩ := hmodes
    rw [hi, decode_of_halt ho]

theorem decode_eq_error_iff : decode address cell = .error f ↔
    (cell < 0 ∨ ¬ HasCode cell) ∧ f = .unknownOpcode cell address ∨
      0 ≤ cell ∧ (1 ≤ cell % 100 ∧ cell % 100 ≤ 9) ∧
        ∃ d, badDigit? cell = some d ∧ f = .unknownMode d cell address := by
  have hdecodes := decodes address cell
  constructor
  · intro heq
    rw [heq] at hdecodes
    cases hdecodes with
    | unknown hno => exact .inl ⟨hno, rfl⟩
    | @badMode o d h ho hcode hd =>
      have hlow := Operation.code_bounds ho
      exact .inr ⟨h, by omega, d, hd, rfl⟩
  · rintro (⟨hno, rfl⟩ | ⟨h, hlow, d, hd, rfl⟩)
    · rcases operationOf_cases address cell with ⟨o, -, h, hcode, -⟩ | ⟨hunknown, -⟩
      · rcases hno with hneg | hno
        · exact absurd hneg (Int.not_lt.mpr h)
        · exact absurd hcode hno
      · exact decode_of_unknown hunknown
    · obtain ⟨o, hcode⟩ := Operation.exists_code_iff.mpr (.inr hlow)
      have ho : operationOf address cell = .ok o := operationOf_eq_ok_iff.mpr ⟨h, hcode⟩
      have hhalt : o ≠ .halt := by
        rintro rfl
        rw [hcode] at hlow
        exact absurd hlow (by decide)
      rw [decode_of_operationOf ho hhalt, (modesOf_eq_error_iff h).mpr ⟨d, hd, rfl⟩]
      rfl

/-- A cell holds an instruction if it has an operation code and, unless this is the end, modes. -/
theorem exists_decode_iff : (∃ i, decode address cell = .ok i) ↔
    0 ≤ cell ∧ (cell % 100 = 99 ∨
      (1 ≤ cell % 100 ∧ cell % 100 ≤ 9) ∧ ∀ d ∈ modeDigits cell, d = 0 ∨ d = 1 ∨ d = 2) := by
  have hdecodes := decodes address cell
  generalize decode address cell = r at hdecodes
  cases hdecodes with
  | unknown hno =>
    refine iff_of_false nofun ?_
    rintro ⟨h, hcode⟩
    rcases hno with hneg | hno
    · exact absurd hneg (Int.not_lt.mpr h)
    · exact hno (hcode.imp_right And.left)
  | halt h hcode => exact iff_of_true ⟨_, rfl⟩ ⟨h, .inl hcode⟩
  | @whole i h hi hcode hdigits =>
    have hlow := Operation.code_bounds hi
    refine iff_of_true ⟨i, rfl⟩ ⟨h, .inr ⟨by omega, fun d hd => ?_⟩⟩
    rw [hdigits] at hd
    obtain ⟨m, -, rfl⟩ := List.mem_map.mp hd
    cases m <;> decide
  | @badMode o d h ho hcode hd =>
    refine iff_of_false nofun ?_
    rintro ⟨-, hend | ⟨-, hdigits⟩⟩
    · have hlow := Operation.code_bounds ho
      omega
    · have hmem : d ∈ modeDigits cell := List.mem_of_find?_eq_some hd
      have hbad : 2 < d := by simpa using List.find?_some hd
      have hmode := hdigits d hmem
      omega

/-! ### Reports -/

/-- The integers that are named when a cell is refused can be written: the cell, if it is negative or
has an address, and the address. -/
def Nameable (address : Option Int) (cell : Int) : Prop :=
  (cell < 0 → Numeral.Writable cell) ∧
    ∀ a, address = some a → Numeral.Writable a ∧ Numeral.Writable cell

theorem writable_opcode_iff :
    Numeral.Writable (Report.opcode cell) ↔ (cell < 0 → Numeral.Writable cell) := by
  unfold Report.opcode
  split
  · rename_i h
    exact ⟨fun hw _ => hw, fun hw => hw h⟩
  · rename_i h
    exact iff_of_true (Numeral.writable_of_lt (by omega)) fun hneg => absurd hneg h

theorem writable_positionNumbers_iff :
    (∀ v ∈ Report.positionNumbers cell address, Numeral.Writable v) ↔
      ∀ a, address = some a → Numeral.Writable a ∧ Numeral.Writable cell := by
  cases address with
  | none => exact iff_of_true nofun nofun
  | some a => simp [Report.positionNumbers]

theorem tellable_iff_nameable (h : decode address cell = .error f) :
    (Fault.decode f).Tellable ↔ Nameable address cell := by
  have hnumbers : (Fault.decode f).Tellable ↔ ∀ v ∈ f.numbers, Numeral.Writable v :=
    and_iff_right Fault.noConfusion
  rw [hnumbers]
  rcases decode_eq_error_iff.mp h with ⟨-, rfl⟩ | ⟨hcell, -, d, hd, rfl⟩
  · rw [DecodeFault.numbers, List.forall_mem_cons, writable_opcode_iff,
      writable_positionNumbers_iff, Nameable]
  · have hlt := badDigit_lt hd
    have hdigit : Numeral.Writable d := Numeral.writable_of_lt (by omega)
    rw [DecodeFault.numbers, List.forall_mem_cons, writable_positionNumbers_iff, Nameable,
      and_iff_right hdigit, and_iff_right fun hneg => absurd hneg (Int.not_lt.mpr hcell)]

theorem examine_of_error (h : decode address cell = .error f) :
    examine address cell = .error (Fault.decode f).report := by
  simp only [examine, h]

theorem examine_eq_ok_iff : examine address cell = .ok i ↔ decode address cell = .ok i := by
  unfold examine
  cases decode address cell <;> simp

/-- Whoever examines a cell is told its instruction, or the cause for which it is refused; if that
cannot be written it is told so instead, and not which cell it is. -/
theorem examine_eq_error_iff : examine address cell = .error r ↔
    (Nameable address cell ∧ ∃ f, decode address cell = .error f ∧ r = f.report) ∨
      ¬ Nameable address cell ∧ (∀ i, decode address cell ≠ .ok i) ∧
        r = .value Numeral.unwritableMessage := by
  cases h : decode address cell with
  | ok i =>
    rw [examine_eq_ok_iff.mpr h]
    simp
  | error f =>
    rw [examine_of_error h, Fault.report, Fault.ownReport]
    by_cases htold : Nameable address cell
    · simp [htold, (tellable_iff_nameable h).mpr htold, eq_comm]
    · simp [htold, mt (tellable_iff_nameable h).mp htold, eq_comm]

/-- What stands above the five low digits is not looked at. -/
theorem examine_add {k : Int} (h : 0 ≤ cell) (hk : 0 ≤ k) :
    examine address (cell + 100000 * k) = .ok i ↔ examine address cell = .ok i := by
  have hsum : 0 ≤ cell + 100000 * k := by omega
  have hcode : (cell + 100000 * k) % 100 = cell % 100 := by omega
  have hlow : (cell + 100000 * k) % 100000 = cell % 100000 := by omega
  rw [examine_eq_ok_iff, examine_eq_ok_iff]
  by_cases hi : i.operation = .halt
  · simp only [decode_eq_halt_iff hi, hsum, h, hcode]
  · simp only [decode_eq_ok_iff hi, hsum, h, hlow]

theorem exists_report_iff : (∃ f, decode address cell = .error f ∧ r = f.report) ↔
    (cell < 0 ∨ ¬ HasCode cell) ∧ r = .unknownOpcode cell address ∨
      0 ≤ cell ∧ (1 ≤ cell % 100 ∧ cell % 100 ≤ 9) ∧
        ∃ d, badDigit? cell = some d ∧ r = .unknownMode d cell address := by
  simp only [decode_eq_error_iff]
  constructor
  · rintro ⟨f, ⟨hno, rfl⟩ | ⟨h, hlow, d, hd, rfl⟩, rfl⟩
    · exact .inl ⟨hno, rfl⟩
    · exact .inr ⟨h, hlow, d, hd, rfl⟩
  · rintro (⟨hno, rfl⟩ | ⟨h, hlow, d, hd, rfl⟩)
    · exact ⟨_, .inl ⟨hno, rfl⟩, rfl⟩
    · exact ⟨_, .inr ⟨h, hlow, d, hd, rfl⟩, rfl⟩

theorem examine_of_unwritable (address : Option Int) (hneg : cell < 0)
    (hlong : ¬ Numeral.Writable cell) :
    examine address cell = .error (.value Numeral.unwritableMessage) := by
  refine examine_eq_error_iff.mpr (.inr ⟨fun h => hlong (h.1 hneg), ?_, rfl⟩)
  rw [decode_of_unknown (operationOf_of_neg hneg)]
  exact nofun

/-! ### Exactly the encodings -/

/-- A cell is accepted exactly if it is an encoding, whatever stands above its five low digits: an
instruction with parameters is the one whose encoding the five digits are, and the end of the program
is told by its two digits alone. A cell that is refused has no operation code, or else the digit that
is reported is the lowest that is no mode; both are reported with the whole cell and its address,
unless one of these is too long. The parts of a cell are read alike on their own. -/
theorem examine_accepts_encodings (address : Option Int) (cell : Int) :
    ((∃ i, examine address cell = .ok i) ↔
      0 ≤ cell ∧ (cell % 100 = 99 ∨
        (1 ≤ cell % 100 ∧ cell % 100 ≤ 9) ∧ ∀ d ∈ modeDigits cell, d = 0 ∨ d = 1 ∨ d = 2)) ∧
    (∀ i : Instruction, i.operation ≠ .halt →
      (examine address cell = .ok i ↔ 0 ≤ cell ∧ (i.encode : Int) = cell % 100000)) ∧
    (∀ i : Instruction, i.operation = .halt →
      (examine address cell = .ok i ↔
        0 ≤ cell ∧ cell % 100 = 99 ∧ i.modes = [.pointer, .pointer, .pointer])) ∧
    (∀ k i, 0 ≤ cell → 0 ≤ k →
      (examine address (cell + 100000 * k) = .ok i ↔ examine address cell = .ok i)) ∧
    (∀ r, examine address cell = .error r ↔
      Nameable address cell ∧
        ((cell < 0 ∨ ¬ HasCode cell) ∧ r = .unknownOpcode cell address ∨
          0 ≤ cell ∧ (1 ≤ cell % 100 ∧ cell % 100 ≤ 9) ∧
            ∃ d, badDigit? cell = some d ∧ r = .unknownMode d cell address) ∨
      ¬ Nameable address cell ∧ (∀ i, decode address cell ≠ .ok i) ∧
        r = .value Numeral.unwritableMessage) ∧
    (∀ i, examine address cell = .ok i ↔ decode address cell = .ok i) ∧
    (∀ o m, operationOf address cell = .ok o → modesOf address cell = .ok m → o ≠ .halt →
      examine address cell = .ok ⟨o, m.1, m.2.1, m.2.2⟩) := by
  refine ⟨?_, fun i hi => examine_eq_ok_iff.trans (decode_eq_ok_iff hi),
    fun i hi => examine_eq_ok_iff.trans (decode_eq_halt_iff hi), fun k i h hk => examine_add h hk,
    fun r => ?_, fun i => examine_eq_ok_iff,
    fun o m ho hm hhalt => examine_eq_ok_iff.mpr (decode_of_parts ho hm hhalt)⟩
  · simp only [examine_eq_ok_iff]
    exact exists_decode_iff
  · rw [examine_eq_error_iff, exists_report_iff]

/-- Behind the five low digits anything may stand, and in a refused cell the thousands are told of
before the ten thousands. -/
theorem examine_accepts_encodings_above :
    examine none (21002 + 100000 * 7) = .ok ⟨.multiply, .pointer, .value, .relative⟩ ∧
      examine (some 4) 97402 = .error (.unknownMode 4 97402 (some 4)) := by
  have hfive : examine none 21002 = .ok ⟨.multiply, .pointer, .value, .relative⟩ :=
    ((examine_accepts_encodings none 21002).2.1 _ (by decide)).mpr ⟨by decide, rfl⟩
  have hnameable : Nameable (some 4) 97402 := by
    refine ⟨fun h => absurd h (by decide), ?_⟩
    rintro _ ⟨⟩
    exact ⟨by decide +kernel, by decide +kernel⟩
  obtain ⟨-, -, -, hperiod, -⟩ := examine_accepts_encodings none 21002
  obtain ⟨-, -, -, -, herror, -⟩ := examine_accepts_encodings (some 4) 97402
  exact ⟨(hperiod 7 _ (by decide) (by decide)).mpr hfive,
    (herror _).mpr (.inl ⟨hnameable, .inr ⟨by decide, by decide, 4, by decide, rfl⟩⟩)⟩

/-- The first negative cell that is too long to be written has no operation either, and it is not
reported as such. -/
theorem examine_of_too_long :
    let cell : Int := -(Nat.pow 10 Numeral.digitLimit : Nat)
    cell < 0 ∧ examine none cell = .error (.value Numeral.unwritableMessage) ∧
      examine none cell ≠ .error (.unknownOpcode cell none) := by
  intro cell
  have hneg : cell < 0 := by decide +kernel
  have hlong : ¬ Numeral.Writable cell := by decide +kernel
  have hreport := examine_of_unwritable none hneg hlong
  refine ⟨hneg, hreport, ?_⟩
  rw [hreport]
  exact nofun

end Instruction

end Intcode
