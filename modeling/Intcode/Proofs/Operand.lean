import Intcode.Proofs.Execution

/-! # Parameters of an instruction

A parameter refers to a cell or stands for itself; `reference` is the address of that cell. What an
argument or a destination comes to is said once, by that address. To read parameters only adds zeros
at the end of the memory (`Grown`), and so does an instruction that fails, or that ends without
having moved on: whatever it changes, it changes last. -/

namespace Intcode

namespace Memory
variable {m m' m₁ m₂ : Memory}

/-- There are more cells at the end, which hold 0. -/
def Extends (m m' : Memory) : Prop := ∃ k, m'.toList = m.toList ++ List.replicate k 0

theorem Extends.refl (m : Memory) : m.Extends m :=
  ⟨0, by rw [List.replicate_zero, List.append_nil]⟩

theorem Extends.trans (h : m.Extends m₁) (h' : m₁.Extends m₂) : m.Extends m₂ := by
  obtain ⟨j, hj⟩ := h
  obtain ⟨k, hk⟩ := h'
  exact ⟨j + k, by rw [hk, hj, List.append_assoc, List.replicate_append_replicate]⟩

/-- Zeros at the end of a memory make no difference to its tape. -/
theorem Extends.get (h : m.Extends m') (b : Nat) : m'.get b = m.get b := by
  obtain ⟨k, hk⟩ := h
  have hget : ∀ n : Memory, n.get b = n.toList[b]?.getD 0 := fun n => by
    simp [Memory.get, toList, Array.getD_eq_getD_getElem?]
  rw [hget, hget, hk, List.getElem?_append]
  split
  · rfl
  · rename_i hb
    rw [List.getElem?_eq_none (Nat.not_lt.mp hb), List.getElem?_replicate]
    split <;> rfl

end Memory

namespace Machine
variable {a b t x : Int} {m m' m₁ m₂ : Machine} {mode : Mode} {i : Instruction} {e : Effect}
  {f : Fault}

/-! ### Grown machines -/

/-- Nothing has changed but that there are more cells at the end of the memory, which hold 0. -/
structure Grown (m m' : Machine) : Prop where
  image : m'.image = m.image
  base : m'.base = m.base
  trace : m'.trace = m.trace
  memory : m.memory.Extends m'.memory

theorem Grown.refl (m : Machine) : m.Grown m :=
  ⟨rfl, rfl, rfl, .refl m.memory⟩

theorem Grown.trans (h : m.Grown m₁) (h' : m₁.Grown m₂) : m.Grown m₂ :=
  ⟨h'.image.trans h.image, h'.base.trans h.base, h'.trace.trans h.trace,
    h.memory.trans h'.memory⟩

theorem grown_look (a : Int) (m : Machine) : m.Grown (m.look a) :=
  ⟨rfl, rfl, rfl, _, toList_look a m⟩

/-- On the tape of the cells there is no difference. -/
theorem Grown.get (h : m.Grown m') (b : Nat) : m'.memory.get b = m.memory.get b :=
  h.memory.get b

/-! ### What a parameter refers to -/

/-- The address of the cell that the parameter in the cell at `a` refers to, if any. -/
def reference (mode : Mode) (a : Int) (m : Machine) : Option Int :=
  match mode with
  | .pointer => some (m.memory.get a.toNat)
  | .value => none
  | .relative => some (m.memory.get a.toNat + m.base)

theorem reference_eq_none_iff : m.reference mode a = none ↔ mode = .value := by
  cases mode <;> simp [reference]

theorem Grown.reference (h : m.Grown m') (mode : Mode) (a : Int) :
    m'.reference mode a = m.reference mode a := by
  simp only [Machine.reference, h.get, h.base]

/-- To enter an instruction in the trace makes no difference. -/
theorem reference_enter (mode : Mode) (a b : Int) (m : Machine) :
    (m.enter b).reference mode a = m.reference mode a :=
  (grown_look b m).reference mode a

theorem get_enter (a : Int) (m : Machine) (b : Nat) :
    (m.enter a).memory.get b = m.memory.get b :=
  get_look a m b

theorem argument_eq (ha : 0 ≤ a) (mode : Mode) (m : Machine) :
    argument mode a m = match m.reference mode a with
      | none => .ok (m.memory.get a.toNat) (m.look a)
      | some t => peek t (m.look a) := by
  rw [argument, bind_of_ok (peek_eq ha m)]
  cases mode <;> rfl

theorem destination_eq (ha : 0 ≤ a) (mode : Mode) (m : Machine) :
    destination mode a m = match m.reference mode a with
      | none => .error (.valueTarget (m.memory.get a.toNat)) (m.look a)
      | some t => .ok t (m.look a) := by
  rw [destination, bind_of_ok (peek_eq ha m)]
  cases mode <;> rfl

/-- What an argument gives depends on the cells and on the base only. -/
theorem argument_ok_iff (ha : 0 ≤ a) : (∃ m', argument mode a m = .ok x m') ↔
    match m.reference mode a with
    | none => m.memory.get a.toNat = x
    | some t => 0 ≤ t ∧ m.memory.get t.toNat = x := by
  rw [argument_eq ha]
  cases m.reference mode a with
  | none => simp
  | some t =>
    by_cases ht : t < 0
    · simp [peek_of_neg _ ht, Int.not_le.mpr ht]
    · have ht : 0 ≤ t := Int.not_lt.mp ht
      simp [peek_eq ht, get_look, ht]

/-- An argument cannot be read for one reason only: it refers to a negative address. -/
theorem argument_of_neg (ha : 0 ≤ a) (h : m.reference mode a = some t) (ht : t < 0) :
    argument mode a m = .error (.negativeAddress t) (m.look a) := by
  rw [argument_eq ha, h]
  exact peek_of_neg _ ht

theorem argument_of_readable (ha : 0 ≤ a) (h : ∀ t, m.reference mode a = some t → 0 ≤ t) :
    ∃ x m', argument mode a m = .ok x m' := by
  rw [argument_eq ha]
  cases hr : m.reference mode a with
  | none => exact ⟨_, _, rfl⟩
  | some t => exact ⟨_, _, peek_eq (h t hr) _⟩

/-! ### What reading parameters changes -/

theorem grown_peek (a : Int) :
    Ensures (Grown m) (fun _ => True) (fun _ => True) (peek a) := by
  intro m₁ h
  by_cases ha : a < 0
  · rw [peek_of_neg m₁ ha]
    exact ⟨h, trivial⟩
  · rw [peek_eq (Int.not_lt.mp ha)]
    exact ⟨h.trans (grown_look a m₁), trivial⟩

theorem grown_argument (mode : Mode) (a : Int) :
    Ensures (Grown m) (fun _ => True) (fun _ => True) (argument mode a) := by
  refine (grown_peek a).bind fun operand _ => ?_
  cases mode with
  | pointer => exact grown_peek operand
  | value => exact .ret trivial
  | relative => exact .get_bind fun m₁ _ => grown_peek (operand + m₁.base)

theorem grown_destination (mode : Mode) (a : Int) :
    Ensures (Grown m) (fun _ => True) (fun _ => True) (destination mode a) := by
  refine (grown_peek a).bind fun operand _ => ?_
  cases mode with
  | pointer => exact .ret trivial
  | value => exact .fail trivial
  | relative => exact .get_bind fun _ _ => .ret trivial

theorem grown_jumpWhen (test : Int → Bool) (a : Int) (i : Instruction) :
    Ensures (Grown m) (fun _ => True) (fun _ => True) (jumpWhen test a i) := by
  refine (grown_argument i.first (a + 1)).bind fun x _ => ?_
  exact (grown_argument i.second (a + 2)).bind fun there _ => .ret trivial

/-- What more zeros at the end of the memory cannot break, reading parameters does not. -/
theorem ensures_of_grown {α : Type} {P : Machine → Prop} {x : MachineM α}
    (hP : ∀ m m' : Machine, m.Grown m' → P m → P m')
    (h : ∀ m, Ensures (Grown m) (fun _ => True) (fun _ => True) x) :
    Ensures P (fun _ => True) (fun _ => True) x := by
  intro m hm
  obtain ⟨hgrown, hyields⟩ := h m m (.refl m)
  exact ⟨hP m _ hgrown hm, hyields⟩

/-- A write fails at a negative address only, and then nothing is written. -/
theorem poke_error (h : poke t x m = .error f m') : t < 0 ∧ f = .negativeAddress t ∧ m' = m := by
  by_cases ht : t < 0
  · rw [poke_of_neg m ht] at h
    cases h
    exact ⟨ht, rfl, rfl⟩
  · rw [poke_of_nonneg m (Int.not_lt.mp ht)] at h
    cases h

/-! ### Instructions that fail -/

theorem grown_of_combine_error {g : Int → Int → Int} (h : combine g a i m = .error f m') :
    m.Grown m' := by
  rcases bind_eq_error h with h | ⟨x, m₁, hx, h⟩
  · exact ((grown_argument i.first (a + 1)).of_error (.refl m) h).1
  have hm₁ := ((grown_argument i.first (a + 1)).of_ok (.refl m) hx).1
  rcases bind_eq_error h with h | ⟨y, m₂, hy, h⟩
  · exact ((grown_argument i.second (a + 2)).of_error hm₁ h).1
  have hm₂ := ((grown_argument i.second (a + 2)).of_ok hm₁ hy).1
  rcases bind_eq_error h with h | ⟨t, m₃, ht, h⟩
  · exact ((grown_destination i.third (a + 3)).of_error hm₂ h).1
  have hm₃ := ((grown_destination i.third (a + 3)).of_ok hm₂ ht).1
  rcases bind_eq_error h with h | ⟨old, m₄, -, h⟩
  · obtain ⟨-, -, rfl⟩ := poke_error h
    exact hm₃
  · cases h

theorem grown_of_perform_error (h : perform a i m = .error f m') : m.Grown m' := by
  unfold perform at h
  cases ho : i.operation with
  | add | multiply | lessThan | equals =>
    rw [ho] at h
    exact grown_of_combine_error h
  | jumpIfNonzero | jumpIfZero =>
    rw [ho] at h
    exact ((grown_jumpWhen _ a i).of_error (.refl m) h).1
  | input =>
    rw [ho] at h
    rcases bind_eq_error h with h | ⟨t, m₁, -, h⟩
    · exact ((grown_destination i.first (a + 1)).of_error (.refl m) h).1
    · cases h
  | output | adjustBase =>
    rw [ho] at h
    rcases bind_eq_error h with h | ⟨x, m₁, -, h⟩
    · exact ((grown_argument i.first (a + 1)).of_error (.refl m) h).1
    · cases h
  | halt =>
    rw [ho] at h
    cases h

/-- An instruction that writes a cell or moves the base moves on at once; the others leave all else
to the surroundings. -/
theorem grown_of_perform_ok (h : perform a i m = .ok e m') (he : ∀ b, e ≠ .next b) :
    m.Grown m' := by
  unfold perform at h
  cases ho : i.operation with
  | add | multiply | lessThan | equals =>
    rw [ho] at h
    exact absurd (effect_combine h) (he _)
  | jumpIfNonzero | jumpIfZero =>
    rw [ho] at h
    obtain ⟨b, hb⟩ := effect_jumpWhen h
    exact absurd hb (he b)
  | input =>
    rw [ho] at h
    obtain ⟨t, m₁, ht, h⟩ := bind_eq_ok h
    cases h
    exact ((grown_destination i.first (a + 1)).of_ok (.refl m) ht).1
  | output =>
    rw [ho] at h
    obtain ⟨x, m₁, hx, h⟩ := bind_eq_ok h
    cases h
    exact ((grown_argument i.first (a + 1)).of_ok (.refl m) hx).1
  | adjustBase =>
    rw [ho] at h
    obtain ⟨x, m₁, -, h⟩ := bind_eq_ok h
    cases h
    exact absurd rfl (he _)
  | halt =>
    rw [ho] at h
    cases h
    exact .refl m

end Machine

end Intcode
