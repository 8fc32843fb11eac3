import Intcode.Proofs.Path
import Intcode.Proofs.StepCases

/-! # Instructions that are completed

An instruction that has an effect has reached the cells of its parameters, in their order, and then
has done one thing: written a result, moved the base, or left the rest to its surroundings. `Performs`
says so once, for every operation; what is touched, where control goes and what is written is read
off it. A memory that has been reached at some addresses is as large as it was, or else just large
enough for them (`Reached`). -/

namespace Intcode

namespace Operation

/-- What is made of the two arguments, by an operation that writes a result. -/
def result? : Operation → Option (Int → Int → Int)
  | add => some fun x y => Word.wrap (x + y)
  | multiply => some fun x y => Word.wrap (x * y)
  | lessThan => some fun x y => if x < y then 1 else 0
  | equals => some fun x y => if x = y then 1 else 0
  | input | output | jumpIfNonzero | jumpIfZero | adjustBase | halt => none

/-- The condition of a jump on its first argument. -/
def condition? : Operation → Option (Int → Bool)
  | jumpIfNonzero => some (· != 0)
  | jumpIfZero => some (· == 0)
  | add | multiply | lessThan | equals | input | output | adjustBase | halt => none

end Operation

namespace Machine
variable {a b t x v : Int} {as bs : List Int} {m m' m₁ m₂ : Machine} {mode : Mode}
  {i : Instruction} {e : Effect} {old : Option Int}

/-! ### Addresses that are reached -/

/-- One more than the largest of some addresses. -/
def extent (as : List Int) : Nat := as.foldr (fun a n => max (a.toNat + 1) n) 0

@[simp] theorem extent_nil : extent [] = 0 := rfl

@[simp] theorem extent_cons (a : Int) (as : List Int) :
    extent (a :: as) = max (a.toNat + 1) (extent as) := rfl

@[simp] theorem extent_append (as bs : List Int) :
    extent (as ++ bs) = max (extent as) (extent bs) := by
  induction as with
  | nil => simp
  | cons a as ih => simp [ih, Nat.max_assoc]

/-- There are cells at all of these addresses now, and beyond what was there before only as many as
that takes. Nothing else has changed. -/
structure Reached (as : List Int) (m m' : Machine) : Prop where
  grown : m.Grown m'
  nonneg : ∀ a ∈ as, 0 ≤ a
  size : m'.memory.size = max m.memory.size (extent as)

theorem Reached.refl (m : Machine) : Reached [] m m :=
  ⟨.refl m, nofun, by simp⟩

theorem Reached.trans (h : Reached as m m₁) (h' : Reached bs m₁ m₂) :
    Reached (as ++ bs) m m₂ := by
  refine ⟨h.grown.trans h'.grown, ?_, ?_⟩
  · intro a ha
    rcases List.mem_append.mp ha with ha | ha
    · exact h.nonneg a ha
    · exact h'.nonneg a ha
  · rw [h'.size, h.size, extent_append, Nat.max_assoc]

theorem reached_look (ha : 0 ≤ a) (m : Machine) : Reached [a] m (m.look a) := by
  refine ⟨grown_look a m, by simpa using ha, ?_⟩
  rw [look, Memory.size_grow]
  simp

theorem reached_of_peek (h : peek a m = .ok x m') :
    Reached [a] m m' ∧ x = m.memory.get a.toNat := by
  by_cases ha : a < 0
  · rw [peek_of_neg m ha] at h
    cases h
  · rw [peek_eq (by omega)] at h
    cases h
    exact ⟨reached_look (by omega) m, rfl⟩

/-! ### Parameters -/

/-- The value of a parameter: of the cell that it refers to, or its own if it refers to none. -/
def operand (mode : Mode) (a : Int) (m : Machine) : Int :=
  match m.reference mode a with
  | none => m.memory.get a.toNat
  | some t => m.memory.get t.toNat

/-- The addresses that a parameter leads to: that of its own cell, and what it refers to. -/
def trail (mode : Mode) (a : Int) (m : Machine) : List Int := a :: (m.reference mode a).toList

theorem Grown.operand (h : m.Grown m') (mode : Mode) (a : Int) :
    m'.operand mode a = m.operand mode a := by
  simp only [Machine.operand, h.reference, h.get]

theorem Grown.trail (h : m.Grown m') (mode : Mode) (a : Int) :
    m'.trail mode a = m.trail mode a := by
  simp only [Machine.trail, h.reference]

theorem reached_of_argument (ha : 0 ≤ a) (h : argument mode a m = .ok x m') :
    Reached (m.trail mode a) m m' ∧ x = m.operand mode a := by
  rw [argument_eq ha] at h
  unfold trail operand
  cases hr : m.reference mode a with
  | none =>
    rw [hr] at h
    cases h
    exact ⟨reached_look ha m, rfl⟩
  | some t =>
    rw [hr] at h
    obtain ⟨hreached, hx⟩ := reached_of_peek h
    exact ⟨(reached_look ha m).trans hreached, by rw [hx, get_look]⟩

theorem reached_of_destination (ha : 0 ≤ a) (h : destination mode a m = .ok t m') :
    Reached [a] m m' ∧ m.reference mode a = some t := by
  rw [destination_eq ha] at h
  cases hr : m.reference mode a with
  | none =>
    rw [hr] at h
    cases h
  | some t =>
    rw [hr] at h
    cases h
    exact ⟨reached_look ha m, rfl⟩

/-! ### Cells that are written -/

/-- The machine with `v` in the cell at `t`, which is there now. -/
def store (t v : Int) (m : Machine) : Machine :=
  { m with memory := (m.memory.grow t.toNat).set t.toNat v }

theorem poke_ok (h : poke t v m = .ok old m') :
    0 ≤ t ∧ old = m.memory.get? t ∧ m' = m.store t v := by
  by_cases ht : t < 0
  · rw [poke_of_neg m ht] at h
    cases h
  · rw [poke_of_nonneg m (by omega)] at h
    cases h
    exact ⟨by omega, rfl, rfl⟩

theorem size_store (t v : Int) (m : Machine) :
    (m.store t v).memory.size = max m.memory.size (extent [t]) := by
  simp [store, Memory.size_set, Memory.size_grow]

theorem get_store (t v : Int) (m : Machine) (b : Nat) :
    (m.store t v).memory.get b = if t.toNat = b then v else m.memory.get b := by
  rw [store, Memory.get_set (by rw [Memory.size_grow]; omega), Memory.get_grow]

/-! ### What an instruction does -/

/-- The addresses that an instruction reaches on behalf of its parameters before it does anything. -/
def visited (a : Int) (i : Instruction) (m : Machine) : List Int :=
  match i.operation with
  | .add | .multiply | .lessThan | .equals =>
    m.trail i.first (a + 1) ++ (m.trail i.second (a + 2) ++ [a + 3])
  | .jumpIfNonzero | .jumpIfZero => m.trail i.first (a + 1) ++ m.trail i.second (a + 2)
  | .output | .adjustBase => m.trail i.first (a + 1)
  | .input => [a + 1]
  | .halt => []

/-- What the instruction `i` at `a` does, by its effect. -/
inductive Performs (a : Int) (i : Instruction) (m : Machine) : Effect → Machine → Prop
  | combine {f : Int → Int → Int} {t : Int} {m₁ : Machine} (hf : i.operation.result? = some f)
    (hm : Reached (m.visited a i) m m₁) (ht : m.reference i.third (a + 3) = some t) (h0 : 0 ≤ t) :
    Performs a i m (.next (a + 4))
      (m₁.store t (f (m.operand i.first (a + 1)) (m.operand i.second (a + 2))))
  | jump {test : Int → Bool} {m₁ : Machine} (hop : i.operation.condition? = some test)
    (hm : Reached (m.visited a i) m m₁) :
    Performs a i m (Machine.jump (test (m.operand i.first (a + 1)))
      (m.operand i.second (a + 2)) (a + 3)) m₁
  | read {t : Int} {m₁ : Machine} (hop : i.operation = .input)
    (hm : Reached (m.visited a i) m m₁) (ht : m.reference i.first (a + 1) = some t) :
    Performs a i m (.read t (a + 2)) m₁
  | write {m₁ : Machine} (hop : i.operation = .output) (hm : Reached (m.visited a i) m m₁) :
    Performs a i m (.write (m.operand i.first (a + 1)) (a + 2)) m₁
  | adjust {m₁ : Machine} (hop : i.operation = .adjustBase) (hm : Reached (m.visited a i) m m₁) :
    Performs a i m (.next (a + 2)) { m₁ with base := m₁.base + m.operand i.first (a + 1) }
  | halt (hop : i.operation = .halt) : Performs a i m .halt m

theorem performs_of_combine {f : Int → Int → Int} (ha : 0 ≤ a)
    (hf : i.operation.result? = some f)
    (hv : m.visited a i = m.trail i.first (a + 1) ++ (m.trail i.second (a + 2) ++ [a + 3]))
    (h : combine f a i m = .ok e m') : Performs a i m e m' := by
  obtain ⟨x, m₁, hx, h⟩ := bind_eq_ok h
  obtain ⟨hr₁, rfl⟩ := reached_of_argument (by omega) hx
  obtain ⟨y, m₂, hy, h⟩ := bind_eq_ok h
  obtain ⟨hr₂, rfl⟩ := reached_of_argument (by omega) hy
  obtain ⟨t, m₃, ht, h⟩ := bind_eq_ok h
  obtain ⟨hr₃, ht⟩ := reached_of_destination (by omega) ht
  obtain ⟨old, m₄, hp, h⟩ := bind_eq_ok h
  obtain ⟨h0, -, rfl⟩ := poke_ok hp
  cases h
  rw [hr₁.grown.trail] at hr₂
  rw [(hr₁.trans hr₂).grown.reference] at ht
  have hm : Reached (m.visited a i) m m₃ := by
    rw [hv]
    exact hr₁.trans (hr₂.trans hr₃)
  rw [hr₁.grown.operand]
  exact .combine hf hm ht h0

theorem performs_of_jumpWhen {test : Int → Bool} (ha : 0 ≤ a)
    (hop : i.operation.condition? = some test)
    (hv : m.visited a i = m.trail i.first (a + 1) ++ m.trail i.second (a + 2))
    (h : jumpWhen test a i m = .ok e m') : Performs a i m e m' := by
  obtain ⟨x, m₁, hx, h⟩ := bind_eq_ok h
  obtain ⟨hr₁, rfl⟩ := reached_of_argument (by omega) hx
  obtain ⟨there, m₂, hy, h⟩ := bind_eq_ok h
  obtain ⟨hr₂, rfl⟩ := reached_of_argument (by omega) hy
  cases h
  rw [hr₁.grown.trail] at hr₂
  rw [hr₁.grown.operand]
  exact .jump hop (by rw [hv]; exact hr₁.trans hr₂)

theorem performs_of_ok (ha : 0 ≤ a) (h : perform a i m = .ok e m') : Performs a i m e m' := by
  unfold perform at h
  cases ho : i.operation with
  | add | multiply | lessThan | equals =>
    rw [ho] at h
    exact performs_of_combine ha (by rw [ho]; rfl) (by simp only [visited, ho]) h
  | jumpIfNonzero | jumpIfZero =>
    rw [ho] at h
    exact performs_of_jumpWhen ha (by rw [ho]; rfl) (by simp only [visited, ho]) h
  | input =>
    rw [ho] at h
    obtain ⟨t, m₁, hd, h⟩ := bind_eq_ok h
    obtain ⟨hr, ht⟩ := reached_of_destination (by omega) hd
    cases h
    exact .read ho (by simpa only [visited, ho] using hr) ht
  | output =>
    rw [ho] at h
    obtain ⟨x, m₁, hx, h⟩ := bind_eq_ok h
    obtain ⟨hr, rfl⟩ := reached_of_argument (by omega) hx
    cases h
    exact .write ho (by simpa only [visited, ho] using hr)
  | adjustBase =>
    rw [ho] at h
    obtain ⟨x, m₁, hx, h⟩ := bind_eq_ok h
    obtain ⟨hr, rfl⟩ := reached_of_argument (by omega) hx
    cases h
    exact .adjust ho (by simpa only [visited, ho] using hr)
  | halt =>
    rw [ho] at h
    cases h
    exact .halt ho

theorem performs_of_execute (h : execute a m = .ok e m') :
    0 ≤ a ∧ ∃ i, m.decodeAt a = .ok i ∧ Performs a i (m.enter a) e m' := by
  obtain ⟨ha, i, hi, h⟩ := decodeAt_of_execute h
  exact ⟨ha, i, hi, performs_of_ok ha h⟩

end Machine

/-! ### Steps that succeed -/

namespace Session
variable {σ : Type} {w : Wiring σ} {a b t : Int} {p : Progress} {s s' : Session σ}
  {traced : Bool} {e : Effect}

theorem issue_ok (h : issue w traced a s = .ok p s') :
    ∃ e m log, Machine.execute a s.machine = .ok e m ∧
      conclude w e ⟨m, s.world, log⟩ = .ok p s' := by
  rw [issue_eq] at h
  obtain ⟨⟨cell, i⟩, s₁, hf, h⟩ := bind_eq_ok h
  obtain ⟨m₁, hfetch, rfl⟩ := onMachine_ok hf
  obtain ⟨u, s₂, hl, h⟩ := bind_eq_ok h
  obtain ⟨log, rfl⟩ := logWhen_ok hl
  obtain ⟨e, s₃, he, h⟩ := bind_eq_ok h
  obtain ⟨m, hperform, rfl⟩ := onMachine_ok he
  exact ⟨e, m, log, (bind_of_ok hfetch).trans hperform, h⟩

theorem conclude_running (h : conclude w e s = .ok (.running b) s') :
    s'.machine = s.machine ∧ (e = .next b ∨ ∃ v, e = .write v b) := by
  cases e with
  | next c =>
    cases h
    exact ⟨rfl, .inl rfl⟩
  | write v c =>
    obtain ⟨u, s₁, hw, h⟩ := bind_eq_ok h
    obtain ⟨world, -, rfl⟩ := onWorld_ok hw
    cases h
    exact ⟨rfl, .inr ⟨v, rfl⟩⟩
  | read t c | halt => cases h

theorem conclude_halted (h : conclude w e s = .ok .halted s') : e = .halt ∧ s' = s := by
  cases e with
  | halt =>
    cases h
    exact ⟨rfl, rfl⟩
  | write v c =>
    obtain ⟨u, s₁, -, h⟩ := bind_eq_ok h
    cases h
  | next c | read t c => cases h

theorem complete_running (h : complete w t b s = .ok p s') (hp : ∀ t b, p ≠ .reading t b) :
    p = .running b ∧ ∃ v old, Machine.poke t v s.machine = .ok old s'.machine := by
  obtain ⟨v, s₁, hr, h⟩ := bind_eq_ok h
  obtain ⟨world, -, rfl⟩ := onWorld_ok hr
  cases v with
  | none =>
    cases h
    exact absurd rfl (hp t b)
  | some v =>
    obtain ⟨old, s₂, hm, h⟩ := bind_eq_ok h
    obtain ⟨m, hpoke, rfl⟩ := onMachine_ok hm
    cases h
    exact ⟨rfl, v, old, hpoke⟩

/-- A step that goes on has completed an instruction of the machine, whatever its wiring. -/
theorem moves_of_step (h : step w traced a s = .ok (.running b) s') :
    ∃ e, s.machine.Moves a e b s'.machine := by
  obtain ⟨p, s₁, hp, h⟩ := bind_eq_ok h
  obtain ⟨e, m, log, he, hc⟩ := issue_ok hp
  cases p with
  | running c =>
    cases h
    obtain ⟨hm, rfl | ⟨v, rfl⟩⟩ := conclude_running hc
    · exact ⟨_, .next (by rw [he, hm])⟩
    · exact ⟨_, .write (by rw [he, hm])⟩
  | reading t c =>
    obtain ⟨rfl, rfl⟩ := conclude_reading hc
    obtain ⟨hb, v, old, hpoke⟩ := complete_running h nofun
    cases hb
    exact ⟨_, .read he hpoke⟩
  | halted => cases h

theorem execute_of_halted_step (h : step w traced a s = .ok .halted s') :
    Machine.execute a s.machine = .ok .halt s'.machine := by
  obtain ⟨p, s₁, hp, h⟩ := bind_eq_ok h
  obtain ⟨e, m, log, he, hc⟩ := issue_ok hp
  cases p with
  | running c => cases h
  | reading t c =>
    obtain ⟨hb, -⟩ := complete_running h nofun
    cases hb
  | halted =>
    cases h
    obtain ⟨rfl, rfl⟩ := conclude_halted hc
    exact he

end Session

end Intcode
