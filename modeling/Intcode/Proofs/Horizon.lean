import Intcode.Proofs.InstructionCode
import Intcode.Proofs.MachineValues

/-! # How far a machine gets

The base of a machine and the addresses in its jumps have no bounds, but they take time to grow: the
cells are signed 64-bit integers, so one instruction moves the base by no more than a cell can hold,
and the next address is a few cells on or is read from a cell. After `k` instructions everything
that the machine can name lies inside the horizon `k`. -/

namespace Intcode
open Word (InRange)

section
variable {ε σ α β : Type} {P P' P'' : σ → Prop} {Q : α → Prop} {R : β → Prop} {E E' : ε → Prop}

/-- From a state with `P` the action comes to one with `P'`, with a value in `Q` or a fault in `E`.
-/
def Leads (P P' : σ → Prop) (Q : α → Prop) (E : ε → Prop) (x : EStateM ε σ α) : Prop :=
  ∀ s, P s → P' (finalState (x s)) ∧ Yields Q E (x s)

theorem Ensures.leads {x : EStateM ε σ α} (h : Ensures P Q E x) (hP : ∀ s, P s → P' s) :
    Leads P P' Q E x :=
  fun s hs => ⟨hP _ (h s hs).1, (h s hs).2⟩

theorem Leads.mono {x : EStateM ε σ α} (h : Leads P P' Q E x) (hE : ∀ e, E e → E' e) :
    Leads P P' Q E' x := by
  intro s hs
  obtain ⟨hs', hY⟩ := h s hs
  refine ⟨hs', ?_⟩
  cases hx : x s with
  | ok a s' => rw [hx] at hY; exact hY
  | error e s' => rw [hx] at hY; exact hE e hY

theorem Leads.bind {x : EStateM ε σ α} {f : α → EStateM ε σ β} (h : Leads P P' Q E x)
    (hP : ∀ s, P' s → P'' s) (hf : ∀ a, Q a → Leads P' P'' R E (f a)) :
    Leads P P'' R E (x >>= f) := by
  intro s hs
  obtain ⟨hs', hY⟩ := h s hs
  cases hx : x s with
  | ok a s' =>
    rw [hx] at hs' hY
    rw [bind_of_ok hx]
    exact hf a hY s' hs'
  | error e s' =>
    rw [hx] at hs' hY
    rw [bind_of_error hx]
    exact ⟨hP s' hs', hY⟩

theorem Leads.succeeds {x : EStateM ε σ α} {s : σ} (h : Leads P P' Q (fun _ => False) x)
    (hs : P s) : ∃ a s', x s = .ok a s' ∧ P' s' ∧ Q a := by
  obtain ⟨hs', hY⟩ := h s hs
  cases hx : x s with
  | ok a s' =>
    rw [hx] at hs' hY
    exact ⟨a, s', rfl, hs', hY⟩
  | error e s' =>
    rw [hx] at hY
    exact hY.elim

theorem fails_bind_pure {x : EStateM ε σ α} {f : α → β} {s : σ} :
    (∃ e s', (x >>= fun a => pure (f a)) s = .error e s') ↔ ∃ e s', x s = .error e s' := by
  cases hx : x s with
  | ok a s₁ =>
    rw [bind_of_ok hx]
    constructor
    · rintro ⟨e, s', h⟩
      cases h
    · rintro ⟨e, s', h⟩
      cases h
  | error e s₁ =>
    rw [bind_of_error hx]
    exact ⟨fun _ => ⟨e, s₁, rfl⟩, fun _ => ⟨e, s₁, rfl⟩⟩

end

/-- The largest cell, and then as much again for every instruction. -/
def horizon (k : Nat) : Nat := (k + 1) * 0x8000000000000000

theorem horizon_succ (k : Nat) : horizon (k + 1) = horizon k + 0x8000000000000000 := by
  unfold horizon
  omega

theorem le_horizon (k : Nat) : 0x8000000000000000 ≤ horizon k := by
  unfold horizon
  omega

theorem horizon_mono {j k : Nat} (h : j ≤ k) : horizon j ≤ horizon k := by
  unfold horizon
  omega

theorem natAbs_le_of_inRange {v : Int} (h : InRange v) : v.natAbs ≤ 0x8000000000000000 := by
  obtain ⟨hl, hu⟩ := h
  omega

/-- A fault of an instruction that names nothing beyond `N`. -/
def Fault.Bounded (N : Nat) (f : Fault) : Prop := f.Own ∧ ∀ v ∈ f.numbers, v.natAbs ≤ N

/-- An effect that leads to no address beyond `N`. -/
def Effect.Bounded (N : Nat) : Effect → Prop
  | next b => b.natAbs ≤ N
  | halt => True
  | read t b => t.natAbs ≤ N ∧ b.natAbs ≤ N
  | write v b => InRange v ∧ b.natAbs ≤ N

namespace Instruction
variable {address : Option Int} {cell : Int} {f : DecodeFault}

/-- The two ways in which a cell holds no instruction. -/
def Undecoded (address : Option Int) (cell : Int) (f : DecodeFault) : Prop :=
  f = .unknownOpcode cell address ∨ ∃ digit < 10, f = .unknownMode digit cell address

theorem undecoded_of_decode (h : decode address cell = .error f) : Undecoded address cell f := by
  rcases decode_eq_error_iff.mp h with ⟨-, rfl⟩ | ⟨-, -, digit, hdigit, rfl⟩
  · exact .inl rfl
  · exact .inr ⟨digit, badDigit_lt hdigit, rfl⟩

theorem natAbs_opcode_le (cell : Int) : (Report.opcode cell).natAbs ≤ cell.natAbs := by
  unfold Report.opcode
  split
  · exact Nat.le_refl _
  · omega

theorem bounded_of_undecoded {N : Nat} {a : Int} (h : Undecoded (some a) cell f)
    (ha : a.natAbs ≤ N) (hc : cell.natAbs ≤ N) (hN : 10 ≤ N) : ∀ v ∈ f.numbers, v.natAbs ≤ N := by
  have hposition : ∀ v ∈ Report.positionNumbers cell (some a), v.natAbs ≤ N := by
    intro v hv
    rcases List.mem_cons.mp hv with rfl | hv
    · exact ha
    · rwa [List.mem_singleton.mp hv]
  rcases h with rfl | ⟨digit, hdigit, rfl⟩
  · intro v hv
    rcases List.mem_cons.mp hv with rfl | hv
    · exact Nat.le_trans (natAbs_opcode_le cell) hc
    · exact hposition v hv
  · intro v hv
    rcases List.mem_cons.mp hv with rfl | hv
    · omega
    · exact hposition v hv

end Instruction

namespace Machine
variable {k : Nat} {a v : Int} {m : Machine}

/-- What holds of a machine that has executed `k` instructions. -/
structure Settled (k : Nat) (m : Machine) : Prop where
  within : m.Within InRange
  base : m.base.natAbs + 0x8000000000000000 ≤ horizon k
  trace : ∀ e ∈ m.trace.toList, e.address.natAbs ≤ horizon k ∧ InRange e.cell

theorem Settled.mono {j : Nat} (h : m.Settled j) (hj : j ≤ k) : m.Settled k := by
  have hle := horizon_mono hj
  refine ⟨h.within, Nat.le_trans h.base hle, fun e he => ?_⟩
  obtain ⟨haddress, hcell⟩ := h.trace e he
  exact ⟨Nat.le_trans haddress hle, hcell⟩

theorem settled_load {image : List Int} (h : ∀ v ∈ image, InRange v) : (load image).Settled 0 := by
  refine ⟨Memory.within_ofList h, ?_, fun e he => absurd he List.not_mem_nil⟩
  show (0 : Int).natAbs + 0x8000000000000000 ≤ horizon 0
  decide

theorem bounded_reach (h : a.natAbs ≤ horizon k) :
    Ensures (Settled k) (fun _ => True) (Fault.Bounded (horizon k)) (reach a) := by
  intro m hm
  by_cases ha : a < 0
  · rw [reach_of_neg m ha]
    refine ⟨hm, trivial, fun v hv => ?_⟩
    rwa [List.mem_singleton.mp hv]
  · rw [reach_of_nonneg m (Int.not_lt.mp ha)]
    exact ⟨⟨Memory.Within.grow hm.within (by decide) _, hm.base, hm.trace⟩, trivial⟩

theorem bounded_peek (h : a.natAbs ≤ horizon k) :
    Ensures (Settled k) InRange (Fault.Bounded (horizon k)) (peek a) := by
  refine (bounded_reach h).bind fun i _ => .get_bind fun m hm => ?_
  exact .ret (Memory.Within.get hm.within (by decide) i)

theorem bounded_poke (h : a.natAbs ≤ horizon k) (hv : InRange v) :
    Ensures (Settled k) (fun _ => True) (Fault.Bounded (horizon k)) (poke a v) := by
  refine .get_bind fun _ _ => (bounded_reach h).bind fun i _ => ?_
  refine .modify_bind (fun m hm => ?_) (.ret trivial)
  exact ⟨Memory.Within.set hm.within hv i, hm.base, hm.trace⟩

/-- A sum with the base lies inside the horizon. -/
theorem Settled.add_base (h : m.Settled k) (hv : InRange v) :
    (v + m.base).natAbs ≤ horizon k := by
  have hbase := h.base
  have hcell := natAbs_le_of_inRange hv
  omega

theorem bounded_value (mode : Mode) (hv : InRange v) :
    Ensures (Settled k) InRange (Fault.Bounded (horizon k)) (value mode v) := by
  have hnear : v.natAbs ≤ horizon k := Nat.le_trans (natAbs_le_of_inRange hv) (le_horizon k)
  cases mode with
  | pointer => exact bounded_peek hnear
  | value => exact .ret hv
  | relative => exact .get_bind fun m hm => bounded_peek (hm.add_base hv)

theorem bounded_argument (mode : Mode) (h : a.natAbs ≤ horizon k) :
    Ensures (Settled k) InRange (Fault.Bounded (horizon k)) (argument mode a) :=
  (bounded_peek h).bind fun _ hv => bounded_value mode hv

theorem bounded_target (mode : Mode) (hv : InRange v) :
    Ensures (Settled k) (fun t => t.natAbs ≤ horizon k) (Fault.Bounded (horizon k))
      (target mode v) := by
  have hnear : v.natAbs ≤ horizon k := Nat.le_trans (natAbs_le_of_inRange hv) (le_horizon k)
  cases mode with
  | pointer => exact .ret hnear
  | value =>
    refine .fail ⟨trivial, fun u hu => ?_⟩
    rwa [List.mem_singleton.mp hu]
  | relative => exact .get_bind fun m hm => .ret (hm.add_base hv)

theorem bounded_destination (mode : Mode) (h : a.natAbs ≤ horizon k) :
    Ensures (Settled k) (fun t => t.natAbs ≤ horizon k) (Fault.Bounded (horizon k))
      (destination mode a) :=
  (bounded_peek h).bind fun _ hv => bounded_target mode hv

theorem bounded_fetch (h : a.natAbs ≤ horizon k) :
    Ensures (Settled k) (fun r => InRange r.1) (Fault.Bounded (horizon k)) (fetch a) := by
  have hlarge := le_horizon k
  refine (bounded_peek h).bind fun cell hcell => ?_
  have hnear := natAbs_le_of_inRange hcell
  cases hd : Instruction.decode a cell with
  | error f =>
    have hundecoded := Instruction.undecoded_of_decode hd
    exact .fail ⟨trivial, Instruction.bounded_of_undecoded hundecoded h (by omega) (by omega)⟩
  | ok i =>
    refine .modify_bind (fun m hm => ⟨hm.within, hm.base, fun e he => ?_⟩) (.ret hcell)
    rw [Array.toList_push] at he
    rcases List.mem_append.mp he with he | he
    · exact hm.trace e he
    · rw [List.mem_singleton.mp he]
      exact ⟨h, hcell⟩

theorem bounded_instructionAt (h : a.natAbs ≤ horizon k) :
    Ensures (Settled k) (fun _ => True) (Fault.Bounded (horizon k)) (instructionAt a) := by
  have hlarge := le_horizon k
  refine (bounded_peek h).bind fun cell hcell => ?_
  have hnear := natAbs_le_of_inRange hcell
  cases hd : Instruction.decode a cell with
  | error f =>
    have hundecoded := Instruction.undecoded_of_decode hd
    exact .fail ⟨trivial, Instruction.bounded_of_undecoded hundecoded h (by omega) (by omega)⟩
  | ok i => exact .ret trivial

section
variable (ha : a.natAbs + 4 ≤ horizon k)
include ha

theorem bounded_combine {f : Int → Int → Int} (hf : ∀ x y, InRange (f x y)) (i : Instruction) :
    Ensures (Settled k) (Effect.Bounded (horizon k)) (Fault.Bounded (horizon k))
      (combine f a i) := by
  refine (bounded_argument i.first (by omega)).bind fun x _ => ?_
  refine (bounded_argument i.second (by omega)).bind fun y _ => ?_
  refine (bounded_destination i.third (by omega)).bind fun t ht => ?_
  refine (bounded_poke ht (hf x y)).bind fun _ _ => .ret ?_
  show (a + 4).natAbs ≤ horizon k
  omega

theorem bounded_jumpWhen (test : Int → Bool) (i : Instruction) :
    Ensures (Settled k) (Effect.Bounded (horizon k)) (Fault.Bounded (horizon k))
      (jumpWhen test a i) := by
  refine (bounded_argument i.first (by omega)).bind fun x _ => ?_
  refine (bounded_argument i.second (by omega)).bind fun there hthere => .ret ?_
  have hnear := natAbs_le_of_inRange hthere
  have hlarge := le_horizon k
  show Int.natAbs (if test x then there else a + 3) ≤ horizon k
  split
  · omega
  · omega

/-- Only an adjustment moves the base, and it is the last thing that it does. -/
theorem bounded_adjust (i : Instruction) :
    Leads (Settled k) (Settled (k + 1)) (Effect.Bounded (horizon k)) (Fault.Bounded (horizon k))
      (perform a ⟨.adjustBase, i.first, i.second, i.third⟩) := by
  have hsucc : ∀ m : Machine, m.Settled k → m.Settled (k + 1) := fun _ h => h.mono (Nat.le_succ k)
  refine Leads.bind (bounded_argument i.first (by omega)) hsucc fun x hx => ?_
  intro m hm
  have hmove := natAbs_le_of_inRange hx
  have hbase := hm.base
  have hnext := horizon_succ k
  refine ⟨⟨hm.within, ?_, (hsucc m hm).trace⟩, ?_⟩
  · show (m.base + x).natAbs + 0x8000000000000000 ≤ horizon (k + 1)
    omega
  · show (a + 2).natAbs ≤ horizon k
    omega

theorem bounded_perform (i : Instruction) :
    Leads (Settled k) (Settled (k + 1)) (Effect.Bounded (horizon k)) (Fault.Bounded (horizon k))
      (perform a i) := by
  have hbit : ∀ p : Prop, [Decidable p] → InRange (if p then 1 else 0) := by
    intro p _
    split <;> decide
  have hsucc : ∀ m : Machine, m.Settled k → m.Settled (k + 1) := fun _ h => h.mono (Nat.le_succ k)
  obtain ⟨o, m₁, m₂, m₃⟩ := i
  cases o with
  | add => exact (bounded_combine ha (fun x y => Word.inRange_wrap (x + y)) _).leads hsucc
  | multiply => exact (bounded_combine ha (fun x y => Word.inRange_wrap (x * y)) _).leads hsucc
  | lessThan => exact (bounded_combine ha (fun x y => hbit (x < y)) _).leads hsucc
  | equals => exact (bounded_combine ha (fun x y => hbit (x = y)) _).leads hsucc
  | jumpIfNonzero | jumpIfZero => exact (bounded_jumpWhen ha _ _).leads hsucc
  | input =>
    refine Ensures.leads ((bounded_destination m₁ (by omega)).bind fun t ht => .ret ?_) hsucc
    refine ⟨ht, ?_⟩
    omega
  | output =>
    refine Ensures.leads ((bounded_argument m₁ (by omega)).bind fun v hv => .ret ?_) hsucc
    refine ⟨hv, ?_⟩
    omega
  | adjustBase => exact bounded_adjust ha ⟨.adjustBase, m₁, m₂, m₃⟩
  | halt => exact Ensures.leads (.ret trivial) hsucc

end

end Machine

end Intcode
