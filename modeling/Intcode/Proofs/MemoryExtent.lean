import Intcode.Proofs.CompletedInstruction

/-! # The extent of the memory

Whatever is done to a machine since it was loaded or reset, its memory is as large as its image, or
else just large enough for the addresses that have been touched. `Touches` says of one action which
these are and which cell, if any, it may have changed; a step touches the cells of its instruction,
those that its arguments refer to, and its target. -/

namespace Intcode.Machine
variable {a t x v : Int} {as bs ws : List Int} {t? : Option Int} {m m' m₁ m₂ : Machine}
  {mode : Mode} {i : Instruction} {e : Effect} {event : Event} {old : Option Int}

/-! ### Addresses of an instruction -/

/-- The address that a parameter with this operand refers to, if any. -/
def referent? (mode : Mode) (operand : Int) (m : Machine) : Option Int :=
  match mode with
  | .pointer => some operand
  | .value => none
  | .relative => some (operand + m.base)

theorem value_eq (mode : Mode) (operand : Int) (m : Machine) :
    value mode operand m = match m.referent? mode operand with
      | none => .ok operand m
      | some t => peek t m := by
  cases mode <;> rfl

/-- The addresses that the arguments of the instruction `i` at `a` refer to. Both arguments of a jump
count, whether it jumps or not. -/
def sources (a : Int) (i : Instruction) (m : Machine) : List Int :=
  match i.operation with
  | .add | .multiply | .lessThan | .equals | .jumpIfNonzero | .jumpIfZero =>
    (m.reference i.first (a + 1)).toList ++ (m.reference i.second (a + 2)).toList
  | .output | .adjustBase => (m.reference i.first (a + 1)).toList
  | .input | .halt => []

/-- The target of the instruction `i` at `a`, if it writes a cell. -/
def written? (a : Int) (i : Instruction) (m : Machine) : Option Int :=
  match i.operation with
  | .add | .multiply | .lessThan | .equals => m.reference i.third (a + 3)
  | .input => m.reference i.first (a + 1)
  | .output | .jumpIfNonzero | .jumpIfZero | .adjustBase | .halt => none

/-- The addresses that the instruction `i` at `a` touches: those of its cells, those that its
arguments refer to, and its target. -/
def touched (a : Int) (i : Instruction) (m : Machine) : List Int :=
  (List.range i.length).map (fun k : Nat => a + k) ++ m.sources a i ++ (m.written? a i).toList

/-- In the order in which they are reached these are the same addresses. -/
theorem mem_touched_iff :
    x ∈ m.touched a i ↔ x ∈ a :: m.visited a i ++ (m.written? a i).toList := by
  unfold touched sources written? visited trail Instruction.length
  cases i.operation <;> simp [Operation.length, List.range_succ] <;> grind

theorem Grown.visited (h : m.Grown m') (a : Int) (i : Instruction) :
    m'.visited a i = m.visited a i := by
  simp only [Machine.visited, h.trail]

/-! ### What one action touches -/

theorem extent_le_iff {n : Nat} : extent as ≤ n ↔ ∀ a ∈ as, a.toNat < n := by
  induction as with
  | nil => simp
  | cons a as ih =>
    rw [extent_cons, Nat.max_le, ih, List.forall_mem_cons, Nat.succ_le_iff]

theorem extent_congr (h : ∀ a, a ∈ as ↔ a ∈ bs) : extent as = extent bs :=
  Nat.le_antisymm (extent_le_iff.mpr fun a ha => extent_le_iff.mp (Nat.le_refl _) a ((h a).mp ha))
    (extent_le_iff.mpr fun a ha => extent_le_iff.mp (Nat.le_refl _) a ((h a).mpr ha))

/-- There are cells at these addresses now, and no others that were not there before; all cells but
one hold what they held. -/
structure Touches (as : List Int) (t? : Option Int) (m m' : Machine) : Prop where
  image : m'.image = m.image
  nonneg : ∀ a ∈ as, 0 ≤ a
  size : m'.memory.size = max m.memory.size (extent as)
  frame : ∀ b : Nat, t? ≠ some (b : Int) → m'.memory.get b = m.memory.get b

theorem Touches.congr (h : Touches as t? m m') (hab : ∀ a, a ∈ bs ↔ a ∈ as) :
    Touches bs t? m m' :=
  ⟨h.image, fun a ha => h.nonneg a ((hab a).mp ha), by rw [h.size, extent_congr hab], h.frame⟩

/-- An action that changes no cell, and then another one. -/
theorem Touches.append (h : Touches as none m m₁) (h' : Touches bs t? m₁ m₂) :
    Touches (as ++ bs) t? m m₂ := by
  refine ⟨h'.image.trans h.image, fun a ha => ?_, ?_, fun b hb => ?_⟩
  · rcases List.mem_append.mp ha with ha | ha
    · exact h.nonneg a ha
    · exact h'.nonneg a ha
  · rw [h'.size, h.size, extent_append, Nat.max_assoc]
  · rw [h'.frame b hb, h.frame b nofun]

theorem touches_of_reached (h : Reached as m m') : Touches as none m m' :=
  ⟨h.grown.image, h.nonneg, h.size, fun b _ => h.grown.get b⟩

theorem touches_store (ht : 0 ≤ t) (v : Int) (m : Machine) :
    Touches [t] (some t) m (m.store t v) := by
  refine ⟨rfl, by simpa using ht, size_store t v m, fun b hb => ?_⟩
  rw [get_store, if_neg]
  rintro rfl
  exact hb (by rw [Int.toNat_of_nonneg ht])

theorem touches_of_poke (h : poke t v m = .ok old m') : Touches [t] (some t) m m' := by
  obtain ⟨ht, -, rfl⟩ := poke_ok h
  exact touches_store ht v m

theorem touches_of_peek (h : peek a m = .ok x m') : Touches [a] none m m' :=
  touches_of_reached (reached_of_peek h).1

theorem touches_of_value {operand : Int} (h : value mode operand m = .ok x m') :
    Touches (m.referent? mode operand).toList none m m' := by
  rw [value_eq] at h
  cases hr : m.referent? mode operand with
  | none =>
    rw [hr] at h
    cases h
    exact touches_of_reached (.refl m)
  | some t =>
    rw [hr] at h
    exact touches_of_peek h

theorem touches_of_instructionAt (h : instructionAt a m = .ok i m') : Touches [a] none m m' := by
  obtain ⟨x, m₁, hx, h⟩ := bind_eq_ok h
  cases hd : Instruction.decode a x with
  | error f =>
    simp only [hd] at h
    cases h
  | ok j =>
    simp only [hd] at h
    cases h
    exact touches_of_peek hx

/-! ### What a step touches -/

theorem touches_enter (ha : 0 ≤ a) (m : Machine) : Touches [a] none m (m.enter a) :=
  have h := touches_of_reached (reached_look ha m)
  ⟨h.image, h.nonneg, h.size, h.frame⟩

theorem touches_of_enter (ha : 0 ≤ a) (h : Reached ((m.enter a).visited a i) (m.enter a) m') :
    Touches (a :: m.visited a i) none m m' := by
  have hvisited : (m.enter a).visited a i = m.visited a i := (grown_look a m).visited a i
  rw [hvisited] at h
  exact (touches_enter ha m).append (touches_of_reached h)

/-- An instruction is left with what it has touched, but for the target of a read. -/
theorem touches_of_performs (ha : 0 ≤ a) (h : Performs a i (m.enter a) e m')
    (he : ∀ t b, e ≠ .read t b) : Touches (m.touched a i) (m.written? a i) m m' := by
  refine Touches.congr ?_ fun x => mem_touched_iff
  cases h with
  | @combine f t m₁ hf hm ht h0 =>
    have hw : m.written? a i = some t := by
      rw [reference_enter] at ht
      cases hop : i.operation <;> simp [hop, Operation.result?] at hf <;> simp [written?, hop, ht]
    rw [hw]
    exact (touches_of_enter ha hm).append (touches_store h0 _ _)
  | read => exact absurd rfl (he _ _)
  | jump hop hm =>
    have hw : m.written? a i = none := by
      cases ho : i.operation <;> simp [ho, Operation.condition?] at hop <;> simp [written?, ho]
    simpa [hw] using touches_of_enter ha hm
  | write hop hm => simpa [written?, hop] using touches_of_enter ha hm
  | adjust hop hm =>
    have h := touches_of_enter ha hm
    simp only [written?, hop, Option.toList_none, List.append_nil]
    exact ⟨h.image, h.nonneg, h.size, h.frame⟩
  | halt hop => simpa [written?, visited, hop] using touches_enter ha m

theorem touches_of_execute (h : execute a m = .ok e m') (hi : m.decodeAt a = .ok i)
    (he : ∀ t b, e ≠ .read t b) : Touches (m.touched a i) (m.written? a i) m m' := by
  obtain ⟨ha, j, hj, h⟩ := performs_of_execute h
  rw [hi] at hj
  cases hj
  exact touches_of_performs ha h he

theorem touches_of_read {b : Int} (h : execute a m = .ok (.read t b) m₁)
    (hi : m.decodeAt a = .ok i) (hp : poke t v m₁ = .ok old m') :
    Touches (m.touched a i) (m.written? a i) m m' := by
  obtain ⟨ha, j, hj, h⟩ := performs_of_execute h
  rw [hi] at hj
  cases hj
  refine Touches.congr ?_ fun x => mem_touched_iff
  cases h with
  | read hop hm ht =>
    rw [reference_enter] at ht
    have hw : m.written? a i = some t := by simp [written?, hop, ht]
    rw [hw]
    exact (touches_of_enter ha hm).append (touches_of_poke hp)

theorem touches_of_moves {b : Int} (h : m.Moves a event b m') (hi : m.decodeAt a = .ok i) :
    Touches (m.touched a i) (m.written? a i) m m' := by
  cases h with
  | next h | write h => exact touches_of_execute h hi nofun
  | read h hp => exact touches_of_read h hi hp

theorem touches_of_step {σ : Type} {w : Wiring σ} {traced : Bool} {world : σ} {log : String}
    {p : Progress} {s' : Session σ} (h : Session.step w traced a ⟨m, world, log⟩ = .ok p s')
    (hp : ∀ t b, p ≠ .reading t b) (hi : m.decodeAt a = .ok i) :
    Touches (m.touched a i) (m.written? a i) m s'.machine := by
  cases p with
  | running b =>
    obtain ⟨e, hmoves⟩ := Session.moves_of_step h
    exact touches_of_moves hmoves hi
  | reading t b => exact absurd rfl (hp t b)
  | halted => exact touches_of_execute (Session.execute_of_halted_step h) hi nofun

/-! ### Accesses since a reset -/

/-- A machine whose memory is its image again, or still. -/
inductive Restored : Machine → Prop
  | load (image : List Int) : Restored (load image)
  | reset (full : Bool) (m : Machine) : Restored (m.reset full)

theorem Restored.memory_eq (h : Restored m) : m.memory = .ofList m.image := by
  cases h with
  | load => rfl
  | reset full m => cases full <;> rfl

/-- One access to the memory that succeeds: the addresses that it touches, and the cell that it
writes. A step that waits for a value has not succeeded yet. -/
inductive Access (m : Machine) : List Int → Option Int → Machine → Prop
  | peek {a x : Int} {m' : Machine} (h : peek a m = .ok x m') : Access m [a] none m'
  | poke {a v : Int} {old : Option Int} {m' : Machine} (h : poke a v m = .ok old m') :
    Access m [a] (some a) m'
  | value {mode : Mode} {operand x : Int} {m' : Machine} (h : value mode operand m = .ok x m') :
    Access m (m.referent? mode operand).toList none m'
  | instructionAt {a : Int} {i : Instruction} {m' : Machine} (h : instructionAt a m = .ok i m') :
    Access m [a] none m'
  | step {σ : Type} {w : Wiring σ} {traced : Bool} {a : Int} {i : Instruction} {world : σ}
    {log : String} {p : Progress} {s' : Session σ} (hi : m.decodeAt a = .ok i)
    (h : Session.step w traced a ⟨m, world, log⟩ = .ok p s') (hp : ∀ t b, p ≠ .reading t b) :
    Access m (m.touched a i) (m.written? a i) s'.machine

theorem Access.touches (h : Access m as t? m') : Touches as t? m m' := by
  cases h with
  | peek h => exact touches_of_peek h
  | poke h => exact touches_of_poke h
  | value h => exact touches_of_value h
  | instructionAt h => exact touches_of_instructionAt h
  | step hi h hp => exact touches_of_step h hp hi

/-- Accesses one after the other, with all addresses that they touch and all cells they write. -/
inductive Accesses (m : Machine) : List Int → List Int → Machine → Prop
  | refl : Accesses m [] [] m
  | step {as bs ws : List Int} {t? : Option Int} {m₁ m₂ : Machine} (h : Accesses m as ws m₁)
    (h' : Access m₁ bs t? m₂) : Accesses m (as ++ bs) (ws ++ t?.toList) m₂

theorem nonneg_of_accesses (h : Accesses m as ws m') : ∀ a ∈ as, 0 ≤ a := by
  induction h with
  | refl => nofun
  | step h h' ih => exact List.forall_mem_append.mpr ⟨ih, h'.touches.nonneg⟩

theorem size_of_accesses (h : Accesses m as ws m') :
    m'.memory.size = max m.memory.size (extent as) := by
  induction h with
  | refl => simp
  | step h h' ih => rw [h'.touches.size, ih, extent_append, Nat.max_assoc]

theorem get_of_accesses (h : Accesses m as ws m') {b : Nat} (hb : (b : Int) ∉ ws) :
    m'.memory.get b = m.memory.get b := by
  induction h with
  | refl => rfl
  | step h h' ih =>
    rw [List.mem_append, not_or, Option.mem_toList] at hb
    rw [h'.touches.frame b hb.2, ih hb.1]

/-- What a write gives back is what was there. -/
theorem poke_old (h : poke a v m = .ok old m') :
    (old = none ↔ m.memory.size ≤ a.toNat) ∧ ∀ x, old = some x → x = m.memory.get a.toNat := by
  obtain ⟨ha, rfl, -⟩ := poke_ok h
  rw [Memory.get?, if_neg (Int.not_lt.mpr ha)]
  refine ⟨by simp [Memory.size], fun x hx => ?_⟩
  simp [Memory.get, Array.getD_eq_getD_getElem?, hx]

/-- After any accesses since it was loaded or reset, a machine has a memory that is as large as its
image, or reaches just up to the largest address touched, and none was below 0; what has not been
written is as it was loaded, or 0 behind the image. A further write gives back what was there, and
nothing if there was no cell, and a further step changes no cell but its target. -/
theorem memory_since_reset (hm : Restored m) (h : Accesses m as ws m') :
    (∀ a ∈ as, 0 ≤ a) ∧ m'.memory.size = max m.image.length (extent as) ∧
    (∀ b : Nat, (b : Int) ∉ ws → m'.memory.get b = m.image.getD b 0) ∧
    (∀ (a v : Int) (old : Option Int) (m₁ : Machine), poke a v m' = .ok old m₁ →
      (old = none ↔ m'.memory.size ≤ a.toNat) ∧
        ∀ x, old = some x → x = m'.memory.get a.toNat) ∧
    ∀ {σ : Type} (w : Wiring σ) (traced : Bool) (a : Int) (i : Instruction) (world : σ)
      (log : String) (p : Progress) (s' : Session σ), m'.decodeAt a = .ok i →
      Session.step w traced a ⟨m', world, log⟩ = .ok p s' → (∀ t b, p ≠ .reading t b) →
        ∀ b : Nat, s'.machine.memory.get b ≠ m'.memory.get b → m'.written? a i = some (b : Int) := by
  refine ⟨nonneg_of_accesses h, ?_, fun b hb => ?_, fun a v old m₁ h => poke_old h,
    fun w traced a i world log p s' hi h hp b hb => ?_⟩
  · rw [size_of_accesses h, hm.memory_eq, Memory.size_ofList]
  · rw [get_of_accesses h hb, hm.memory_eq]
    simp [Memory.get, Memory.ofList, Array.getD_eq_getD_getElem?, List.getD_eq_getElem?_getD]
  · have hframe := (touches_of_step h hp hi).frame b
    exact Decidable.byContradiction fun hne => hb (hframe hne)

/-- An addition that writes behind the image, and then a look further on. -/
theorem memory_since_reset_past_image :
    ∃ m', Restored (load [1101, 2, 3, 9, 99]) ∧
      Accesses (load [1101, 2, 3, 9, 99]) [0, 1, 2, 3, 9, 12] [9] m' ∧ m'.memory.size = 13 ∧
      ∀ b : Nat, (b : Int) ∉ [9] → m'.memory.get b = [1101, 2, 3, 9, 99].getD b 0 := by
  have hadd : Session.step Devices.wiring false 0 ⟨load [1101, 2, 3, 9, 99], {}, ""⟩ =
      .ok (.running 4) ⟨((load [1101, 2, 3, 9, 99]).enter 0).store 9 5, {}, ""⟩ := by
    decide
  have hstep := Access.step (i := ⟨.add, .value, .value, .pointer⟩) rfl hadd
    (fun _ _ => Progress.noConfusion)
  have hpeek := peek_eq (a := 12) (by decide) (((load [1101, 2, 3, 9, 99]).enter 0).store 9 5)
  have h : Accesses (load [1101, 2, 3, 9, 99]) [0, 1, 2, 3, 9, 12] [9] _ :=
    .step (.step .refl hstep) (.peek hpeek)
  obtain ⟨-, hsize, hunwritten, -, -⟩ := memory_since_reset (.load _) h
  refine ⟨_, .load _, h, ?_, hunwritten⟩
  rw [hsize]
  rfl

end Intcode.Machine
