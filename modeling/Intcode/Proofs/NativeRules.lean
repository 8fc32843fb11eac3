import Intcode.Proofs.MachineValues
import Intcode.Proofs.Native
import Intcode.Proofs.Tape

/-! # The rules on words

A machine on a tape computes with unbounded integers and wraps sums and products of cells only; its
base and its addresses are never wrapped. A native machine keeps the words of all these integers.
While the addresses that an instruction accesses can be named by signed words, the two rules for it
agree: cells are in the range, so words lose nothing of them, and of the base it matters only what
it adds to an address, which is then that of its word. -/

namespace Intcode
open Word (InRange)

/-! ### The words of integers -/

namespace Word
variable {x y : Int}

abbrev bits (x : Int) : BitVec 64 := BitVec.ofInt 64 x

/-- The addresses of the cells that a signed word can name. -/
def Addressable (x : Int) : Prop := 0 ≤ x ∧ x < 0x8000000000000000

instance : DecidablePred Addressable := fun _ => inferInstanceAs (Decidable (_ ∧ _))

theorem Addressable.inRange (h : Addressable x) : InRange x := by
  unfold Addressable at h
  unfold InRange
  omega

theorem toInt_bits (h : InRange x) : (bits x).toInt = x := wrap_eq_self h

theorem bits_inj (hx : InRange x) (hy : InRange y) : bits x = bits y ↔ x = y := by
  constructor
  · intro h
    rw [← toInt_bits hx, h, toInt_bits hy]
  · rintro rfl
    rfl

theorem toNat_bits (h : Addressable x) : (bits x).toNat = x.toNat := by
  obtain ⟨h0, h1⟩ := h
  rw [BitVec.toNat_ofInt]
  omega

theorem bits_wrap (x : Int) : bits (wrap x) = bits x := BitVec.ofInt_toInt

theorem bits_add (x y : Int) : bits (x + y) = bits x + bits y := BitVec.ofInt_add x y

theorem bits_mul (x y : Int) : bits (x * y) = bits x * bits y := BitVec.ofInt_mul x y

theorem slt_bits (hx : InRange x) (hy : InRange y) : (bits x).slt (bits y) = decide (x < y) := by
  rw [BitVec.slt, toInt_bits hx, toInt_bits hy]

theorem bits_lessThan (hx : InRange x) (hy : InRange y) :
    (if (bits x).slt (bits y) then 1 else 0) = bits (if x < y then 1 else 0) := by
  rw [slt_bits hx hy]
  by_cases h : x < y
  · simp [h]
  · simp [h]

theorem bits_equals (hx : InRange x) (hy : InRange y) :
    (if bits x = bits y then 1 else 0) = bits (if x = y then 1 else 0) := by
  have hxy := bits_inj hx hy
  by_cases h : x = y
  · rw [if_pos h, if_pos (hxy.mpr h)]
    rfl
  · rw [if_neg h, if_neg fun h' => h (hxy.mp h')]
    rfl

theorem bits_ne_zero (hx : InRange x) : (bits x != 0) = (x != 0) := by
  have h0 : bits x = bits 0 ↔ x = 0 := bits_inj hx (by decide)
  by_cases h : x = 0
  · rw [h]
    rfl
  · rw [bne_iff_ne.mpr h]
    exact bne_iff_ne.mpr fun h' => h (h0.mp h')

theorem bits_eq_zero (hx : InRange x) : (bits x == 0) = (x == 0) := by
  have h := bits_ne_zero hx
  rw [bne, bne] at h
  exact Bool.not_inj h

end Word

open Word (bits Addressable)

/-! ### The addresses that an instruction accesses -/

/-- The parameters that an instruction has, and where they stand behind it. -/
def Instruction.parameters (i : Instruction) : List (Mode × Int) :=
  [(i.first, 1), (i.second, 2), (i.third, 3)].take (i.length - 1)

namespace TapeMachine

/-- The cell that the parameter in the cell at `a` refers to, if any. -/
def referred (mode : Mode) (a : Int) (m : TapeMachine) : List Int :=
  match mode with
  | .pointer => [m.tape a.toNat]
  | .value => []
  | .relative => [m.tape a.toNat + m.base]

/-- The cells that the instruction at `a` accesses: its own, those of its parameters and those that
these refer to. The target of a read is left out: it is accessed once there is a value. -/
def accesses (a : Int) (m : TapeMachine) : List Int :=
  match Instruction.decode a (m.tape a.toNat) with
  | .error _ => [a]
  | .ok i => a :: i.parameters.flatMap fun (mode, k) =>
      (a + k) :: if i.operation = .input then [] else m.referred mode (a + k)

/-! ### The rules on words -/

def native (m : TapeMachine) : NativeMachine where
  cells b := bits (m.tape b.toNat)
  base := bits m.base
  trace := m.trace.map fun e => (bits e.address, bits e.cell)

def Fits (mode : Mode) (a : Int) (m : TapeMachine) : Prop :=
  Addressable a ∧ ∀ x ∈ m.referred mode a, Addressable x

/-- All integers in the trace are in the range. -/
def Traced (m : TapeMachine) : Prop := ∀ e ∈ m.trace, InRange e.address ∧ InRange e.cell

variable {m : TapeMachine} {mode : Mode} {a t v : Int} {i : Instruction}

theorem read_of_addressable (h : Addressable a) : m.tape.read a = .ok (m.tape a.toNat) :=
  if_neg (Int.not_lt.mpr h.1)

theorem cells_native (h : Addressable a) : m.native.cells (bits a) = bits (m.tape a.toNat) := by
  show bits (m.tape (bits a).toNat) = _
  rw [Word.toNat_bits h]

theorem argument_native (hm : ∀ b, InRange (m.tape b)) (h : m.Fits mode a) :
    ∃ v, m.argument mode a = .ok v ∧ InRange v ∧ m.native.argument mode (bits a) = bits v := by
  obtain ⟨ha, hr⟩ := h
  cases mode with
  | pointer =>
    have hx : Addressable (m.tape a.toNat) := hr _ (List.mem_singleton_self _)
    refine ⟨_, ?_, hm (m.tape a.toNat).toNat, ?_⟩
    · simp only [argument, read_of_addressable ha, bind, Except.bind]
      exact read_of_addressable hx
    · rw [NativeMachine.argument, cells_native ha, cells_native hx]
  | value =>
    refine ⟨_, ?_, hm a.toNat, ?_⟩
    · simp only [argument, read_of_addressable ha, bind, Except.bind]
      rfl
    · rw [NativeMachine.argument, cells_native ha]
  | relative =>
    have hx : Addressable (m.tape a.toNat + m.base) := hr _ (List.mem_singleton_self _)
    refine ⟨_, ?_, hm (m.tape a.toNat + m.base).toNat, ?_⟩
    · simp only [argument, read_of_addressable ha, bind, Except.bind]
      exact read_of_addressable hx
    · have hsum : bits (m.tape a.toNat) + m.native.base = bits (m.tape a.toNat + m.base) :=
        (Word.bits_add _ _).symm
      rw [NativeMachine.argument, cells_native ha, hsum, cells_native hx]

theorem destination_native (mode : Mode) (hm : ∀ b, InRange (m.tape b)) (ha : Addressable a) :
    (∃ t, m.destination mode a = .ok t ∧ t ∈ m.referred mode a ∧
      m.native.destination mode (bits a) = .ok (bits t)) ∨
    (∃ f, m.destination mode a = .error f ∧ m.native.destination mode (bits a) = .error f) := by
  cases mode with
  | pointer =>
    refine .inl ⟨_, ?_, List.mem_singleton_self _, ?_⟩
    · simp only [destination, read_of_addressable ha, bind, Except.bind]
      rfl
    · rw [NativeMachine.destination, cells_native ha]
  | value =>
    refine .inr ⟨.valueTarget (m.tape a.toNat), ?_, ?_⟩
    · simp only [destination, read_of_addressable ha, bind, Except.bind]
      rfl
    · rw [NativeMachine.destination, cells_native ha, Word.toInt_bits (hm _)]
  | relative =>
    refine .inl ⟨_, ?_, List.mem_singleton_self _, ?_⟩
    · simp only [destination, read_of_addressable ha, bind, Except.bind]
      rfl
    · rw [NativeMachine.destination, cells_native ha, Word.bits_add]
      rfl

theorem Traced.of_eq {m' : TapeMachine} (h : m.Traced) (heq : m'.trace = m.trace) : m'.Traced := by
  unfold Traced
  rwa [heq]

theorem store_native (ht : Addressable t) (v : Int) :
    ∃ m', m.store t v = .ok m' ∧ m.native.store (bits t) (bits v) = m'.native ∧
      m'.trace = m.trace := by
  have hstore : m.store t v = .ok { m with tape := fun b => if b = t.toNat then v else m.tape b } := by
    simp only [store, Tape.write, if_neg (Int.not_lt.mpr ht.1), bind, Except.bind]
    rfl
  refine ⟨_, hstore, Eq.symm ?_, rfl⟩
  simp only [native, NativeMachine.store, NativeMachine.mk.injEq, and_true]
  funext b
  have hb : b = bits t ↔ b.toNat = t.toNat := by
    rw [← Word.toNat_bits ht]
    exact BitVec.toNat_inj.symm
  by_cases h : b = bits t
  · rw [if_pos h, if_pos (hb.mp h)]
  · rw [if_neg h, if_neg (fun h' => h (hb.mpr h'))]

end TapeMachine

def Effect.native : Effect → NativeEffect
  | next b => .next (bits b)
  | halt => .halt
  | read t b => .read (bits t) (bits b)
  | write v b => .write (bits v) (bits b)

/-- The effect `f` is `e` on words, and what it writes is in the range. -/
def Effect.Matches (e : Effect) (f : NativeEffect) : Prop := f = e.native ∧ e.Within InRange

namespace TapeMachine
variable {m : TapeMachine} {a : Int} {i : Instruction}

/-- The second outcome is the first on words, whose trace stays in the range. -/
def Matches {α β : Type} (Q : α → β → Prop) :
    Except Fault (α × TapeMachine) → Except Fault (β × NativeMachine) → Prop
  | .ok (a, m), .ok (b, n) => Q a b ∧ n = m.native ∧ m.Traced
  | .error e, .error f => e = f
  | .ok _, .error _ | .error _, .ok _ => False

/-- The parameters of `i` at `a` can be accessed, but for the target of a read. -/
def FitsAll (a : Int) (i : Instruction) (m : TapeMachine) : Prop :=
  ∀ p ∈ i.parameters, Addressable (a + p.2) ∧ (i.operation ≠ .input → m.Fits p.1 (a + p.2))

namespace FitsAll

theorem first (h : m.FitsAll a i) (hi : 2 ≤ i.length) : Addressable (a + 1) ∧
    (i.operation ≠ .input → m.Fits i.first (a + 1)) := by
  obtain ⟨n, hn⟩ := Nat.exists_eq_add_of_le' hi
  exact h (i.first, 1) (by simp [Instruction.parameters, hn])

theorem second (h : m.FitsAll a i) (hi : 3 ≤ i.length) (hin : i.operation ≠ .input) :
    m.Fits i.second (a + 2) := by
  obtain ⟨n, hn⟩ := Nat.exists_eq_add_of_le' hi
  exact (h (i.second, 2) (by simp [Instruction.parameters, hn])).2 hin

theorem third (h : m.FitsAll a i) (hi : 4 ≤ i.length) (hin : i.operation ≠ .input) :
    m.Fits i.third (a + 3) := by
  obtain ⟨n, hn⟩ := Nat.exists_eq_add_of_le' hi
  exact (h (i.third, 3) (by simp [Instruction.parameters, hn])).2 hin

end FitsAll

section
variable (hm : ∀ b, InRange (m.tape b)) (h : m.FitsAll a i) (hin : i.operation ≠ .input)
include hm h hin

theorem arguments_native (hl : 3 ≤ i.length) :
    ∃ x y, m.arguments a i = .ok (x, y) ∧ InRange x ∧ InRange y ∧
      m.native.argument i.first (bits a + 1) = bits x ∧
      m.native.argument i.second (bits a + 2) = bits y := by
  obtain ⟨x, hx, hxr, hxn⟩ := argument_native hm ((h.first (by omega)).2 hin)
  obtain ⟨y, hy, hyr, hyn⟩ := argument_native hm (h.second hl hin)
  refine ⟨x, y, ?_, hxr, hyr, ?_, ?_⟩
  · simp only [arguments, hx, hy, bind, Except.bind]
    rfl
  · rw [← hxn, Word.bits_add]
    rfl
  · rw [← hyn, Word.bits_add]
    rfl

theorem combine_native (ht : m.Traced) (hl : i.length = 4) {f : Int → Int → Int}
    {g : BitVec 64 → BitVec 64 → BitVec 64}
    (hfg : ∀ x y, InRange x → InRange y → g (bits x) (bits y) = bits (f x y)) :
    Matches Effect.Matches (m.combine f a i) (m.native.combine g (bits a) i) := by
  obtain ⟨x, y, hxy, hx, hy, hxn, hyn⟩ := arguments_native hm h hin (by omega)
  have h3 := h.third (by omega) hin
  have h3' : bits a + 3 = bits (a + 3) := (Word.bits_add a 3).symm
  have h4' : bits a + 4 = bits (a + 4) := (Word.bits_add a 4).symm
  simp only [NativeMachine.combine, combine, hxy, hxn, hyn, h3', h4', hfg x y hx hy]
  -- a parameter that is no target faults alike; a target is in the space, so its word names it
  rcases destination_native i.third hm h3.1 with ⟨t, htarget, hmem, htn⟩ | ⟨e, he, hen⟩
  · obtain ⟨m', hs, hsn, htrace⟩ := store_native (m := m) (h3.2 t hmem) (f x y)
    simp only [htarget, htn, hs, bind, Except.bind, hsn]
    exact ⟨⟨rfl, trivial⟩, rfl, ht.of_eq htrace⟩
  · simp only [he, hen, bind, Except.bind]
    rfl

theorem jumpWhen_native (ht : m.Traced) (hl : i.length = 3) {test : Int → Bool}
    {nativeTest : BitVec 64 → Bool} (htest : ∀ x, InRange x → nativeTest (bits x) = test x) :
    Matches Effect.Matches (m.jumpWhen test a i)
      (.ok (m.native.jumpWhen nativeTest (bits a) i, m.native)) := by
  obtain ⟨x, y, hxy, hx, -, hxn, hyn⟩ := arguments_native hm h hin (by omega)
  have h3' : bits a + 3 = bits (a + 3) := (Word.bits_add a 3).symm
  simp only [NativeMachine.jumpWhen, jumpWhen, hxy, hxn, hyn, h3', htest x hx, bind, Except.bind]
  cases test x <;> exact ⟨⟨rfl, trivial⟩, rfl, ht⟩

end

theorem perform_native (hm : ∀ b, InRange (m.tape b)) (ht : m.Traced) (h : m.FitsAll a i) :
    Matches Effect.Matches (m.perform a i) (m.native.perform (bits a) i) := by
  have hl : i.length = i.operation.length := rfl
  have h1' : bits a + 1 = bits (a + 1) := (Word.bits_add a 1).symm
  have h2' : bits a + 2 = bits (a + 2) := (Word.bits_add a 2).symm
  unfold NativeMachine.perform perform
  cases ho : i.operation with
  | add =>
    refine combine_native hm h (by rw [ho]; decide) ht (by rw [hl, ho]; rfl) fun x y _ _ => ?_
    rw [Word.bits_wrap, Word.bits_add]
  | multiply =>
    refine combine_native hm h (by rw [ho]; decide) ht (by rw [hl, ho]; rfl) fun x y _ _ => ?_
    rw [Word.bits_wrap, Word.bits_mul]
  | lessThan =>
    refine combine_native hm h (by rw [ho]; decide) ht (by rw [hl, ho]; rfl) fun x y hx hy => ?_
    exact Word.bits_lessThan hx hy
  | equals =>
    refine combine_native hm h (by rw [ho]; decide) ht (by rw [hl, ho]; rfl) fun x y hx hy => ?_
    exact Word.bits_equals hx hy
  | jumpIfNonzero =>
    refine jumpWhen_native hm h (by rw [ho]; decide) ht (by rw [hl, ho]; rfl) fun x hx => ?_
    exact Word.bits_ne_zero hx
  | jumpIfZero =>
    refine jumpWhen_native hm h (by rw [ho]; decide) ht (by rw [hl, ho]; rfl) fun x hx => ?_
    exact Word.bits_eq_zero hx
  | input =>
    have ha := (h.first (by rw [hl, ho]; decide)).1
    rw [h1', h2']
    rcases destination_native i.first hm ha with ⟨t, htarget, -, htn⟩ | ⟨e, he, hen⟩
    · simp only [htarget, htn, bind, Except.bind]
      exact ⟨⟨rfl, trivial⟩, rfl, ht⟩
    · simp only [he, hen, bind, Except.bind]
      rfl
  | output =>
    have hfits := (h.first (by rw [hl, ho]; decide)).2 (by rw [ho]; decide)
    obtain ⟨v, hv, hvr, hvn⟩ := argument_native hm hfits
    rw [h1', h2', hvn]
    simp only [hv, bind, Except.bind]
    exact ⟨⟨rfl, hvr⟩, rfl, ht⟩
  | adjustBase =>
    have hfits := (h.first (by rw [hl, ho]; decide)).2 (by rw [ho]; decide)
    obtain ⟨v, hv, -, hvn⟩ := argument_native hm hfits
    rw [h1', h2', hvn]
    simp only [hv, bind, Except.bind]
    refine ⟨⟨rfl, trivial⟩, ?_, ht⟩
    simp only [native, Word.bits_add]
  | halt => exact ⟨⟨rfl, trivial⟩, rfl, ht⟩

/-- The machine that has entered the instruction at `a` in its trace. -/
def enter (a : Int) (m : TapeMachine) : TapeMachine :=
  { m with trace := m.trace.push ⟨a, m.tape a.toNat⟩ }

theorem native_load (image : List Int) (base : Int) :
    (load image base).native = NativeMachine.load image base := by
  simp only [native, load, Array.map_empty]
  rfl

theorem trace_native (h : m.Traced) :
    m.native.trace.map (fun e => Entry.mk e.1.toInt e.2.toInt) = m.trace := by
  have hentry : ∀ e ∈ m.trace, Entry.mk (bits e.address).toInt (bits e.cell).toInt = e := by
    intro e he
    rw [Word.toInt_bits (h e he).1, Word.toInt_bits (h e he).2]
  show (m.trace.map _).map _ = _
  rw [Array.map_map]
  exact (Array.map_congr_left hentry).trans (Array.map_id' _)

theorem Traced.enter (h : m.Traced) (hm : ∀ b, InRange (m.tape b)) (ha : Addressable a) :
    (m.enter a).Traced := by
  intro e he
  rcases Array.mem_push.mp he with he | rfl
  · exact h e he
  · exact ⟨ha.inRange, hm _⟩

theorem native_enter (ha : Addressable a) : (m.enter a).native =
    { m.native with trace := m.native.trace.push (bits a, m.native.cells (bits a)) } := by
  rw [cells_native ha]
  simp only [enter, native, Array.map_push]

theorem fetch_native (hm : ∀ b, InRange (m.tape b)) (ha : Addressable a) :
    (∃ i, Instruction.decode a (m.tape a.toNat) = .ok i ∧
      m.fetch a = .ok ((m.tape a.toNat, i), m.enter a) ∧
      m.native.fetch (bits a) = .ok (i, (m.enter a).native)) ∨
    (∃ f, m.fetch a = .error (.decode f) ∧ m.native.fetch (bits a) = .error (.decode f)) := by
  have hcell : (m.native.cells (bits a)).toInt = m.tape a.toNat := by
    rw [cells_native ha, Word.toInt_bits (hm _)]
  have haddr : (bits a).toInt = a := Word.toInt_bits ha.inRange
  cases hd : Instruction.decode a (m.tape a.toNat) with
  | ok i =>
    refine .inl ⟨i, rfl, ?_, ?_⟩
    · simp only [fetch, read_of_addressable ha, bind, Except.bind, hd]
      rfl
    · rw [NativeMachine.fetch, hcell, haddr, hd, native_enter ha]
  | error f =>
    refine .inr ⟨f, ?_, ?_⟩
    · simp only [fetch, read_of_addressable ha, bind, Except.bind, hd]
      rfl
    · rw [NativeMachine.fetch, hcell, haddr, hd]

/-- The accesses of an instruction, taken apart. -/
theorem fits_of_accesses (h : ∀ x ∈ m.accesses a, Addressable x) : Addressable a ∧
    ∀ i, Instruction.decode a (m.tape a.toNat) = .ok i → m.FitsAll a i := by
  unfold accesses at h
  cases hd : Instruction.decode a (m.tape a.toNat) with
  | error f =>
    rw [hd] at h
    exact ⟨h a (List.mem_singleton_self a), nofun⟩
  | ok i =>
    rw [hd] at h
    refine ⟨h a List.mem_cons_self, ?_⟩
    rintro _ ⟨⟩ p hp
    have hparam : ∀ x ∈ (a + p.2) :: (if i.operation = .input then [] else m.referred p.1 (a + p.2)),
        Addressable x := by
      intro x hx
      exact h x (List.mem_cons_of_mem _ (List.mem_flatMap.mpr ⟨p, hp, hx⟩))
    refine ⟨hparam _ List.mem_cons_self, fun hin => ⟨hparam _ List.mem_cons_self, fun x hx => ?_⟩⟩
    rw [if_neg hin] at hparam
    exact hparam x (List.mem_cons_of_mem _ hx)

end TapeMachine

end Intcode
