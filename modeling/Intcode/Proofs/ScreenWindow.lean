import Intcode.Proofs.DebuggerHorizon
import Intcode.Proofs.DebuggerLooks
import Intcode.Proofs.DebuggerScript
import Intcode.Proofs.ScreenText

/-! # What the memory window shows

Whatever the state of a debugger, there is a screen unless one of its integers is too long to be
written, and a reader of the screen finds in its window the cells from its first address on, those of
the current instruction in brackets. While the window follows the instruction pointer the whole
instruction is in it. A look at the current instruction grows the memory up to that instruction, and
the window does not grow it at all. But a command can move the window to an address that can be
written and not be shown, for the addresses of the rows behind it cannot be written. -/

namespace Intcode

namespace Machine

theorem get_glance (a : Int) (m : Machine) (b : Nat) :
    (m.glance a).memory.get b = m.memory.get b := by
  unfold glance
  split
  · exact get_look a m b
  · rfl

end Machine

namespace Debugger
variable {d : Debugger} {m : Machine} {i : Instruction} {f : Fault} {first : Nat}

/-- The current instruction, if its cell decodes. -/
def instruction? (d : Debugger) : Option Instruction :=
  if 0 ≤ d.ip then (d.machine.decodeAt d.ip).toOption else none

/-- The cells of the current instruction; a cell that does not decode stands alone. -/
def span (d : Debugger) : Nat := (d.instruction?.map Instruction.length).getD 1

/-- Every integer that a screen needs can be written: those on it, and those in the reason why the
current instruction does not decode. -/
structure Showable (d : Debugger) : Prop where
  fault : ∀ f m, Machine.instructionAt d.ip d.machine = .error f m → f.Tellable
  numbers : ∀ v ∈ d.numbers, Numeral.Writable v

/-- What the window has to show, if it begins at `first`. -/
structure IsWindow (d : Debugger) (first : Nat) (rows : List (List ShownCell)) : Prop where
  shape : rows.map List.length = [8, 8, 8]
  cells : rows.flatten = (List.range' first 24).map fun a =>
    ⟨a, d.machine.memory.get a, decide (d.ip ≤ a ∧ a < d.ip + d.span)⟩
  moved : ∀ a ∈ d.view, first = a
  aligned : d.view = none → 8 ∣ first
  follows : d.view = none → 0 ≤ d.ip → first ≤ d.ip ∧ d.ip < first + 8 ∧ d.ip + d.span ≤ first + 24
  whole : d.view = none → 0 ≤ d.ip → rows.flatten.countP (·.bracketed) = d.span
  outside : d.ip < 0 → ∀ c ∈ rows.flatten, c.bracketed = false

/-! ### Whether there is a screen -/

theorem instruction?_of_found (h : Machine.instructionAt d.ip d.machine = .ok i m) :
    d.instruction? = some i := by
  obtain ⟨ha, hi⟩ := Machine.decodeAt_of_found h
  rw [instruction?, if_pos ha, hi]
  rfl

theorem instruction?_of_unfound (h : Machine.instructionAt d.ip d.machine = .error f m) :
    d.instruction? = none := by
  unfold instruction?
  split
  · rename_i ha
    cases hi : d.machine.decodeAt d.ip with
    | error g => rfl
    | ok i => cases (Machine.instructionAt_of_decoded ha hi).symm.trans h
  · rfl

theorem numbers_looked (d : Debugger) : d.looked.numbers = d.numbers := by
  have hget : d.looked.machine.memory.get = d.machine.memory.get :=
    funext (Machine.get_glance d.ip d.machine)
  have hbase : d.looked.machine.base = d.machine.base := Machine.base_glance _ _
  have htrace : d.looked.machine.trace = d.machine.trace := Machine.trace_glance _ _
  have hrows : d.looked.windowRows = d.windowRows := rfl
  simp only [numbers, windowNumbers, recentTrace, hrows, hget, hbase, htrace]
  rfl

/-- A look at the current instruction succeeds, unless it cannot be told why it does not decode. -/
theorem current_cases (d : Debugger) :
    (current d = .ok d.instruction? d.looked ∧
      ∀ f m, Machine.instructionAt d.ip d.machine = .error f m → f.Tellable) ∨
    ∃ f m, ¬ f.Tellable ∧ Machine.instructionAt d.ip d.machine = .error f m ∧
      current d = .error f d.looked := by
  have hlooked := finalState_current d
  cases h : Machine.instructionAt d.ip d.machine with
  | ok i m =>
    have hc := current_of_ok h
    rw [hc] at hlooked
    refine .inl ⟨?_, nofun⟩
    rw [hc, instruction?_of_found h, ← hlooked]
    rfl
  | error f m =>
    by_cases hf : f.Tellable
    · have hc := current_of_told h hf
      rw [hc] at hlooked
      refine .inl ⟨?_, ?_⟩
      · rw [hc, instruction?_of_unfound h, ← hlooked]
        rfl
      · rintro _ _ ⟨⟩
        exact hf
    · have hc := current_of_untold h hf
      rw [hc] at hlooked
      refine .inr ⟨f, m, hf, rfl, ?_⟩
      rw [hc, ← hlooked]
      rfl

theorem render_of_showable (h : d.Showable) :
    render d = .ok ("\n".intercalate (d.looked.screenLines d.instruction?)) d.looked := by
  rcases current_cases d with ⟨hc, -⟩ | ⟨f, m, hf, hi, -⟩
  · have hnumbers : ∀ v ∈ d.looked.numbers, Numeral.Writable v := by
      rw [numbers_looked]
      exact h.numbers
    rw [render, bind_of_ok hc, get_bind, if_pos hnumbers]
    rfl
  · exact absurd (h.fault f m hi) hf

theorem render_of_not_showable (h : ¬ d.Showable) : ∃ f, render d = .error f d.looked := by
  rcases current_cases d with ⟨hc, htold⟩ | ⟨f, -, -, -, hc⟩
  · have hnumbers : ¬ ∀ v ∈ d.looked.numbers, Numeral.Writable v := by
      rw [numbers_looked]
      exact fun hnumbers => h ⟨htold, hnumbers⟩
    refine ⟨.unwritable, ?_⟩
    rw [render, bind_of_ok hc, get_bind, if_neg hnumbers]
    rfl
  · refine ⟨f, ?_⟩
    rw [render, bind_of_error hc]

/-! ### What is in the window -/

theorem span_le (d : Debugger) : d.span ≤ 4 := by
  have hlength : ∀ o : Operation, o.length ≤ 4 := by
    intro o
    cases o <;> decide
  unfold span
  cases d.instruction? with
  | none => decide
  | some i => exact hlength i.operation

theorem flatten_windowRows (d : Debugger) :
    d.windowRows.flatten = List.range' d.windowStart 24 := by
  have hrows : d.windowRows.flatten = List.range' d.windowStart 8 ++
      (List.range' (d.windowStart + 8) 8 ++ List.range' (d.windowStart + 8 + 8) 8) := rfl
  rw [hrows, List.range'_append_1, List.range'_append_1]

theorem isCurrent_iff {k a : Nat} : d.isCurrent k a = true ↔ d.ip ≤ a ∧ a < d.ip + k := by
  simp only [isCurrent, Bool.and_eq_true, decide_eq_true_eq]

/-- Among addresses that hold a whole instruction, as many belong to it as it has cells. -/
theorem countP_isCurrent {n k : Nat} (hfirst : first ≤ d.ip) (hend : d.ip + k ≤ first + n) :
    (List.range' first n).countP (d.isCurrent k) = k := by
  obtain ⟨before, hbefore⟩ : ∃ before : Nat, d.ip = (first + before : Nat) :=
    ⟨(d.ip - first).toNat, by omega⟩
  obtain ⟨behind, rfl⟩ : ∃ behind, n = before + (k + behind) := ⟨n - before - k, by omega⟩
  have hnone : ∀ (s l : Nat), (∀ a ∈ List.range' s l, ¬ (d.ip ≤ a ∧ a < d.ip + k)) →
      (List.range' s l).countP (d.isCurrent k) = 0 :=
    fun s l h => List.countP_eq_zero.mpr fun a ha hc => h a ha (isCurrent_iff.mp hc)
  have hall : (List.range' (first + before) k).countP (d.isCurrent k) = k := by
    refine (List.countP_eq_length.mpr fun a ha => isCurrent_iff.mpr ?_).trans List.length_range'
    have := List.mem_range'_1.mp ha
    omega
  rw [← List.range'_append_1, ← List.range'_append_1, List.countP_append, List.countP_append, hall,
    hnone, hnone]
  · omega
  · intro a ha
    have := List.mem_range'_1.mp ha
    omega
  · intro a ha
    have := List.mem_range'_1.mp ha
    omega

/-- A window without a view of its own begins with the row that the instruction pointer is in. -/
theorem windowStart_of_follows (h : d.view = none) :
    d.windowStart = (d.ip - d.ip % 8).toNat := by
  simp only [windowStart, h]
  rfl

theorem shownCell_looked (d : Debugger) (a : Nat) : d.looked.shownCell d.span a =
    ⟨a, d.machine.memory.get a, decide (d.ip ≤ a ∧ a < d.ip + d.span)⟩ := by
  have hget : d.looked.machine.memory.get a = d.machine.memory.get a :=
    Machine.get_glance d.ip d.machine a
  have hcurrent : d.looked.isCurrent d.span a = decide (d.ip ≤ a ∧ a < d.ip + d.span) :=
    (Bool.decide_and _ _).symm
  rw [shownCell, hget, hcurrent]

theorem isWindow_looked (d : Debugger) : d.IsWindow d.windowStart
    (d.windowRows.map fun row => row.map (d.looked.shownCell d.span)) := by
  have hcells : (d.windowRows.map fun row => row.map (d.looked.shownCell d.span)).flatten =
      (List.range' d.windowStart 24).map (d.looked.shownCell d.span) := by
    rw [← flatten_windowRows, List.map_flatten]
  have hspan := span_le d
  refine { shape := rfl, cells := ?cells, moved := ?moved, aligned := ?aligned,
           follows := ?follows, whole := ?whole, outside := ?outside }
  case cells =>
    rw [hcells]
    exact List.map_congr_left fun a _ => shownCell_looked d a
  case moved =>
    intro a ha
    simp only [windowStart, Option.mem_def.mp ha]
  case aligned =>
    intro hview
    rw [windowStart_of_follows hview]
    omega
  case follows =>
    intro hview hip
    rw [windowStart_of_follows hview]
    omega
  case whole =>
    intro hview hip
    have hfirst := windowStart_of_follows hview
    rw [hcells, List.countP_map]
    exact countP_isCurrent (d := d) (by omega) (by omega)
  case outside =>
    intro hip c hc
    have hone : d.span = 1 := by
      rw [span, instruction?, if_neg (Int.not_le.mpr hip)]
      rfl
    rw [hcells] at hc
    obtain ⟨a, -, rfl⟩ := List.mem_map.mp hc
    rw [shownCell_looked, hone]
    exact decide_eq_false (by omega)

/-- A look at the current instruction grows the memory just enough for a cell that it begins in. -/
theorem memory_looked (d : Debugger) : ∃ memory : Memory,
    d.looked = { d with machine := { d.machine with memory } } ∧
      memory.toList = d.machine.memory.toList ++
        List.replicate ((d.ip + 1).toNat - d.machine.memory.size) 0 := by
  by_cases hip : 0 ≤ d.ip
  · refine ⟨(d.machine.look d.ip).memory, ?_, ?_⟩
    · rw [looked, Machine.glance_of_nonneg hip]
      rfl
    · rw [Machine.toList_look, Int.toNat_add hip (by decide)]
      rfl
  · have hnone : (d.ip + 1).toNat = 0 := by omega
    refine ⟨d.machine.memory, ?_, ?_⟩
    · rw [looked, Machine.glance_of_neg (Int.not_le.mp hip)]
    · rw [hnone, Nat.zero_sub, List.replicate_zero, List.append_nil]

/-- To render the screen grows the memory up to the current instruction and changes nothing else.
There is a screen exactly if its integers can be written, and then its window shows the cells. -/
theorem render_shows_window (d : Debugger) :
    (∃ memory : Memory, finalState (render d) = { d with machine := { d.machine with memory } } ∧
      memory.toList = d.machine.memory.toList ++
        List.replicate ((d.ip + 1).toNat - d.machine.memory.size) 0) ∧
    match render d with
    | .ok text _ => d.Showable ∧ ∃ first rows, readWindow? text = some rows ∧ d.IsWindow first rows
    | .error _ _ => ¬ d.Showable := by
  refine ⟨?_, ?_⟩
  · have hfinal : finalState (render d) = d.looked := look_eq_looked d .render
    rw [hfinal]
    exact memory_looked d
  · by_cases h : d.Showable
    · have hnumbers : ∀ v ∈ d.looked.windowNumbers, Numeral.Writable v := by
        intro v hv
        refine h.numbers v ?_
        rw [← numbers_looked]
        exact mem_numbers_of_window hv
      rw [render_of_showable h]
      exact ⟨h, d.windowStart, _, readWindow?_screenLines hnumbers rfl, isWindow_looked d⟩
    · obtain ⟨f, hf⟩ := render_of_not_showable h
      rw [hf]
      exact h

/-! ### A window out of sight -/

theorem words_move (v : Int) :
    (Text.words ("m " ++ Numeral.render v).toList).map String.ofList = ["m", Numeral.render v] := by
  have hlist : ("m " ++ Numeral.render v).toList = 'm' :: ' ' :: Numeral.digits v := by
    rw [String.toList_append, Numeral.render, String.toList_ofList, String.toList_ofList]
    rfl
  rw [hlist, words_letter rfl]

theorem viewOf?_move {v : Int} (h : Numeral.Writable v) :
    viewOf? ("m " ++ Numeral.render v) = some v.toNat := by
  have hparse : Numeral.parseLoose? (Numeral.render v).toList = some v := by
    rw [Numeral.render, String.toList_ofList, Numeral.parseLoose?_digits h]
  simp only [viewOf?, words_move, hparse, Option.map_some]

/-- The window is moved to the largest integer that can be written, and there is no screen. -/
theorem no_screen_out_of_sight :
    let far : Int := (Nat.pow 10 Numeral.digitLimit : Nat) - 1
    ∃ d, (∀ fuel, command fuel ("m " ++ Numeral.render far) (start (.load [99]) 0) = .ok true d) ∧
      d.view = some far.toNat ∧ ∃ f d', render d = .error f d' := by
  intro far
  have hfar : Numeral.Writable far ∧ ¬ InSight far.toNat := by
    -- the power is too large to be computed, so it only has a name
    obtain ⟨p, hp⟩ : ∃ p, Nat.pow 10 Numeral.digitLimit = p := ⟨_, rfl⟩
    have hpow : ∀ k, 0 < Nat.pow 10 k := fun _ => Nat.pow_pos (by decide)
    have hpos := hpow Numeral.digitLimit
    have hvalue : far = (p : Int) - 1 := by rw [← hp]
    rw [hp] at hpos
    rw [Numeral.Writable, InSight, hp, hvalue, rowCount, rowWidth]
    omega
  obtain ⟨-, hmoves⟩ := command_of_viewOf (viewOf?_move hfar.1)
  exact ⟨_, fun fuel => hmoves fuel _, rfl, render_of_lost rfl hfar.2⟩

end Debugger

end Intcode
