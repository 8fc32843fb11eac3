import Intcode.Proofs.CompletedInstruction
import Intcode.Proofs.FailedStep

/-! # The trace follows the control

An instruction goes on to the one behind its cells, unless it is a jump whose condition holds or the
end of the program; how many cells it has is told by `Operation.length`. Each instruction that is
decoded makes one entry in the trace, however it ends. So the entries of a run are the stations of
its control, one behind the other, and only the last one can be an end. -/

namespace Intcode

/-- Where control goes from an instruction with this effect. -/
def Effect.next? : Effect → Option Int
  | next b | read _ b | write _ b => some b
  | halt => none

namespace Machine
variable {a b : Int} {m m' : Machine} {i : Instruction} {e : Effect} {event : Event}

/-- Where control goes from the instruction `i` at `a`: behind its cells, or if it is a jump whose
condition on its first operand holds, where its second operand says. From the end of the program it
goes nowhere. -/
def successor? (a : Int) (i : Instruction) (m : Machine) : Option Int :=
  match i.operation with
  | .jumpIfNonzero =>
    some (if m.operand i.first (a + 1) ≠ 0 then m.operand i.second (a + 2) else a + i.length)
  | .jumpIfZero =>
    some (if m.operand i.first (a + 1) = 0 then m.operand i.second (a + 2) else a + i.length)
  | .add | .multiply | .input | .output | .lessThan | .equals | .adjustBase => some (a + i.length)
  | .halt => none

theorem successor?_eq_none_iff : m.successor? a i = none ↔ i.operation = .halt := by
  unfold successor?
  cases i.operation <;> simp

theorem successor?_enter (a : Int) (i : Instruction) (m : Machine) :
    (m.enter a).successor? a i = m.successor? a i := by
  have hoperand : ∀ mode b, (m.enter a).operand mode b = m.operand mode b :=
    fun mode b => (grown_look a m).operand mode b
  simp only [successor?, hoperand]

/-- The lengths in the table are those by which instructions move on. -/
theorem Performs.successor (h : Performs a i m e m') : m.successor? a i = e.next? := by
  unfold successor? Instruction.length
  cases h with
  | combine hf =>
    cases hop : i.operation <;> simp [hop, Operation.result?] at hf <;> rfl
  | jump htest =>
    cases hop : i.operation <;> simp [hop, Operation.condition?] at htest <;> subst htest <;>
      simp [Machine.jump, Effect.next?, Operation.length]
  | read hop | write hop | adjust hop | halt hop => simp [hop, Operation.length, Effect.next?]

theorem Performs.trace (h : Performs a i m e m') : m'.trace = m.trace := by
  cases h with
  | combine _ hm | jump _ hm | read _ hm | write _ hm | adjust _ hm => exact hm.grown.trace
  | halt => rfl

/-- An effect with which control goes on is that of the instruction that it goes on from. -/
theorem successor_of_execute (h : execute a m = .ok e m') (hi : m.decodeAt a = .ok i) :
    m.successor? a i = e.next? := by
  obtain ⟨-, j, hj, hperforms⟩ := performs_of_execute h
  rw [hi] at hj
  cases hj
  rw [← successor?_enter, hperforms.successor]

theorem trace_of_execute (h : execute a m = .ok e m') :
    m'.trace = m.trace.push ⟨a, m.memory.get a.toNat⟩ := by
  obtain ⟨-, i, -, hperforms⟩ := performs_of_execute h
  exact hperforms.trace

theorem Moves.successor (h : m.Moves a event b m') (hi : m.decodeAt a = .ok i) :
    m.successor? a i = some b := by
  cases h with
  | next h | write h | read h => exact successor_of_execute h hi

theorem Moves.trace (h : m.Moves a event b m') :
    m'.trace = m.trace.push ⟨a, m.memory.get a.toNat⟩ := by
  cases h with
  | next h | write h => exact trace_of_execute h
  | read h hp =>
    obtain ⟨-, -, rfl⟩ := poke_ok hp
    have htrace := trace_of_execute h
    exact htrace

end Machine

namespace Session
variable {σ : Type} {w : Wiring σ} {traced : Bool} {a b : Int} {i : Instruction} {n fuel : Nat}
  {s s' s₁ : Session σ} {entries : List Entry}

/-! ### What a step enters -/

/-- An instruction that is decoded makes one entry, whatever becomes of it. -/
theorem trace_of_step (ha : 0 ≤ a) (hi : s.machine.decodeAt a = .ok i) :
    (finalState (step w traced a s)).machine.trace =
      s.machine.trace.push ⟨a, s.machine.memory.get a.toNat⟩ := by
  cases h : step w traced a s with
  | error f s' => exact (step_error ha hi h).grown.trace
  | ok p s' =>
    cases p with
    | running b =>
      obtain ⟨e, hmoves⟩ := moves_of_step h
      exact hmoves.trace
    | reading t b =>
      obtain ⟨-, j, m, hj, hm, rfl, -⟩ := step_waiting h
      exact (Machine.grown_of_perform_ok hm nofun).trace
    | halted => exact Machine.trace_of_execute (execute_of_halted_step h)

/-- There is an instruction at `a` to execute. -/
def Stands (a : Int) (s : Session σ) : Prop := 0 ≤ a ∧ ∃ i, s.machine.decodeAt a = .ok i

theorem step_of_not_stands (h : ¬ s.Stands a) (w : Wiring σ) (traced : Bool) :
    (∀ p s', step w traced a s ≠ .ok p s') ∧
      (finalState (step w traced a s)).machine.trace = s.machine.trace := by
  by_cases ha : a < 0
  · rw [step_of_neg ha]
    exact ⟨nofun, rfl⟩
  have ha : 0 ≤ a := Int.not_lt.mp ha
  cases hd : s.machine.decodeAt a with
  | error f =>
    rw [step_of_undecoded ha hd]
    exact ⟨nofun, rfl⟩
  | ok i => exact absurd ⟨ha, i, hd⟩ h

theorem successor_of_running_step (h : step w traced a s = .ok (.running b) s')
    (hi : s.machine.decodeAt a = .ok i) : s.machine.successor? a i = some b := by
  obtain ⟨e, hmoves⟩ := moves_of_step h
  exact hmoves.successor hi

/-! ### What a run enters -/

/-- The `n`-th entry is that of the instruction `i` at `b`, and the one behind it stands where
control goes from there. -/
structure Records (entries : List Entry) (n : Nat) (b : Int) (i : Instruction) (m : Machine) :
    Prop where
  entry : entries[n]? = some ⟨b, m.memory.get b.toNat⟩
  next : ∀ e, entries[n + 1]? = some e → m.successor? b i = some e.address
  last : i.operation = .halt → n + 1 = entries.length

/-- The entries that a run of at most `fuel` instructions from `a` on adds to the trace: one for each
instruction that is decoded, in their order. -/
structure Follows (w : Wiring σ) (traced : Bool) (fuel : Nat) (a : Int) (s : Session σ)
    (entries : List Entry) : Prop where
  trace : (finalState (run w traced fuel a s)).machine.trace.toList =
    s.machine.trace.toList ++ entries
  first : ∀ e, entries[0]? = some e → e.address = a
  count : ∀ n, n < entries.length ↔
    n < fuel ∧ ∃ b s₁, run w traced n a s = .ok (.running b) s₁ ∧ s₁.Stands b
  before : ∀ n b s₁, run w traced n a s = .ok (.running b) s₁ → n ≤ fuel →
    s₁.machine.trace.toList = s.machine.trace.toList ++ entries.take n
  station : ∀ n b s₁ i, n < fuel → run w traced n a s = .ok (.running b) s₁ → 0 ≤ b →
    s₁.machine.decodeAt b = .ok i → Records entries n b i s₁.machine

theorem run_of_running (h : step w traced a s = .ok (.running b) s') (n : Nat) :
    run w traced (n + 1) a s = run w traced n b s' := by
  rw [run, bind_of_ok h]

theorem run_of_not_running (h : ∀ b s', step w traced a s ≠ .ok (.running b) s') (n : Nat) :
    run w traced (n + 1) a s = step w traced a s := by
  cases hp : step w traced a s with
  | error f s' => rw [run, bind_of_error hp]
  | ok p s' =>
    rw [run, bind_of_ok hp]
    cases p with
    | running b => exact absurd hp (h b s')
    | reading t b | halted => rfl

/-- A run that does not go on from its first instruction reaches no other one. -/
theorem reached_of_not_running (h : ∀ b s', step w traced a s ≠ .ok (.running b) s')
    (hr : run w traced n a s = .ok (.running b) s₁) : n = 0 ∧ b = a ∧ s₁ = s := by
  cases n with
  | zero =>
    cases hr
    exact ⟨rfl, rfl, rfl⟩
  | succ n =>
    rw [run_of_not_running h] at hr
    exact absurd hr (h b s₁)

theorem follows_zero (w : Wiring σ) (traced : Bool) (a : Int) (s : Session σ) :
    Follows w traced 0 a s [] := by
  refine ⟨(List.append_nil _).symm, nofun, fun n => by simp, fun n b s₁ hr hn => ?_,
    fun n b s₁ i hn => absurd hn (Nat.not_lt_zero n)⟩
  obtain rfl := Nat.le_zero.mp hn
  cases hr
  exact (List.append_nil _).symm

/-- Nothing is entered where there is no instruction. -/
theorem follows_nil (h : ¬ s.Stands a) (w : Wiring σ) (traced : Bool) (fuel : Nat) :
    Follows w traced (fuel + 1) a s [] := by
  obtain ⟨hno, htrace⟩ := step_of_not_stands h w traced
  have hrunning : ∀ b s', step w traced a s ≠ .ok (.running b) s' := fun b => hno (.running b)
  refine ⟨?_, nofun, fun n => ?_, fun n b s₁ hr _ => ?_, fun n b s₁ i _ hr hb hi => ?_⟩
  · rw [run_of_not_running hrunning, htrace, List.append_nil]
  · refine iff_of_false (Nat.not_lt_zero n) ?_
    rintro ⟨-, b, s₁, hr, hs⟩
    obtain ⟨rfl, rfl, rfl⟩ := reached_of_not_running hrunning hr
    exact h hs
  · obtain ⟨rfl, rfl, rfl⟩ := reached_of_not_running hrunning hr
    exact (List.append_nil _).symm
  · obtain ⟨rfl, rfl, rfl⟩ := reached_of_not_running hrunning hr
    exact absurd ⟨hb, i, hi⟩ h

/-- One entry is made of an instruction that control does not go on from. -/
theorem follows_last (h : s.Stands a) (hrunning : ∀ b s', step w traced a s ≠ .ok (.running b) s')
    (fuel : Nat) :
    Follows w traced (fuel + 1) a s [⟨a, s.machine.memory.get a.toNat⟩] := by
  obtain ⟨ha, i, hi⟩ := id h
  refine ⟨?_, by simp, fun n => ⟨fun hn => ?_, ?_⟩, fun n b s₁ hr _ => ?_,
    fun n b s₁ j _ hr _ _ => ?_⟩
  · rw [run_of_not_running hrunning, trace_of_step ha hi, Array.toList_push]
  · obtain rfl : n = 0 := Nat.lt_one_iff.mp hn
    exact ⟨Nat.succ_pos fuel, a, s, rfl, h⟩
  · rintro ⟨-, b, s₁, hr, -⟩
    obtain ⟨rfl, -, -⟩ := reached_of_not_running hrunning hr
    exact Nat.one_pos
  · obtain ⟨rfl, rfl, rfl⟩ := reached_of_not_running hrunning hr
    exact (List.append_nil _).symm
  · obtain ⟨rfl, rfl, rfl⟩ := reached_of_not_running hrunning hr
    exact ⟨rfl, nofun, fun _ => rfl⟩

theorem Records.cons {m : Machine} (h : Records entries n b i m) (e : Entry) :
    Records (e :: entries) (n + 1) b i m :=
  ⟨h.entry, h.next, fun hop => congrArg (· + 1) (h.last hop)⟩

/-- The entry of an instruction that control goes on from comes before those of the rest. -/
theorem Follows.cons (h : Follows w traced fuel b s' entries) (hs : s.Stands a)
    (hstep : step w traced a s = .ok (.running b) s') :
    Follows w traced (fuel + 1) a s (⟨a, s.machine.memory.get a.toNat⟩ :: entries) := by
  obtain ⟨ha, i, hi⟩ := id hs
  have htrace : s'.machine.trace.toList =
      s.machine.trace.toList ++ [⟨a, s.machine.memory.get a.toNat⟩] := by
    have hpush : (finalState (step w traced a s)).machine.trace =
        s.machine.trace.push ⟨a, s.machine.memory.get a.toNat⟩ := trace_of_step ha hi
    rw [hstep] at hpush
    rw [← Array.toList_push, ← hpush]
    rfl
  have hnext := successor_of_running_step hstep hi
  refine ⟨?_, by simp, fun n => ?_, fun n c s₁ hr hn => ?_, fun n c s₁ j hn hr hc hj => ?_⟩
  · rw [run_of_running hstep, h.trace, htrace, List.append_assoc, List.singleton_append]
  · cases n with
    | zero => simpa using ⟨a, s, rfl, hs⟩
    | succ n =>
      rw [List.length_cons, Nat.succ_lt_succ_iff, h.count, Nat.succ_lt_succ_iff,
        run_of_running hstep]
  · cases n with
    | zero =>
      cases hr
      exact (List.append_nil _).symm
    | succ n =>
      rw [run_of_running hstep] at hr
      rw [h.before n c s₁ hr (Nat.le_of_succ_le_succ hn), htrace, List.append_assoc,
        List.singleton_append, List.take_succ_cons]
  · cases n with
    | zero =>
      cases hr
      rw [hi] at hj
      cases hj
      refine ⟨rfl, fun e he => ?_, fun hop => ?_⟩
      · rw [hnext, h.first e he]
      · rw [Machine.successor?_eq_none_iff.mpr hop] at hnext
        cases hnext
    | succ n =>
      rw [run_of_running hstep] at hr
      exact (h.station n c s₁ j (Nat.lt_of_succ_lt_succ hn) hr hc hj).cons _

/-- The entries that a run adds to the trace, however it ends, are the stations of its control: the
first one is that of the start, each holds the cell that stood there at that moment, and the one
behind it stands where the instruction of that cell leads. -/
theorem trace_follows_control (w : Wiring σ) (traced : Bool) (fuel : Nat) (a : Int)
    (s : Session σ) : ∃ entries, Follows w traced fuel a s entries := by
  induction fuel generalizing a s with
  | zero => exact ⟨[], follows_zero w traced a s⟩
  | succ fuel ih =>
    by_cases hs : s.Stands a
    · by_cases hstep : ∃ b s', step w traced a s = .ok (.running b) s'
      · obtain ⟨b, s', hstep⟩ := hstep
        obtain ⟨entries, h⟩ := ih b s'
        exact ⟨_, h.cons hs hstep⟩
      · exact ⟨_, follows_last hs (fun b s' h => hstep ⟨b, s', h⟩) fuel⟩
    · exact ⟨[], follows_nil hs w traced fuel⟩

/-- A program that jumps behind its first instruction and writes the end that it then comes to. -/
example :
    let s : Session Devices :=
      { machine := .load [1106, 0, 4, 0, 1101, 99, 0, 8, 0], world := {} }
    (finalState (run Devices.wiring false 5 0 s)).machine.trace.toList =
      [⟨0, 1106⟩, ⟨4, 1101⟩, ⟨8, 99⟩] := by
  rfl

end Session

end Intcode
