import Intcode.Proofs.ControlFlow
import Intcode.Proofs.ReportLine

/-! # What a trace tells

A session that is traced writes a line about each instruction that it has decoded, before it performs
it. Here these lines are told from a session that is not traced (`traceNotes`). The two run alike:
tracing puts the lines behind what has been written so far and changes nothing else, unless there is
an integer in them that cannot be written, which takes longer than any run can be. -/

namespace Intcode
open Word (InRange)

/-- What a trace line shows: where an instruction stands, the cell that it was decoded from, and the
base before it. -/
structure TraceNote where
  address : Int
  cell : Int
  instruction : Instruction
  base : Int
deriving DecidableEq, Repr

namespace TraceNote

def line (t : TraceNote) : String := Machine.traceLine t.address t.cell t.instruction t.base

def entry (t : TraceNote) : Entry := ⟨t.address, t.cell⟩

/-- The lines of some notes, one behind the other. -/
def text (ts : List TraceNote) : String := String.join (ts.map line)

/-- The line can be written. -/
def Writable (t : TraceNote) : Prop := ∀ v ∈ [t.address, t.cell, t.base], Numeral.Writable v

instance : DecidablePred Writable :=
  fun t => inferInstanceAs (Decidable (∀ v ∈ [t.address, t.cell, t.base], Numeral.Writable v))

def Bounded (N : Nat) (t : TraceNote) : Prop :=
  t.address.natAbs ≤ N ∧ t.cell.natAbs ≤ N ∧ t.base.natAbs ≤ N

variable {t : TraceNote} {ts us : List TraceNote} {N N' : Nat}

@[simp] theorem text_nil : text [] = "" := String.join_nil

theorem text_append : text (ts ++ us) = text ts ++ text us := by
  rw [text, List.map_append, String.join_append]
  rfl

theorem text_singleton : text [t] = t.line := by
  rw [text, List.map_singleton, String.join_cons, String.join_nil, String.append_empty]

theorem Bounded.mono (h : t.Bounded N) (hN : N ≤ N') : t.Bounded N' :=
  ⟨Nat.le_trans h.1 hN, Nat.le_trans h.2.1 hN, Nat.le_trans h.2.2 hN⟩

theorem Bounded.writable (h : t.Bounded N) (hN : N < Nat.pow 10 Numeral.digitLimit) :
    t.Writable := by
  intro v hv
  refine Nat.lt_of_le_of_lt ?_ hN
  simp only [List.mem_cons, List.not_mem_nil, or_false] at hv
  rcases hv with rfl | rfl | rfl
  · exact h.1
  · exact h.2.1
  · exact h.2.2

end TraceNote

namespace Text
variable {s t : String}

/-- Text on one line, with the line feed behind it. -/
def Line (s : String) : Prop := ∃ t, OneLine t ∧ s = t ++ "\n"

/-- Lines that are put together are told apart again. -/
theorem feedLines_join {lines : List String} (h : ∀ l ∈ lines, Line l) :
    feedLines (String.join lines).toList = lines.map String.toList := by
  induction lines with
  | nil => rfl
  | cons l lines ih =>
    obtain ⟨hl, hlines⟩ := List.forall_mem_cons.mp h
    obtain ⟨t, ht, rfl⟩ := hl
    have htext : (String.join ((t ++ "\n") :: lines)).toList =
        t.toList ++ '\n' :: (String.join lines).toList := by
      rw [String.join_cons, String.toList_append, String.toList_append, List.append_assoc]
      rfl
    rw [htext, feedLines_append_feed ht.noFeed, ih hlines, List.map_cons, String.toList_append]
    rfl

theorem oneLine_push {c : Char} (h : OneLine s) (hc : isFeed c = false) : OneLine (s.push c) := by
  refine ⟨fun d hd => ?_⟩
  rw [String.toList_push] at hd
  rcases List.mem_append.mp hd with hd | hd
  · exact h.noFeed d hd
  · rwa [List.mem_singleton.mp hd]

theorem oneLine_alignRight (width : Nat) (h : OneLine t) : OneLine (alignRight width t) := by
  refine oneLine_append.mpr ⟨?_, h⟩
  rw [String.pushn_eq_repeat_push]
  induction width - t.length with
  | zero => exact ⟨nofun⟩
  | succ n ih => exact oneLine_push ih rfl

end Text

open Text (OneLine oneLine_append)

theorem Operation.oneLine_mnemonic (o : Operation) : OneLine o.mnemonic := by
  cases o <;> exact Text.oneLine_literal rfl

theorem Mode.oneLine_label (m : Mode) : OneLine m.label := by
  cases m <;> exact Text.oneLine_literal rfl

theorem Machine.line_traceLine (a cell : Int) (i : Instruction) (base : Int) :
    Text.Line (traceLine a cell i base) := by
  have hcolumn : ∀ v, OneLine (Text.alignRight 6 (Numeral.render v)) :=
    fun v => Text.oneLine_alignRight 6 (Numeral.oneLine_render v)
  refine ⟨_, ?_, rfl⟩
  simp only [Instruction.modes, Instruction.mnemonic, List.map_cons, List.map_nil,
    String.intercalate_cons_cons, String.intercalate_singleton, oneLine_append, hcolumn,
    Operation.oneLine_mnemonic, Mode.oneLine_label, Numeral.oneLine_render, and_true, true_and]
  refine ⟨⟨⟨⟨⟨?_, ?_⟩, ?_⟩, ?_⟩, ?_, ?_⟩, ?_⟩ <;> exact Text.oneLine_literal rfl

namespace Machine
variable {a : Int} {m : Machine} {i : Instruction} {t : TraceNote}

/-- What is told of the instruction at `a`, if there is one. -/
def traceNote? (a : Int) (m : Machine) : Option TraceNote :=
  match m.decodeAt a with
  | .ok i => if 0 ≤ a then some ⟨a, m.memory.get a.toNat, i, m.base⟩ else none
  | .error _ => none

theorem traceNote?_of_decoded (ha : 0 ≤ a) (hi : m.decodeAt a = .ok i) :
    m.traceNote? a = some ⟨a, m.memory.get a.toNat, i, m.base⟩ := by
  simp only [traceNote?, hi, if_pos ha]

theorem traceNote?_eq_some_iff : m.traceNote? a = some t ↔
    0 ≤ a ∧ ∃ i, m.decodeAt a = .ok i ∧ t = ⟨a, m.memory.get a.toNat, i, m.base⟩ := by
  unfold traceNote?
  cases m.decodeAt a with
  | error f => simp
  | ok i => by_cases ha : 0 ≤ a <;> simp [ha, eq_comm]

/-- The instruction that is told of is the one that the cell decodes to. -/
theorem decode_of_traceNote? (h : m.traceNote? a = some t) :
    Instruction.decode t.address t.cell = .ok t.instruction := by
  obtain ⟨-, i, hi, rfl⟩ := traceNote?_eq_some_iff.mp h
  exact hi

end Machine

namespace Session
variable {σ α β : Type} {w : Wiring σ} {a : Int} {i : Instruction} {n k fuel : Nat} {log : String}
  {s s' : Session σ} {t : TraceNote}

theorem not_stands_iff : ¬ s.Stands a ↔ s.machine.traceNote? a = none := by
  rw [Option.eq_none_iff_forall_ne_some]
  constructor
  · rintro h t ht
    obtain ⟨ha, i, hi, -⟩ := Machine.traceNote?_eq_some_iff.mp ht
    exact h ⟨ha, i, hi⟩
  · rintro h ⟨ha, i, hi⟩
    exact h _ (Machine.traceNote?_of_decoded ha hi)

/-! ### The log does not take part -/

/-- The session with another text written so far. -/
def withLog (log : String) (s : Session σ) : Session σ := { s with log }

theorem simulates_onMachine_withLog (x : MachineM α) :
    Simulates (withLog (σ := σ) log) (onMachine x) (onMachine x) := by
  intro s
  simp only [onMachine, withLog]
  cases x s.machine <;> rfl

theorem simulates_onWorld_withLog (x : EStateM Fault σ α) :
    Simulates (withLog log) (onWorld x) (onWorld x) := by
  intro s
  simp only [onWorld, withLog]
  cases x s.world <;> rfl

/-- A step that is not traced neither reads the log nor writes to it. -/
theorem simulates_step_withLog (w : Wiring σ) (a : Int) :
    Simulates (withLog log) (step w false a) (step w false a) := by
  have hissue : Simulates (withLog log) (issue w false a) (issue w false a) := by
    rw [issue_eq_execute]
    refine (simulates_onMachine_withLog _).bind fun e => ?_
    cases e with
    | next b | halt | read t b => exact .ret _
    | write v b => exact (simulates_onWorld_withLog _).bind fun _ => .ret _
  refine hissue.bind fun p => ?_
  cases p with
  | running b | halted => exact .ret _
  | reading t b =>
    refine (simulates_onWorld_withLog _).bind fun v => ?_
    cases v with
    | none => exact .ret _
    | some v => exact (simulates_onMachine_withLog _).bind fun _ => .ret _

theorem simulates_run_withLog (w : Wiring σ) (fuel : Nat) (a : Int) :
    Simulates (withLog log) (run w false fuel a) (run w false fuel a) := by
  induction fuel generalizing a with
  | zero => exact .ret _
  | succ fuel ih =>
    refine (simulates_step_withLog w a).bind fun p => ?_
    cases p with
    | running b => exact ih b
    | reading t b | halted => exact .ret _

theorem log_of_run (w : Wiring σ) (fuel : Nat) (a : Int) (s : Session σ) :
    (finalState (run w false fuel a s)).log = s.log := by
  have hsame : viewResult (withLog s.log) (run w false fuel a s) = run w false fuel a s :=
    simulates_run_withLog w fuel a s
  rw [← hsame]
  cases run w false fuel a s <;> rfl

/-! ### One instruction -/

theorem bind_congr_left {x y : SessionM σ α} (h : x s = y s') (f : α → SessionM σ β) :
    (x >>= f) s = (y >>= f) s' := by
  change EStateM.bind x f s = EStateM.bind y f s'
  simp only [EStateM.bind, h]

theorem logWhen_note (h : t.base = s.machine.base) :
    logWhen true t.address t.cell t.instruction s =
      if t.Writable then .ok () (s.withLog (s.log ++ t.line)) else .error .unwritable s := by
  rw [logWhen, if_pos rfl, logLine, ← h]
  exact ite_congr rfl (fun _ => rfl) (fun _ => rfl)

theorem step_of_not_there (h : s.machine.traceNote? a = none) (w : Wiring σ) :
    step w true a s = step w false a s := by
  by_cases ha : a < 0
  · rw [step_of_neg ha, step_of_neg ha]
  have ha : 0 ≤ a := Int.not_lt.mp ha
  cases hd : s.machine.decodeAt a with
  | error f => rw [step_of_undecoded ha hd, step_of_undecoded ha hd]
  | ok i =>
    rw [Machine.traceNote?_of_decoded ha hd] at h
    cases h

/-- An instruction that is told of is told of before it is performed. -/
theorem issue_of_note (h : s.machine.traceNote? a = some t) (traced : Bool) :
    t.base = s.machine.base ∧ issue w traced a s =
      (logWhen traced t.address t.cell t.instruction >>= fun _ =>
        onMachine (Machine.perform a t.instruction) >>= conclude w)
      { s with machine := s.machine.enter a } := by
  obtain ⟨ha, i, hi, rfl⟩ := Machine.traceNote?_eq_some_iff.mp h
  exact ⟨rfl, issue_of_decoded ha hi traced⟩

/-- An instruction is performed as it is without tracing, once its line has been written. -/
theorem step_of_writable (h : s.machine.traceNote? a = some t) (ht : t.Writable) (w : Wiring σ) :
    step w true a s = step w false a (s.withLog (s.log ++ t.line)) := by
  have h' : (s.withLog (s.log ++ t.line)).machine.traceNote? a = some t := h
  obtain ⟨hbase, hissue⟩ := issue_of_note (w := w) h true
  obtain ⟨-, hissue'⟩ := issue_of_note (w := w) h' false
  let entered : Session σ := { s with machine := s.machine.enter a }
  have hlog := logWhen_note (s := entered) hbase
  rw [if_pos ht] at hlog
  refine bind_congr_left ?_ _
  rw [hissue, hissue']
  exact bind_congr_left hlog _

theorem step_of_unwritable (h : s.machine.traceNote? a = some t) (ht : ¬ t.Writable)
    (w : Wiring σ) :
    step w true a s = .error .unwritable { s with machine := s.machine.enter a } := by
  obtain ⟨hbase, hissue⟩ := issue_of_note (w := w) h true
  let entered : Session σ := { s with machine := s.machine.enter a }
  have hlog := logWhen_note (s := entered) hbase
  rw [if_neg ht] at hlog
  rw [bind_of_error hlog] at hissue
  rw [step, bind_of_error hissue]

/-- To trace an instruction puts its line, if it has one, behind what has been written before. -/
theorem step_traced (w : Wiring σ) (log : String)
    (h : ∀ t ∈ (s.machine.traceNote? a).toList, t.Writable) :
    step w true a (s.withLog log) =
      viewResult (withLog (log ++ TraceNote.text (s.machine.traceNote? a).toList))
        (step w false a s) := by
  rw [simulates_step_withLog w a s]
  cases hn : s.machine.traceNote? a with
  | none =>
    have hn' : (s.withLog log).machine.traceNote? a = none := hn
    rw [step_of_not_there hn', Option.toList_none, TraceNote.text_nil, String.append_empty]
  | some t =>
    have hn' : (s.withLog log).machine.traceNote? a = some t := hn
    have ht : t.Writable := h t (by rw [hn]; exact List.mem_cons_self)
    rw [step_of_writable hn' ht, Option.toList_some, TraceNote.text_singleton]
    rfl

/-- A trace line that cannot be written ends the instruction. -/
theorem step_unwritable (w : Wiring σ) (log : String)
    (h : ¬ ∀ t ∈ (s.machine.traceNote? a).toList, t.Writable) :
    ∃ s', step w true a (s.withLog log) = .error .unwritable s' := by
  cases hn : s.machine.traceNote? a with
  | none =>
    rw [hn] at h
    exact absurd (List.forall_mem_nil _) h
  | some t =>
    rw [hn, Option.toList_some, List.forall_mem_singleton] at h
    have hn' : (s.withLog log).machine.traceNote? a = some t := hn
    exact ⟨_, step_of_unwritable hn' h w⟩

/-! ### Runs -/

/-- Control goes on from an instruction or it does not. -/
theorem running_or_not (w : Wiring σ) (a : Int) (s : Session σ) :
    (∃ b s', step w false a s = .ok (.running b) s') ∨
      ∀ b s', step w false a s ≠ .ok (.running b) s' := by
  by_cases h : ∃ b s', step w false a s = .ok (.running b) s'
  · exact .inl h
  · exact .inr fun b s' hp => h ⟨b, s', hp⟩

/-- What a trace of a run tells, in order. -/
def traceNotes (w : Wiring σ) : Nat → Int → Session σ → List TraceNote
  | 0, _, _ => []
  | fuel + 1, a, s =>
    (s.machine.traceNote? a).toList ++
      match step w false a s with
      | .ok (.running b) s => traceNotes w fuel b s
      | _ => []

theorem traceNotes_of_running {b : Int} (h : step w false a s = .ok (.running b) s') (fuel : Nat) :
    traceNotes w (fuel + 1) a s =
      (s.machine.traceNote? a).toList ++ traceNotes w fuel b s' := by
  simp only [traceNotes, h]

theorem traceNotes_of_not_running (h : ∀ b s', step w false a s ≠ .ok (.running b) s')
    (fuel : Nat) : traceNotes w (fuel + 1) a s = (s.machine.traceNote? a).toList := by
  rw [traceNotes]
  cases hp : step w false a s with
  | error f s' => exact List.append_nil _
  | ok p s' =>
    cases p with
    | running b => exact absurd hp (h b s')
    | reading t b | halted => exact List.append_nil _

/-- An instruction that control goes on from has been told of. -/
theorem traceNote?_of_step {b : Int} (h : step w false a s = .ok (.running b) s') :
    ∃ t, s.machine.traceNote? a = some t := by
  cases hn : s.machine.traceNote? a with
  | some t => exact ⟨t, rfl⟩
  | none => exact absurd h ((step_of_not_stands (not_stands_iff.mpr hn) w false).1 _ _)

theorem trace_of_noted_step (w : Wiring σ) (a : Int) (s : Session σ) :
    (finalState (step w false a s)).machine.trace.toList =
      s.machine.trace.toList ++ (s.machine.traceNote? a).toList.map TraceNote.entry := by
  cases hn : s.machine.traceNote? a with
  | none =>
    rw [(step_of_not_stands (not_stands_iff.mpr hn) w false).2]
    exact (List.append_nil _).symm
  | some t =>
    obtain ⟨ha, i, hi, rfl⟩ := Machine.traceNote?_eq_some_iff.mp hn
    rw [trace_of_step ha hi, Array.toList_push]
    rfl

theorem ne_running_of_viewResult {view : Session σ → Session σ}
    {r : EStateM.Result Fault (Session σ) Progress} (h : ∀ b s', r ≠ .ok (.running b) s') (b : Int)
    (s' : Session σ) : viewResult view r ≠ .ok (.running b) s' := by
  cases r with
  | error f s₁ => exact nofun
  | ok p s₁ =>
    rintro ⟨⟩
    exact h b s₁ rfl

/-- To trace a run puts its lines behind what has been written before. -/
theorem run_traced (w : Wiring σ) (log : String)
    (h : ∀ t ∈ traceNotes w fuel a s, t.Writable) :
    run w true fuel a (s.withLog log) =
      viewResult (withLog (log ++ TraceNote.text (traceNotes w fuel a s)))
        (run w false fuel a s) := by
  -- what has been written before is arbitrary, so that the induction goes on behind each line
  induction fuel generalizing a s log with
  | zero =>
    rw [traceNotes, TraceNote.text_nil, String.append_empty]
    rfl
  | succ fuel ih =>
    rcases running_or_not w a s with ⟨b, s', hp⟩ | hp
    · rw [traceNotes_of_running hp] at h ⊢
      obtain ⟨hfirst, hrest⟩ := List.forall_mem_append.mp h
      have hstep := step_traced w log hfirst
      rw [hp] at hstep
      rw [run_of_running hp, run_of_running hstep, ih _ hrest, TraceNote.text_append,
        String.append_assoc]
    · rw [traceNotes_of_not_running hp] at h ⊢
      have hstep := step_traced w log h
      have hp' : ∀ b s', step w true a (s.withLog log) ≠ .ok (.running b) s' := by
        rw [hstep]
        exact ne_running_of_viewResult hp
      rw [run_of_not_running hp, run_of_not_running hp', hstep]

/-- A trace line that cannot be written ends the run. -/
theorem run_unwritable (w : Wiring σ) (log : String)
    (h : ¬ ∀ t ∈ traceNotes w fuel a s, t.Writable) :
    ∃ s', run w true fuel a (s.withLog log) = .error .unwritable s' := by
  induction fuel generalizing a s log with
  | zero => exact absurd (List.forall_mem_nil _) h
  | succ fuel ih =>
    by_cases hfirst : ∀ t ∈ (s.machine.traceNote? a).toList, t.Writable
    · rcases running_or_not w a s with ⟨b, s', hp⟩ | hp
      · rw [traceNotes_of_running hp, List.forall_mem_append] at h
        have hstep := step_traced w log hfirst
        rw [hp] at hstep
        rw [run_of_running hstep]
        exact ih _ fun hrest => h ⟨hfirst, hrest⟩
      · rw [traceNotes_of_not_running hp] at h
        exact absurd hfirst h
    · obtain ⟨s', hstep⟩ := step_unwritable w log hfirst
      exact ⟨s', by rw [run, bind_of_error hstep]⟩

/-- The `n`-th note is about the instruction that the run comes to after `n` others. -/
theorem traceNotes_getElem?_eq_some_iff : (traceNotes w fuel a s)[n]? = some t ↔
    n < fuel ∧ ∃ b s₁, run w false n a s = .ok (.running b) s₁ ∧
      s₁.machine.traceNote? b = some t := by
  induction fuel generalizing n a s with
  | zero => simp [traceNotes]
  | succ fuel ih =>
    rcases running_or_not w a s with ⟨b, s', hp⟩ | hp
    · obtain ⟨u, hu⟩ := traceNote?_of_step hp
      rw [traceNotes_of_running hp, hu, Option.toList_some, List.singleton_append]
      cases n with
      | zero =>
        rw [List.getElem?_cons_zero]
        constructor
        · intro h
          exact ⟨Nat.succ_pos fuel, a, s, rfl, hu.trans h⟩
        · rintro ⟨-, _, _, hr, h⟩
          cases hr
          exact hu.symm.trans h
      | succ n => rw [List.getElem?_cons_succ, ih, Nat.succ_lt_succ_iff, run_of_running hp]
    · rw [traceNotes_of_not_running hp]
      constructor
      · intro h
        cases hn : s.machine.traceNote? a with
        | none =>
          rw [hn] at h
          cases h
        | some u =>
          rw [hn] at h
          cases n with
          | zero => exact ⟨Nat.succ_pos fuel, a, s, rfl, hn.trans h⟩
          | succ n => cases h
      · rintro ⟨-, b, s₁, hr, h⟩
        obtain ⟨rfl, rfl, rfl⟩ := reached_of_not_running hp hr
        rw [h]
        rfl

theorem decode_of_mem_traceNotes (h : t ∈ traceNotes w fuel a s) :
    Instruction.decode t.address t.cell = .ok t.instruction := by
  obtain ⟨n, hn⟩ := List.mem_iff_getElem?.mp h
  obtain ⟨-, b, s₁, -, ht⟩ := traceNotes_getElem?_eq_some_iff.mp hn
  exact Machine.decode_of_traceNote? ht

/-- The entries that a run adds to the trace are those of its notes. -/
theorem trace_of_run (w : Wiring σ) (fuel : Nat) (a : Int) (s : Session σ) :
    (finalState (run w false fuel a s)).machine.trace.toList =
      s.machine.trace.toList ++ (traceNotes w fuel a s).map TraceNote.entry := by
  induction fuel generalizing a s with
  | zero => exact (List.append_nil _).symm
  | succ fuel ih =>
    have hfirst := trace_of_noted_step w a s
    rcases running_or_not w a s with ⟨b, s', hp⟩ | hp
    · rw [hp] at hfirst
      have hfirst : s'.machine.trace.toList = _ := hfirst
      rw [run_of_running hp, ih, hfirst, traceNotes_of_running hp, List.map_append,
        List.append_assoc]
    · rw [run_of_not_running hp, hfirst, traceNotes_of_not_running hp]

/-! ### Lines that can be written -/

theorem bounded_traceNote? (hs : s.machine.Settled k) (ha : a.natAbs ≤ horizon k) :
    ∀ t ∈ (s.machine.traceNote? a).toList, t.Bounded (horizon k) := by
  intro t ht
  obtain ⟨-, i, -, rfl⟩ := Machine.traceNote?_eq_some_iff.mp (Option.mem_toList.mp ht)
  have hcell : InRange (s.machine.memory.get a.toNat) := hs.within.get (by decide) a.toNat
  have hbase := hs.base
  exact ⟨ha, Nat.le_trans (natAbs_le_of_inRange hcell) (le_horizon k), by dsimp only; omega⟩

/-- What a run tells, and the fault that ends it, names nothing beyond the horizon of as many
instructions as it tells of. -/
theorem bounded_of_run {Good : σ → Prop} (hw : w.Tells Good) (hs : s.Settled Good k)
    (ha : a.natAbs + 4 ≤ horizon k) {N : Nat}
    (hN : horizon (k + (traceNotes w fuel a s).length + 1) ≤ N) :
    (∀ t ∈ traceNotes w fuel a s, t.Bounded N) ∧
      ∀ f s', run w false fuel a s = .error f s' → f.Expected N := by
  -- one more is counted than there are notes: the instruction that ends the run may have none
  induction fuel generalizing k a s with
  | zero => exact ⟨List.forall_mem_nil _, nofun⟩
  | succ fuel ih =>
    obtain ⟨hs', hY⟩ := settled_step hw false ha s hs
    have hfirst := bounded_traceNote? hs.machine (Nat.le_of_add_right_le ha)
    rcases running_or_not w a s with ⟨b, s', hp⟩ | hp
    · obtain ⟨t, ht⟩ := traceNote?_of_step hp
      rw [hp] at hs' hY
      obtain ⟨c, hc, hb⟩ := hY.resolve_left nofun
      cases hc
      rw [traceNotes_of_running hp, run_of_running hp]
      rw [traceNotes_of_running hp, ht, Option.toList_some, List.singleton_append,
        List.length_cons, ← Nat.add_assoc, Nat.add_right_comm] at hN
      obtain ⟨hrest, hfault⟩ := ih hs' hb (by rwa [Nat.add_right_comm k 1])
      refine ⟨List.forall_mem_append.mpr ⟨fun t ht => (hfirst t ht).mono ?_, hrest⟩, hfault⟩
      exact Nat.le_trans (horizon_mono (by omega)) hN
    · rw [traceNotes_of_not_running hp, run_of_not_running hp]
      rw [traceNotes_of_not_running hp] at hN
      refine ⟨fun t ht => (hfirst t ht).mono ?_, fun f s' h => ?_⟩
      · exact Nat.le_trans (horizon_mono (by omega)) hN
      · rw [h] at hY
        exact Fault.Expected.mono hY (Nat.le_trans (horizon_mono (by omega)) hN)

end Session

end Intcode
