import Intcode.Proofs.MemoryDump
import Intcode.Proofs.StreamTraffic
import Intcode.Proofs.TraceLines

/-! # The flags of a run

A run can be traced, and it can print the memory at its end. Neither takes part in it: with every
choice of the flags a program comes to the same end, with the same status. What it has printed by
then is spelled by its exchanges, one instruction behind the other. Tracing puts its lines on the
error stream, in front of what is told there of a failure; printing puts the dump behind the output
of a program that halts. -/

namespace Intcode
open Word (InRange)

/-! ### What is printed by a run -/

namespace Devices
variable {text : String} {d : Devices} {v : Int}

/-- A reader, and a writer that never fails and has been given this text. -/
structure Shows (text : String) (d : Devices) : Prop where
  input : ∃ stream, d.input = .reader stream
  output : ∃ w : Writer, d.output = .writer w ∧ w.Unfailing ∧ w.written = text

theorem Shows.standardOutput (h : d.Shows text) :
    (CommandLine.standardOutput d).Unfailing ∧ CommandLine.written d = text := by
  obtain ⟨w, hw, hunfailing, htext⟩ := h.output
  simp only [CommandLine.written, CommandLine.standardOutput, hw]
  exact ⟨hunfailing, htext⟩

/-- Whatever is put on the writer arrives. -/
theorem shows_onWriter {fault : String → Fault} {w : Writer} {more : String}
    (hd : d.Shows text) (hw : d.output = .writer w) :
    ∃ d', onWriter more fault w d = .ok () d' ∧ d'.Shows (text ++ more) := by
  obtain ⟨w', hw', hunfailing, htext⟩ := hd.output
  cases hw'.symm.trans hw
  obtain ⟨w'', hput, hunfailing, hwritten⟩ := Writer.put_of_unfailing hunfailing more
  refine ⟨{ d with output := .writer w'' }, ?_, hd.input, w'', rfl, hunfailing, ?_⟩
  · simp only [onWriter, hput]
  · rw [hwritten, htext]

theorem leads_prompt :
    Leads (Shows text) (Shows (text ++ promptText)) (fun _ => True) (fun _ => True) prompt := by
  intro d hd
  obtain ⟨w, hw, -⟩ := hd.output
  obtain ⟨d', hput, hd'⟩ := shows_onWriter hd hw
  rw [prompt_of_writer hw, hput]
  exact ⟨hd', trivial⟩

/-- There is one prompt for a line, whatever the line is. -/
theorem leads_read :
    Leads (Shows text) (Shows (text ++ promptText)) (fun v => ∀ u ∈ v, InRange u)
      (fun _ => True) read := by
  intro d hd
  obtain ⟨stream, hstream⟩ := hd.input
  rw [read_of_reader hstream]
  have hline : Ensures (Shows (text ++ promptText)) (fun v => ∀ u ∈ v, InRange u) (fun _ => True)
      (readLine stream >>= fun v => pure (some v)) := by
    refine (ensures_readLine (fun d rest hd => ⟨⟨rest, rfl⟩, hd.output⟩) stream).bind fun v hv => ?_
    refine .ret ?_
    rintro u ⟨⟩
    exact hv
  exact leads_prompt.bind (fun _ => id) (fun _ _ => hline.leads fun _ => id) d hd

theorem leads_write (hv : InRange v) :
    Leads (Shows text) (Shows (text ++ String.ofList (Numeral.line v))) (fun _ => True)
      (fun _ => False) (write v) := by
  intro d hd
  obtain ⟨w, hw, -⟩ := hd.output
  obtain ⟨d', hput, hd'⟩ := shows_onWriter hd hw
  rw [write, get_bind, hw]
  dsimp only
  rw [if_pos (Numeral.writable_of_inRange hv), ← Numeral.ofList_line, hput]
  exact ⟨hd', trivial⟩

end Devices

namespace Session
open Devices (wiring)
variable {σ α : Type} {w : Wiring σ} {a b t : Int} {fuel : Nat} {text : String}
  {s s' : Session Devices}

theorem leads_onWorld {P P' : σ → Prop} {Q : α → Prop} {E : Fault → Prop}
    {x : EStateM Fault σ α} (h : Leads P P' Q E x) :
    Leads (Within P) (Within P') Q E (onWorld x) := by
  rintro s ⟨hm, hworld⟩
  obtain ⟨hworld', hY⟩ := h s.world hworld
  rw [onWorld_eq]
  cases hx : x s.world with
  | ok r world | error f world =>
    rw [hx] at hworld' hY
    exact ⟨⟨hm, hworld'⟩, hY⟩

/-- To complete a read prints a prompt, also if it fails. -/
theorem leads_complete (t b : Int) :
    Leads (Within (Devices.Shows text)) (Within (Devices.Shows (text ++ Devices.promptText)))
      (fun _ => True) (fun _ => True) (complete wiring t b) := by
  refine Leads.bind (leads_onWorld Devices.leads_read) (fun _ => id) fun v hv => ?_
  cases v with
  | none => exact Ensures.leads (.ret trivial) fun _ => id
  | some v =>
    have hpoke := Machine.ensures_poke (fun _ h => h) (hv v rfl) t
    exact ((ensures_onMachine hpoke).bind fun _ _ => .ret trivial).leads fun _ => id

/-- An instruction prints its exchange. -/
theorem shows_step (h : s.Within (Devices.Shows text)) (a : Int) :
    (finalState (step wiring false a s)).Within
      (Devices.Shows (text ++ Exchange.spelling (s.machine.exchanges a))) := by
  have hexecute := Machine.ensures_execute (fun _ h => h) a
  have hsilent : text ++ Exchange.spelling [] = text := String.append_empty
  cases he : Machine.execute a s.machine with
  | error f m =>
    rw [step_of_error he, Machine.exchanges_of_error he, hsilent]
    exact ⟨(hexecute.of_error h.1 he).1, h.2⟩
  | ok e m =>
    obtain ⟨hm, hv⟩ := hexecute.of_ok h.1 he
    rw [Machine.exchanges_of_ok he]
    cases e with
    | next b =>
      rw [step_of_next he, Effect.exchanges, hsilent]
      exact ⟨hm, h.2⟩
    | halt =>
      rw [step_of_halt he, Effect.exchanges, hsilent]
      exact ⟨hm, h.2⟩
    | read t b =>
      have hissued : Within (Devices.Shows text) { s with machine := m } := ⟨hm, h.2⟩
      rw [step_of_reading (issue_of_read he)]
      exact (leads_complete t b _ hissued).1
    | write v b =>
      obtain ⟨u, d, hw, hd, -⟩ := (Devices.leads_write hv).succeeds h.2
      have hw : wiring.write v s.world = .ok () d := hw
      rw [step_of_write he hw, Effect.exchanges, Exchange.spelling_told]
      exact ⟨hm, hd⟩

theorem exchanges_of_running {s s' : Session σ} (h : step w false a s = .ok (.running b) s')
    (fuel : Nat) :
    exchanges w (fuel + 1) a s = s.machine.exchanges a ++ exchanges w fuel b s' := by
  simp only [exchanges, h]

theorem exchanges_of_not_running {s : Session σ}
    (h : ∀ b s', step w false a s ≠ .ok (.running b) s') (fuel : Nat) :
    exchanges w (fuel + 1) a s = s.machine.exchanges a := by
  rw [exchanges]
  cases hp : step w false a s with
  | error f s' => exact List.append_nil _
  | ok p s' =>
    cases p with
    | running b => exact absurd hp (h b s')
    | reading t b | halted => exact List.append_nil _

/-- A run prints its exchanges, one behind the other, up to where it ends. -/
theorem shows_run (h : s.Within (Devices.Shows text)) (fuel : Nat) (a : Int) :
    (finalState (run wiring false fuel a s)).Within
      (Devices.Shows (text ++ Exchange.spelling (exchanges wiring fuel a s))) := by
  induction fuel generalizing a s text with
  | zero =>
    rw [exchanges, show text ++ Exchange.spelling [] = text from String.append_empty]
    exact h
  | succ fuel ih =>
    have hfirst := shows_step h a
    rcases running_or_not wiring a s with ⟨b, s', hp⟩ | hp
    · rw [hp] at hfirst
      rw [run_of_running hp, exchanges_of_running hp, Exchange.spelling_append,
        ← String.append_assoc]
      exact ih hfirst b
    · rw [run_of_not_running hp, exchanges_of_not_running hp]
      exact hfirst

end Session

/-! ### Runs on the standard streams -/

namespace CommandLine

/-- How a program comes to its end. -/
inductive Ending
  | halted
  | failed (f : Fault)
deriving DecidableEq, Repr

namespace Ending

def result (s : Session Devices) : Ending → EStateM.Result Fault (Session Devices) Progress
  | halted => .ok .halted s
  | failed f => .error f s

def status : Ending → Nat
  | halted => 0
  | failed _ => 1

/-- What is told of the end on the error stream. -/
def report : Ending → List String
  | halted => []
  | failed f => [errorLine f.message]

/-- What is printed of the memory, if that is asked for. -/
def dump (m : Machine) : Ending → String
  | halted => m.dump ++ "\n"
  | failed _ => ""

def Tellable : Ending → Prop
  | halted => True
  | failed f => f.Tellable

variable {ending : Ending} {s : Session Devices}

@[simp] theorem finalState_result : finalState (ending.result s) = s := by
  cases ending <;> rfl

theorem viewResult_result (view : Session Devices → Session Devices) :
    viewResult view (ending.result s) = ending.result (view s) := by
  cases ending <;> rfl

end Ending

section
variable (fuel : Nat) (stream : Stream) (machine : Machine)

/-- A program on the standard streams, before its first instruction. -/
def started : Session Devices := { machine, world := devices stream }

/-- What a run tells if it is traced. -/
def notes : List TraceNote :=
  Session.traceNotes Devices.wiring fuel 0 (started stream machine)

/-- The prompts and the values that a run prints, up to the instruction that ends it. -/
def output : String :=
  Exchange.spelling (Session.exchanges Devices.wiring fuel 0 (started stream machine))

/-- The lines on the error stream of a run with this end. -/
def errors (trace : Bool) (ending : Ending) : List String :=
  (if trace then (notes fuel stream machine).map TraceNote.line else []) ++ ending.report

/-- All that a run has to tell can be written. -/
structure Told (trace : Bool) (ending : Ending) : Prop where
  lines : trace = true → ∀ t ∈ notes fuel stream machine, t.Writable
  report : ending.Tellable

/-- What a run that ends in the session `s` comes to, for all flags at once. Its notes are those of
the entries in its trace, each with what there was before the instruction. A run with something to
tell that cannot be written is aborted, but no list is as long as the trace of such a run. -/
structure Account (ending : Ending) (s : Session Devices) : Prop where
  result : Session.run Devices.wiring false fuel 0 (started stream machine) = ending.result s
  traced : Told fuel stream machine true ending →
    Session.run Devices.wiring true fuel 0 (started stream machine) =
      ending.result { s with log := TraceNote.text (notes fuel stream machine) }
  entries : (notes fuel stream machine).map TraceNote.entry = s.machine.trace.toList
  shown : ∀ n t, (notes fuel stream machine)[n]? = some t ↔ n < fuel ∧ ∃ b s₁,
    Session.run Devices.wiring false n 0 (started stream machine) = .ok (.running b) s₁ ∧
      s₁.machine.traceNote? b = some t
  decoded : ∀ t ∈ notes fuel stream machine,
    Instruction.decode t.address t.cell = .ok t.instruction
  outcome : ∀ trace print, Told fuel stream machine trace ending →
    runProgram fuel trace print stream machine = .finished ending.status
      (output fuel stream machine ++ if print then ending.dump s.machine else "")
      (String.join (errors fuel stream machine trace ending))
  lines : ∀ trace, Text.feedLines (String.join (errors fuel stream machine trace ending)).toList =
    (errors fuel stream machine trace ending).map String.toList
  aborted : ∀ trace print, ¬ Told fuel stream machine trace ending →
    runProgram fuel trace print stream machine = .aborted .unwritable
  told : s.machine.trace.size < Nat.pow 10 4200 → ∀ trace, Told fuel stream machine trace ending

end

variable {fuel : Nat} {trace print : Bool} {stream : Stream} {machine : Machine} {image : List Int}
  {file : String} {content : Except OpenFault ByteArray} {ending : Ending} {s : Session Devices}

theorem Ending.holdsOut (ending : Ending) (h : (standardOutput s.world).Unfailing) (print : Bool) :
    HoldsOut print (ending.result s) := by
  cases ending with
  | halted => exact fun _ => Writer.writes_of_unlimited h.unlimited 2
  | failed f => exact Writer.flushes_of_unfaulted h.unfaulted 1

theorem runProgram_of_result
    (h : Session.run Devices.wiring trace fuel 0 (started stream machine) = ending.result s)
    (ht : ending.Tellable) (hs : (standardOutput s.world).Unfailing) :
    runProgram fuel trace print stream machine =
      .finished ending.status (written s.world ++ if print then ending.dump s.machine else "")
        (s.log ++ String.join ending.report) := by
  have hout := ending.holdsOut hs print
  cases ending with
  | halted =>
    rw [runProgram_of_halted h hout, Ending.report, String.join_nil, String.append_empty]
    rfl
  | failed f =>
    rw [runProgram_of_error h ht hout, Ending.report, Ending.dump, String.join_cons,
      String.join_nil, String.append_empty, ite_self, String.append_empty]
    rfl

theorem runProgram_of_untold
    (h : Session.run Devices.wiring trace fuel 0 (started stream machine) = ending.result s)
    (ht : ¬ ending.Tellable) : runProgram fuel trace print stream machine = .aborted .unwritable := by
  cases ending with
  | halted => exact absurd trivial ht
  | failed f => exact runProgram_of_untellable h ht

/-- A run that is over has come to an end. -/
theorem exists_ending (h : runProgram fuel trace print stream machine ≠ .unfinished) :
    ∃ ending s, Session.run Devices.wiring trace fuel 0 (started stream machine) =
      Ending.result s ending := by
  cases hr : Session.run Devices.wiring trace fuel 0 (started stream machine) with
  | error f s => exact ⟨.failed f, s, rfl⟩
  | ok p s =>
    cases p with
    | halted => exact ⟨.halted, s, rfl⟩
    | running a | reading t b =>
      rw [started] at hr
      refine absurd ?_ h
      simp only [runProgram, hr]

theorem line_errorLine {message : String} (h : Text.OneLine message) :
    Text.Line (errorLine message) :=
  ⟨_, Text.oneLine_append.mpr ⟨Text.oneLine_literal rfl, h⟩, rfl⟩

section
variable
  (h : Session.run Devices.wiring false fuel 0 (started stream machine) = ending.result s)
include h

theorem log_of_result : s.log = "" := by
  have hlog := Session.log_of_run Devices.wiring fuel 0 (started stream machine)
  rwa [h, Ending.finalState_result] at hlog

theorem entries_of_result (hnew : machine.trace = #[]) :
    (notes fuel stream machine).map TraceNote.entry = s.machine.trace.toList := by
  have htrace := Session.trace_of_run Devices.wiring fuel 0 (started stream machine)
  rw [h, Ending.finalState_result, started, hnew] at htrace
  exact htrace.symm

theorem shows_of_result (hmachine : machine.Within InRange) :
    s.world.Shows (output fuel stream machine) := by
  have hfirst : (started stream machine).Within (Devices.Shows "") :=
    ⟨hmachine, ⟨stream, rfl⟩, {}, rfl, ⟨rfl, rfl⟩, rfl⟩
  have hshows := (Session.shows_run hfirst fuel 0).2
  rwa [h, Ending.finalState_result, String.empty_append] at hshows

theorem traced_of_result (hlines : ∀ t ∈ notes fuel stream machine, t.Writable) :
    Session.run Devices.wiring true fuel 0 (started stream machine) =
      ending.result { s with log := TraceNote.text (notes fuel stream machine) } := by
  have hrun := Session.run_traced Devices.wiring "" hlines
  rwa [String.empty_append, h, Ending.viewResult_result] at hrun

theorem outcome_of_result (hmachine : machine.Within InRange)
    (htold : Told fuel stream machine trace ending) (print : Bool) :
    runProgram fuel trace print stream machine = .finished ending.status
      (output fuel stream machine ++ if print then ending.dump s.machine else "")
      (String.join (errors fuel stream machine trace ending)) := by
  obtain ⟨hunfailing, hwritten⟩ := (shows_of_result h hmachine).standardOutput
  rw [← hwritten, errors, String.join_append]
  cases trace with
  | false =>
    rw [runProgram_of_result h htold.report hunfailing, log_of_result h]
    rfl
  | true =>
    rw [runProgram_of_result (traced_of_result h (htold.lines rfl)) htold.report hunfailing]
    rfl

theorem aborted_of_result (hnot : ¬ Told fuel stream machine trace ending) (print : Bool) :
    runProgram fuel trace print stream machine = .aborted .unwritable := by
  cases trace with
  | false => exact runProgram_of_untold h fun hreport => hnot ⟨nofun, hreport⟩
  | true =>
    by_cases hlines : ∀ t ∈ notes fuel stream machine, t.Writable
    · exact runProgram_of_untold (traced_of_result h hlines)
        fun hreport => hnot ⟨fun _ => hlines, hreport⟩
    · -- the run is not over where `ending` is, but at the first line that cannot be written
      obtain ⟨s', hrun⟩ := Session.run_unwritable Devices.wiring "" hlines
      have hend : Session.run Devices.wiring true fuel 0 (started stream machine) =
          Ending.result s' (.failed .unwritable) := hrun
      exact runProgram_of_untold hend fun hreport => hreport.1 rfl

section
variable (hmachine : machine.Settled 0) (hstream : stream.Plain)
include hmachine hstream

/-- Nothing that a run has to tell is larger than the number of its notes lets it be. -/
theorem bounded_of_result :
    (∀ t ∈ notes fuel stream machine,
        t.Bounded (horizon ((notes fuel stream machine).length + 1))) ∧
      ∀ f, ending = .failed f →
        f.Expected (horizon ((notes fuel stream machine).length + 1)) := by
  have hsettled : (started stream machine).Settled Devices.Standard 0 :=
    ⟨hmachine, ⟨⟨stream, rfl, hstream⟩, {}, rfl, ⟨nofun⟩, nofun⟩, .inl rfl⟩
  have hstart : (0 : Int).natAbs + 4 ≤ horizon 0 := by decide
  have hlast : horizon (0 + (notes fuel stream machine).length + 1) ≤
      horizon ((notes fuel stream machine).length + 1) := horizon_mono (by omega)
  obtain ⟨hnotes, hfault⟩ := Session.bounded_of_run Devices.tells hsettled hstart hlast
  refine ⟨hnotes, ?_⟩
  rintro f rfl
  exact hfault f s h

theorem told_of_result (hnew : machine.trace = #[])
    (hsize : s.machine.trace.size < Nat.pow 10 4200) (trace : Bool) :
    Told fuel stream machine trace ending := by
  obtain ⟨hnotes, hfault⟩ := bounded_of_result h hmachine hstream
  rw [← Array.length_toList, ← entries_of_result h hnew, List.length_map] at hsize
  have hlimit := (Debugger.inSight_of_le hsize).lt
  refine ⟨fun _ t ht => (hnotes t ht).writable hlimit, ?_⟩
  cases ending with
  | halted => trivial
  | failed f => exact (hfault f rfl).2 hlimit

theorem lines_of_result (trace : Bool) :
    Text.feedLines (String.join (errors fuel stream machine trace ending)).toList =
      (errors fuel stream machine trace ending).map String.toList := by
  refine Text.feedLines_join fun l hl => ?_
  rcases List.mem_append.mp hl with hl | hl
  · split at hl
    · obtain ⟨t, -, rfl⟩ := List.mem_map.mp hl
      exact Machine.line_traceLine ..
    · cases hl
  · cases ending with
    | halted => cases hl
    | failed f =>
      rw [List.mem_singleton.mp hl]
      exact line_errorLine (Fault.oneLine_message ((bounded_of_result h hmachine hstream).2 f rfl).1)

end

end

/-- The flags of a run spare its execution. A program that is loaded and comes to its end, on any
standard input, does so with every choice of the flags, with the same status. What it prints by itself
are its prompts and values, up to the instruction that ends it; printing puts the dump behind that if
the program halts, and nothing if it fails. Tracing puts one line for each entry of the trace on the
error stream, in the same order, in front of the line about a failure. -/
theorem flags_spare_execution (hload : loadFile file content = .ok machine)
    (hstream : stream.Plain)
    (hends : runProgram fuel false false stream machine ≠ .unfinished) :
    (∃ ending s, Account fuel stream machine ending s) ∧
      ∀ (openFile : String → Except OpenFault ByteArray) (stdin : Stdin) (args : List String)
        (trace print : Bool),
        openFile file = content → stdin.reader = stream →
        parse args = .ok (.run file trace print) →
        execute fuel openFile stdin args = runProgram fuel trace print stream machine := by
  constructor
  · let openFile : String → Except OpenFault ByteArray := fun _ => content
    have hfile : loadFile file (openFile file) = .ok machine := hload
    obtain ⟨image, hloads, rfl⟩ := loads_of_loadFile hfile
    have hmachine := Machine.settled_load hloads.inRange
    obtain ⟨ending, s, h⟩ := exists_ending hends
    exact ⟨ending, s, {
      result := h
      traced := fun htold => traced_of_result h (htold.lines rfl)
      entries := entries_of_result h rfl
      shown := fun _ _ => Session.traceNotes_getElem?_eq_some_iff
      decoded := fun _ => Session.decode_of_mem_traceNotes
      outcome := fun _ print htold => outcome_of_result h hmachine.within htold print
      lines := lines_of_result h hmachine hstream
      aborted := fun _ print hnot => aborted_of_result h hnot print
      told := told_of_result h hmachine hstream rfl }⟩
  · rintro openFile stdin args trace print rfl rfl hargs
    rw [execute_of_parse hargs]
    simp only [Request.perform, hload]

/-- A program that writes a value and then asks for one that is not there. -/
theorem flags_spare_execution_starved :
    let content : Except OpenFault ByteArray := .ok "104,7,3,0,99".toUTF8
    let machine : Machine := .load [104, 7, 3, 0, 99]
    let stream := Streams.bytes.reader ""
    loadFile "prog.int" content = .ok machine ∧
      runProgram 2 false false stream machine =
        .finished 1 "7\n?" "Error: Input: end of input\n" ∧
      (∃ ending s, Account 2 stream machine ending s) ∧
      execute 2 (fun _ => content) (Streams.bytes.stdin "") ["run", "-t", "-p", "prog.int"] =
        .finished 1 "7\n?" ("[TRACE]      0:    104  OUT VALUE POINTER POINTER  rb=0\n" ++
          "[TRACE]      2:      3  IN POINTER POINTER POINTER  rb=0\n" ++
          "Error: Input: end of input\n") := by
  intro content machine stream
  have hload : loadFile "prog.int" content = .ok machine := by decide +kernel
  have hrun : runProgram 2 false false stream machine =
      .finished 1 "7\n?" "Error: Input: end of input\n" := by decide +kernel
  have hends : runProgram 2 false false stream machine ≠ .unfinished := by
    rw [hrun]
    exact Outcome.noConfusion
  have hstream : stream.Plain := trivial
  obtain ⟨haccount, hexecute⟩ := flags_spare_execution hload hstream hends
  refine ⟨hload, hrun, haccount, ?_⟩
  rw [hexecute _ (Streams.bytes.stdin "") ["run", "-t", "-p", "prog.int"] true true rfl rfl rfl]
  decide +kernel

end CommandLine

end Intcode
