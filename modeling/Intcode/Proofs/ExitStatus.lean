import Intcode.Proofs.ConsoleDialogue
import Intcode.Proofs.ReportLine
import Intcode.Proofs.SourceTokens

/-! # The exit status of a command

A command that is not refused comes to an end with a status, unless it runs for ever: status 1 and
one line about the failure when the file cannot be opened or loaded or the program fails, and
status 0 otherwise. A request that does so is sound. What it does not survive is a file that is not
UTF-8 text, or has a NUL in its name; a debugger whose window is moved out of sight, or whose input
is not UTF-8 or breaks off; and a standard output that fails the debugger, or fails when the program
is over. That the standard streams fail the program is another matter: then the program fails. -/

namespace Intcode
open Word (InRange)

theorem Source.inRange_of_readField {field : List Char × Nat} {v : Int}
    (h : readField field = .ok v) : InRange v :=
  Numeral.inRange_of_parse (readField_eq_ok_iff.mp h)

theorem Source.inRange_of_parse {text : List Char} {image : List Int}
    (h : parse text = .ok image) : ∀ v ∈ image, InRange v := by
  rw [parse, mapM_eq_ok_iff] at h
  generalize numberedFields text = fields at h
  induction h with
  | nil => exact List.forall_mem_nil _
  | cons hfield _ ih => exact List.forall_mem_cons.mpr ⟨inRange_of_readField hfield, ih⟩

/-- So many steps are far from an integer that cannot be written. -/
theorem Debugger.inSight_of_le {n : Nat} (h : n ≤ Nat.pow 10 4200) : InSight (horizon n) := by
  have hlast : InSight (horizon (Nat.pow 10 4200)) := by
    unfold InSight horizon
    decide +kernel
  exact hlast.mono (horizon_mono h)

namespace CommandLine

theorem OpenFault.oneLine_message (f : OpenFault) (h : Text.OneLine f.reason) (name : String) :
    Text.OneLine (f.message name) := by
  unfold message
  simp only [Text.oneLine_append, Numeral.oneLine_toString, Text.oneLine_quote, h, and_true]
  exact ⟨⟨Text.oneLine_literal rfl, Text.oneLine_literal rfl⟩,
    Text.oneLine_literal rfl⟩

/-- The file that is named in a request. -/
def Request.file : Request → String
  | run file _ _ | debug file => file

/-- The last line of a text, with its line feed. -/
def LastLine (text line : String) : Prop :=
  (Text.feedLines text.toList).getLast? = some line.toList

section
variable (fuel : Nat) (openFile : String → Except OpenFault ByteArray) (stdin : Stdin)
  (stdout : Writer)

/-- The file can be opened and is the source of `image`. -/
def Loads (file : String) (image : List Int) : Prop :=
  ∃ bytes text, openFile file = .ok bytes ∧ Text.ofUtf8? bytes = some text ∧
    Source.parse (Text.unifyFeeds text) = .ok image

/-- The program of a request is run, with this result. -/
def Request.Runs (request : Request) (result : EStateM.Result Fault (Session Devices) Progress) :
    Prop :=
  ∃ file trace print image, request = .run file trace print ∧ Loads openFile file image ∧
    Session.run Devices.wiring trace fuel 0
      { machine := .load image, world := devices stdin.reader stdout } = result

/-- What goes wrong, by its message: the file cannot be opened or loaded, or the program fails. -/
inductive Request.Fails (request : Request) : String → Prop
  | opening {f : OpenFault} (h : openFile request.file = .error f) :
    Fails request (f.message request.file)
  | loading {bytes : ByteArray} {text : List Char} {f : LoadFault}
    (hopen : openFile request.file = .ok bytes) (htext : Text.ofUtf8? bytes = some text)
    (h : Source.parse (Text.unifyFeeds text) = .error f) : Fails request f.report.message
  | running {f : Fault} {s : Session Devices}
    (h : request.Runs fuel openFile stdin stdout (.error f s)) : Fails request f.message

/-- The most instructions that a request can execute. -/
def Request.steps : Request → Nat
  | run _ _ _ => fuel
  | debug _ => stdin.lines.1.length * (fuel + 1)

/-- The standard output holds out when a program is over: it takes the dump of the memory if that is
printed, and it can be flushed if the program has failed. -/
def HoldsOut (print : Bool) : EStateM.Result Fault (Session Devices) Progress → Prop
  | .ok .halted s => print = true → (standardOutput s.world).Writes 2
  | .ok _ _ => True
  | .error _ s => (standardOutput s.world).Flushes 1

/-- The debugger comes to its end on the standard streams: its window stays in sight, its input does
not fail before a line ends the session, and its output takes all the screens. -/
structure Lasts : Prop where
  sight : Debugger.KeepsSight stdin.lines.1
  input : stdin.lines.2 = none ∨ Debugger.Quits stdin.lines.1
  writes : stdout.Writes (4 * Debugger.screens stdin.lines.1)
  flushes : stdout.Flushes (Debugger.screens stdin.lines.1)

/-- What it takes to survive a request: the file has a name, the bytes in it are a text, and the
standard streams of the program or of the debugger on it do their part. -/
structure Request.Sound (request : Request) : Prop where
  name : '\x00' ∉ request.file.toList
  text : ∀ bytes, openFile request.file = .ok bytes → ∃ text, Text.ofUtf8? bytes = some text
  output : ∀ file trace print image, request = .run file trace print → Loads openFile file image →
    HoldsOut print (Session.run Devices.wiring trace fuel 0
      { machine := .load image, world := devices stdin.reader stdout })
  debugger : ∀ file image, request = .debug file → Loads openFile file image → Lasts stdin stdout

/-- What is said elsewhere of a failure is said on one line: by the system about a file, and by the
standard streams. -/
structure Request.Plain (request : Request) : Prop where
  file : ∀ f, openFile request.file = .error f → Text.OneLine f.reason
  input : stdin.reader.Plain
  output : stdout.Plain

/-- A request comes to an end with a status, which says whether it has failed; if so, the last line
on the error stream is about it. -/
def Request.Ends (request : Request) (outcome : Outcome) : Prop :=
  ∃ status out err, outcome = .finished status out err ∧
    (∀ message, request.Fails fuel openFile stdin stdout message →
      status = 1 ∧ LastLine err (errorLine message)) ∧
    ((∀ message, ¬ request.Fails fuel openFile stdin stdout message) → status = 0)

end

variable {fuel : Nat} {openFile : String → Except OpenFault ByteArray} {stdin : Stdin}
  {stdout : Writer} {request : Request} {message : String} {image : List Int}
  {file out err : String} {trace print : Bool} {outcome : Outcome}

/-! ### The last line -/

theorem lastLine_errorLine (herr : Text.Complete err.toList) (h : Text.OneLine message) :
    LastLine (err ++ errorLine message) (errorLine message) := by
  have hline : Text.OneLine ("Error: " ++ message) :=
    Text.oneLine_append.mpr ⟨Text.oneLine_literal rfl, h⟩
  have htext : (errorLine message).toList = ("Error: " ++ message).toList ++ '\n' :: [] := by
    rw [errorLine, String.toList_append]
    rfl
  rw [LastLine, String.toList_append, Text.feedLines_append herr, htext,
    Text.feedLines_append_feed hline.noFeed, Text.feedLines, List.getLast?_concat]

/-! ### What has failed -/

theorem Loads.unique {image' : List Int} (h : Loads openFile file image)
    (h' : Loads openFile file image') : image = image' := by
  obtain ⟨bytes, text, hopen, htext, hparse⟩ := h
  obtain ⟨bytes', text', hopen', htext', hparse'⟩ := h'
  rw [hopen] at hopen'
  cases hopen'
  rw [htext] at htext'
  cases htext'
  rw [hparse] at hparse'
  cases hparse'
  rfl

theorem Loads.inRange (h : Loads openFile file image) : ∀ v ∈ image, InRange v := by
  obtain ⟨bytes, text, hopen, htext, hparse⟩ := h
  exact Source.inRange_of_parse hparse

theorem Request.Runs.unique {r r' : EStateM.Result Fault (Session Devices) Progress}
    (h : request.Runs fuel openFile stdin stdout r)
    (h' : request.Runs fuel openFile stdin stdout r') : r = r' := by
  obtain ⟨file, trace, print, image, rfl, hloads, rfl⟩ := h
  obtain ⟨_, _, _, image', heq, hloads', rfl⟩ := h'
  cases heq
  rw [hloads.unique hloads']

/-- Once it is loaded only the program can fail. -/
theorem Loads.fails_iff (h : Loads openFile request.file image) :
    request.Fails fuel openFile stdin stdout message ↔
      ∃ f s, request.Runs fuel openFile stdin stdout (.error f s) ∧ message = f.message := by
  constructor
  · intro hfails
    obtain ⟨bytes, text, hopen, htext, hparse⟩ := h
    cases hfails with
    | opening h' =>
      rw [hopen] at h'
      cases h'
    | loading hopen' htext' h' =>
      rw [hopen] at hopen'
      cases hopen'
      rw [htext] at htext'
      cases htext'
      rw [hparse] at h'
      cases h'
    | running h' => exact ⟨_, _, h', rfl⟩
  · rintro ⟨f, s, hruns, rfl⟩
    exact .running hruns

/-- At most one thing goes wrong. -/
theorem Request.Fails.unique {message' : String}
    (h : request.Fails fuel openFile stdin stdout message)
    (h' : request.Fails fuel openFile stdin stdout message') : message = message' := by
  -- a program that is run has been loaded, so only failures of one kind can meet
  by_cases hloads : ∃ image, Loads openFile request.file image
  · obtain ⟨image, hloads⟩ := hloads
    obtain ⟨f, s, hruns, rfl⟩ := hloads.fails_iff.mp h
    obtain ⟨f', s', hruns', rfl⟩ := hloads.fails_iff.mp h'
    cases hruns.unique hruns'
    rfl
  · have hruns : ∀ result, ¬ request.Runs fuel openFile stdin stdout result := by
      rintro result ⟨file, trace, print, image, rfl, hl, -⟩
      exact hloads ⟨image, hl⟩
    cases h with
    | running h => exact absurd h (hruns _)
    | opening h =>
      cases h' with
      | running h' => exact absurd h' (hruns _)
      | opening h' =>
        rw [h] at h'
        cases h'
        rfl
      | loading hopen _ _ =>
        rw [h] at hopen
        cases hopen
    | loading hopen htext h =>
      cases h' with
      | running h' => exact absurd h' (hruns _)
      | opening h' =>
        rw [hopen] at h'
        cases h'
      | loading hopen' htext' h' =>
        rw [hopen] at hopen'
        cases hopen'
        rw [htext] at htext'
        cases htext'
        rw [h] at h'
        cases h'
        rfl

theorem ends_of_fails (h : request.Fails fuel openFile stdin stdout message)
    (hline : Text.OneLine message) (herr : Text.Complete err.toList)
    (hout : outcome = .finished 1 out (err ++ errorLine message)) :
    request.Ends fuel openFile stdin stdout outcome := by
  refine ⟨1, out, _, hout, fun message' h' => ?_, fun hno => absurd h (hno message)⟩
  obtain rfl := h.unique h'
  exact ⟨rfl, lastLine_errorLine herr hline⟩

theorem ends_of_not_fails (h : ∀ message, ¬ request.Fails fuel openFile stdin stdout message)
    (hout : outcome = .finished 0 out err) : request.Ends fuel openFile stdin stdout outcome :=
  ⟨0, out, err, hout, fun message hfails => absurd hfails (h message), fun _ => rfl⟩

/-! ### Loading -/

theorem loadFile_of_opening {f : OpenFault} (hname : '\x00' ∉ file.toList)
    (h : openFile file = .error f) :
    loadFile file (openFile file) = .error (.failed (f.message file)) := by
  have hname : file.toList.contains '\x00' = false := by simpa using hname
  simp only [loadFile, hname, h]
  rfl

theorem loadFile_of_loading {bytes : ByteArray} {text : List Char} {f : LoadFault}
    (hname : '\x00' ∉ file.toList) (hopen : openFile file = .ok bytes)
    (htext : Text.ofUtf8? bytes = some text)
    (h : Source.parse (Text.unifyFeeds text) = .error f) :
    loadFile file (openFile file) = .error (.failed f.report.message) := by
  have hname : file.toList.contains '\x00' = false := by simpa using hname
  simp only [loadFile, hname, hopen, htext, h]
  rfl

theorem loadFile_of_loads (hname : '\x00' ∉ file.toList) (h : Loads openFile file image) :
    loadFile file (openFile file) = .ok (.load image) := by
  obtain ⟨bytes, text, hopen, htext, hparse⟩ := h
  have hname : file.toList.contains '\x00' = false := by simpa using hname
  simp only [loadFile, hname, hopen, htext, hparse]
  rfl

theorem loadFile_of_nul (hname : '\x00' ∈ file.toList) :
    loadFile file (openFile file) = .error (.aborted .nulInName) := by
  have hname : file.toList.contains '\x00' = true := by simpa using hname
  simp only [loadFile, hname]
  rfl

theorem loadFile_of_undecodable {bytes : ByteArray} (hname : '\x00' ∉ file.toList)
    (hopen : openFile file = .ok bytes) (h : Text.ofUtf8? bytes = none) :
    loadFile file (openFile file) = .error (.aborted .undecodable) := by
  have hname : file.toList.contains '\x00' = false := by simpa using hname
  simp only [loadFile, hname, hopen, h]
  rfl

theorem perform_of_refused (h : loadFile request.file (openFile request.file) = .error outcome) :
    request.perform fuel openFile stdin stdout = outcome := by
  cases request with
  | run file trace print | debug file =>
    simp only [Request.file] at h
    simp only [Request.perform, h]

theorem execute_of_parse {args : List String} (h : parse args = .ok request) :
    execute fuel openFile stdin args stdout = request.perform fuel openFile stdin stdout := by
  simp only [execute, h]

/-- What is told about a file that cannot be loaded is all that is told. -/
theorem ends_of_refused (hfails : request.Fails fuel openFile stdin stdout message)
    (hline : Text.OneLine message)
    (h : loadFile request.file (openFile request.file) = .error (.failed message)) :
    request.Ends fuel openFile stdin stdout (request.perform fuel openFile stdin stdout) := by
  have hout : Outcome.failed message = .finished 1 "" ("" ++ errorLine message) := by
    rw [String.empty_append]
    rfl
  have hempty : Text.Complete "".toList := .inl rfl
  exact ends_of_fails hfails hline hempty ((perform_of_refused h).trans hout)

/-! ### Running -/

section
variable {k j : Nat} {text err' : String} {last : WriterM Unit} {w : Writer}

theorem after_of_costs (h : Writer.Costs k j text last) (hw : w.Writes k) (hf : w.Flushes j)
    (status : Nat) (err : String) :
    Outcome.after last status err w = .finished status (w.written ++ text) err := by
  rcases h w with ⟨-, -, w', hlast, hspent⟩ | ⟨hnot, -⟩
  · simp only [Outcome.after, hlast, hspent.written]
  · exact absurd ⟨hw, hf⟩ hnot

theorem after_of_failing (h : Writer.Costs k j text last) (hnot : ¬ (w.Writes k ∧ w.Flushes j))
    (status : Nat) (err : String) :
    ∃ reason, Outcome.after last status err w = .aborted (.streamFailed reason) := by
  rcases h w with ⟨hw, hf, -⟩ | ⟨-, reason, w', hlast⟩
  · exact absurd ⟨hw, hf⟩ hnot
  · exact ⟨reason, by simp only [Outcome.after, hlast]⟩

theorem of_after_eq_finished {status status' : Nat} (h : Writer.Costs k j text last)
    (hafter : Outcome.after last status err w = .finished status' out err') :
    status' = status ∧ out = w.written ++ text := by
  by_cases hlasts : w.Writes k ∧ w.Flushes j
  · rw [after_of_costs h hlasts.1 hlasts.2] at hafter
    cases hafter
    exact ⟨rfl, rfl⟩
  · obtain ⟨reason, habort⟩ := after_of_failing h hlasts status err
    rw [habort] at hafter
    cases hafter

end

section
variable {stream : Stream} {machine : Machine} {s : Session Devices} {f : Fault}
  {result : EStateM.Result Fault (Session Devices) Progress}

theorem runProgram_of_halted
    (h : Session.run Devices.wiring trace fuel 0 { machine, world := devices stream stdout } =
      .ok .halted s) (hout : HoldsOut print (.ok .halted s)) :
    runProgram fuel trace print stream machine stdout =
      .finished 0 (written s.world ++ if print then s.machine.dump ++ "\n" else "") s.log := by
  simp only [runProgram, h]
  cases print with
  | false =>
    rw [if_neg Bool.false_ne_true, if_neg Bool.false_ne_true, String.append_empty]
    rfl
  | true => exact after_of_costs (Writer.costs_print _ _) (hout rfl) nofun _ _

theorem runProgram_of_error
    (h : Session.run Devices.wiring trace fuel 0 { machine, world := devices stream stdout } =
      .error f s) (htold : f.Tellable) (hout : HoldsOut print (.error f s)) :
    runProgram fuel trace print stream machine stdout =
      .finished 1 (written s.world) (s.log ++ errorLine f.message) := by
  simp only [runProgram, h, if_pos htold]
  rw [after_of_costs Writer.costs_flush (Writer.writes_zero _) hout, String.append_empty]
  rfl

theorem runProgram_of_untellable
    (h : Session.run Devices.wiring trace fuel 0 { machine, world := devices stream stdout } =
      .error f s) (htold : ¬ f.Tellable) :
    runProgram fuel trace print stream machine stdout = .aborted .unwritable := by
  simp only [runProgram, h, if_neg htold]

/-- A standard output that does not hold out leaves no status. -/
theorem runProgram_of_not_holdsOut
    (h : Session.run Devices.wiring trace fuel 0 { machine, world := devices stream stdout } =
      result) (hout : ¬ HoldsOut print result) :
    ∃ cause, runProgram fuel trace print stream machine stdout = .aborted cause := by
  cases result with
  | ok p s =>
    cases p with
    | running a | reading t b => exact absurd trivial hout
    | halted =>
      obtain ⟨rfl, hw⟩ : print = true ∧ ¬ (standardOutput s.world).Writes 2 :=
        Classical.not_imp.mp hout
      simp only [runProgram, h]
      obtain ⟨reason, habort⟩ := after_of_failing (Writer.costs_print s.machine.dump "\n")
        (fun hlasts => hw hlasts.1) 0 s.log
      exact ⟨_, habort⟩
  | error f s =>
    by_cases htold : f.Tellable
    · simp only [runProgram, h, if_pos htold]
      obtain ⟨reason, habort⟩ := after_of_failing Writer.costs_flush (fun hlasts => hout hlasts.2) 1
        (s.log ++ errorLine f.message)
      exact ⟨_, habort⟩
    · exact ⟨_, runProgram_of_untellable h htold⟩

end

/-- A run that is not longer than any can be goes on, ends with the program, or fails for a reason
that it tells on the last line. Nothing is asked of the standard streams during the run. -/
theorem runProgram_cases {stream : Stream}
    {result : EStateM.Result Fault (Session Devices) Progress}
    (himage : ∀ v ∈ image, InRange v) (hstream : stream.Plain) (hstdout : stdout.Plain)
    (hsteps : fuel ≤ Nat.pow 10 4200)
    (hresult : Session.run Devices.wiring trace fuel 0
      { machine := .load image, world := devices stream stdout } = result)
    (hout : HoldsOut print result) :
    (∃ s out, result = .ok .halted s ∧
        runProgram fuel trace print stream (.load image) stdout = .finished 0 out s.log) ∨
      (∃ a s, result = .ok (.running a) s ∧
        runProgram fuel trace print stream (.load image) stdout = .unfinished) ∨
      ∃ f s out, result = .error f s ∧ Text.OneLine f.message ∧ Text.Complete s.log.toList ∧
        runProgram fuel trace print stream (.load image) stdout =
          .finished 1 out (s.log ++ errorLine f.message) := by
  have hstart : Session.Settled Devices.Standard 0
      { machine := .load image, world := devices stream stdout } :=
    ⟨Machine.settled_load himage, ⟨⟨stream, rfl, hstream⟩, stdout, rfl, hstdout⟩, .inl rfl⟩
  have hfirst : (0 : Int).natAbs + 4 ≤ horizon 0 := by decide
  obtain ⟨hs, hY⟩ := Session.settled_run Devices.tells trace fuel hfirst _ hstart
  rw [Nat.zero_add, hresult] at hs hY
  cases result with
  | ok p s =>
    rcases hY with rfl | ⟨a, rfl⟩
    · exact .inl ⟨s, _, rfl, runProgram_of_halted hresult hout⟩
    · exact .inr (.inl ⟨a, s, rfl, by simp only [runProgram, hresult]⟩)
  | error f s =>
    have htold : f.Tellable := hY.2 (Debugger.inSight_of_le hsteps).lt
    have hline := Fault.oneLine_message hY.1
    exact .inr (.inr ⟨f, s, _, rfl, hline, hs.log, runProgram_of_error hresult htold hout⟩)

/-- A run of a loaded program that is not longer than any can be ends with a status. -/
theorem ends_run (hname : '\x00' ∉ file.toList) (hloads : Loads openFile file image)
    (hinput : stdin.reader.Plain) (houtput : stdout.Plain)
    (hout : HoldsOut print (Session.run Devices.wiring trace fuel 0
      { machine := .load image, world := devices stdin.reader stdout }))
    (hsteps : fuel ≤ Nat.pow 10 4200)
    (hends : ∀ a s, ¬ (Request.run file trace print).Runs fuel openFile stdin stdout
      (.ok (.running a) s)) :
    (Request.run file trace print).Ends fuel openFile stdin stdout
      ((Request.run file trace print).perform fuel openFile stdin stdout) := by
  have hruns : (Request.run file trace print).Runs fuel openFile stdin stdout
      (Session.run Devices.wiring trace fuel 0
        { machine := .load image, world := devices stdin.reader stdout }) :=
    ⟨file, trace, print, image, rfl, hloads, rfl⟩
  have hperform : (Request.run file trace print).perform fuel openFile stdin stdout =
      runProgram fuel trace print stdin.reader (.load image) stdout := by
    simp only [Request.perform, loadFile_of_loads hname hloads]
  rw [hperform]
  rcases runProgram_cases hloads.inRange hinput houtput hsteps rfl hout with
    ⟨s, out, hresult, hout⟩ | ⟨a, s, hresult, -⟩ | ⟨f, s, out, hresult, hline, hlog, hout⟩
  · rw [hresult] at hruns
    refine ends_of_not_fails (fun message hfails => ?_) hout
    obtain ⟨f, s', hfailed, -⟩ := (Loads.fails_iff hloads).mp hfails
    cases hruns.unique hfailed
  · rw [hresult] at hruns
    exact absurd hruns (hends a s)
  · rw [hresult] at hruns
    exact ends_of_fails (.running hruns) hline hlog hout

/-! ### Debugging -/

/-- A debugger on a loaded program that is not longer than any can be comes to its end exactly if the
standard streams let it and it keeps its window in sight. -/
theorem debugProgram_cases (himage : ∀ v ∈ image, InRange v)
    (hsteps : stdin.lines.1.length * (fuel + 1) ≤ Nat.pow 10 4200) :
    (Lasts stdin stdout ∧
        ∃ out, debugProgram fuel stdin (.load image) stdout = .finished 0 out "") ∨
      ¬ Lasts stdin stdout ∧
        ∃ cause, debugProgram fuel stdin (.load image) stdout = .aborted cause := by
  have hlength := Debugger.inSight_of_le hsteps
  rw [← Nat.zero_add (stdin.lines.1.length * (fuel + 1))] at hlength
  have hdialogue := Debugger.dialogue_fails_iff (Debugger.settled_start himage) hlength
  unfold debugProgram
  dsimp only
  cases hobey : Console.obey fuel stdin.lines.2 stdin.lines.1 ⟨{ machine := .load image }, stdout⟩ with
  | ok u c =>
    obtain ⟨⟨shown, hshown⟩, hwrites, hflushes, hinput⟩ := Console.obey_eq_ok hobey
    refine .inl ⟨⟨?_, hinput, hwrites, hflushes⟩, _, rfl⟩
    refine Classical.byContradiction fun hlost => ?_
    obtain ⟨f, d, hfails⟩ := hdialogue.mpr hlost
    rw [hshown] at hfails
    cases hfails
  | error cause c =>
    refine .inr ⟨fun hlasts => ?_, cause, rfl⟩
    cases hd : Debugger.dialogue fuel stdin.lines.1 { machine := .load image } with
    | error f d => exact hdialogue.mp ⟨f, d, hd⟩ hlasts.sight
    | ok shown d =>
      obtain ⟨w', hok, -⟩ :=
        Console.obey_of_dialogue hd hlasts.writes hlasts.flushes hlasts.input
      rw [hobey] at hok
      cases hok

/-- A debugger on a loaded program ends with status 0 if it lasts. -/
theorem ends_debug (hname : '\x00' ∉ file.toList) (hloads : Loads openFile file image)
    (hsteps : stdin.lines.1.length * (fuel + 1) ≤ Nat.pow 10 4200) (hlasts : Lasts stdin stdout) :
    (Request.debug file).Ends fuel openFile stdin stdout
      ((Request.debug file).perform fuel openFile stdin stdout) := by
  have hnot : ∀ message, ¬ (Request.debug file).Fails fuel openFile stdin stdout message := by
    intro message hfails
    obtain ⟨f, s, ⟨_, _, _, _, heq, -⟩, -⟩ := (Loads.fails_iff hloads).mp hfails
    cases heq
  simp only [Request.perform, loadFile_of_loads hname hloads]
  obtain ⟨out, hout⟩ : ∃ out, debugProgram fuel stdin (.load image) stdout = .finished 0 out "" :=
    (debugProgram_cases hloads.inRange hsteps).elim And.right fun hlost => absurd hlasts hlost.1
  exact ends_of_not_fails hnot hout

/-! ### Requests -/

section
variable (hname : '\x00' ∉ request.file.toList)
  (htext : ∀ bytes, openFile request.file = .ok bytes → ∃ text, Text.ofUtf8? bytes = some text)
include hname htext

/-- Nothing is asked of the standard streams if there is no program. -/
theorem Request.sound_of_not_loads (h : ¬ ∃ image, Loads openFile request.file image) :
    request.Sound fuel openFile stdin stdout where
  name := hname
  text := htext
  output _ _ _ image hrequest hloads := by
    rw [hrequest] at h
    exact absurd ⟨image, hloads⟩ h
  debugger _ image hrequest hloads := by
    rw [hrequest] at h
    exact absurd ⟨image, hloads⟩ h

theorem Request.sound_of_holdsOut (hrequest : request = .run file trace print)
    (hloads : Loads openFile file image)
    (hout : HoldsOut print (Session.run Devices.wiring trace fuel 0
      { machine := .load image, world := devices stdin.reader stdout })) :
    request.Sound fuel openFile stdin stdout where
  name := hname
  text := htext
  output file' trace' print' image' hrequest' hloads' := by
    cases hrequest.symm.trans hrequest'
    rwa [← hloads.unique hloads']
  debugger file' image' hrequest' := by
    cases hrequest.symm.trans hrequest'

theorem Request.sound_of_lasts (hrequest : request = .debug file) (hlasts : Lasts stdin stdout) :
    request.Sound fuel openFile stdin stdout where
  name := hname
  text := htext
  output file' trace' print' image' hrequest' := by
    cases hrequest.symm.trans hrequest'
  debugger _ _ _ _ := hlasts

end

/-- A sound request that is not longer than any can be ends with a status, whatever bytes there are
on the standard input: 1, with the failure on the last line of the error stream, if the file cannot
be opened or loaded or the program fails, and 0 if nothing of the kind happens. -/
theorem status_of_request {args : List String} (hargs : parse args = .ok request)
    (hsound : request.Sound fuel openFile stdin stdout)
    (hplain : request.Plain openFile stdin stdout)
    (hsteps : request.steps fuel stdin ≤ Nat.pow 10 4200)
    (hends : ∀ a s, ¬ request.Runs fuel openFile stdin stdout (.ok (.running a) s)) :
    ∃ status out err, execute fuel openFile stdin args stdout = .finished status out err ∧
      (∀ message, request.Fails fuel openFile stdin stdout message →
        status = 1 ∧ LastLine err (errorLine message)) ∧
      ((∀ message, ¬ request.Fails fuel openFile stdin stdout message) → status = 0) := by
  rw [execute_of_parse hargs]
  cases hopen : openFile request.file with
  | error f =>
    have hline := f.oneLine_message (hplain.file f hopen) request.file
    exact ends_of_refused (.opening hopen) hline (loadFile_of_opening hsound.name hopen)
  | ok bytes =>
    obtain ⟨text, htext⟩ := hsound.text bytes hopen
    cases hparse : Source.parse (Text.unifyFeeds text) with
    | error f =>
      have hload := loadFile_of_loading hsound.name hopen htext hparse
      exact ends_of_refused (.loading hopen htext hparse) f.oneLine_message hload
    | ok image =>
      have hloads : Loads openFile request.file image := ⟨bytes, text, hopen, htext, hparse⟩
      cases request with
      | run file trace print =>
        exact ends_run hsound.name hloads hplain.input hplain.output
          (hsound.output file trace print image rfl hloads) hsteps hends
      | debug file =>
        exact ends_debug hsound.name hloads hsteps (hsound.debugger file image rfl hloads)

/-- A program whose only cell does not decode, on a standard input with a byte that is no text. -/
theorem status_of_request_cell_refused :
    ∃ out err, execute 1 (fun _ => .ok "98".toUTF8) (.bytes [[0xff]]) ["run", "prog.int"] =
        .finished 1 out err ∧
      LastLine err "Error: Unknown opcode 98 at address 0 (cell 98)\n" := by
  have hargs : parse ["run", "prog.int"] = .ok (.run "prog.int" false false) := rfl
  have htext : Text.ofUtf8? "98".toUTF8 = some "98".toList := by decide +kernel
  have hloads : Loads (fun _ => .ok "98".toUTF8) "prog.int" [98] := ⟨_, _, rfl, htext, rfl⟩
  have hfails : (Request.run "prog.int" false false).Fails 1 (fun _ => .ok "98".toUTF8)
      (.bytes [[0xff]]) {} (Fault.decode (.unknownOpcode 98 (some 0))).message :=
    .running ⟨_, _, _, _, rfl, hloads, rfl⟩
  have hsound : (Request.run "prog.int" false false).Sound 1 (fun _ => .ok "98".toUTF8)
      (.bytes [[0xff]]) {} := by
    refine Request.sound_of_holdsOut (by decide) (fun bytes hopen => ?_) rfl hloads nofun
    cases hopen
    exact ⟨_, htext⟩
  have hplain : (Request.run "prog.int" false false).Plain (fun _ => .ok "98".toUTF8)
      (.bytes [[0xff]]) {} := ⟨fun f h => (nomatch h), trivial, ⟨nofun⟩, nofun⟩
  have hsteps : 1 ≤ Nat.pow 10 4200 := by decide +kernel
  have hends : ∀ a s, ¬ (Request.run "prog.int" false false).Runs 1 (fun _ => .ok "98".toUTF8)
      (.bytes [[0xff]]) {} (.ok (.running a) s) := by
    rintro a s ⟨_, _, _, image, hrequest, hl, hrun⟩
    cases hrequest
    cases hl.unique hloads
    cases hrun
  obtain ⟨status, out, err, hout, hfailed, -⟩ :=
    status_of_request hargs hsound hplain hsteps hends
  obtain ⟨rfl, hlast⟩ := hfailed _ hfails
  have hline : errorLine (Fault.decode (.unknownOpcode 98 (some 0))).message =
      "Error: Unknown opcode 98 at address 0 (cell 98)\n" := by decide +kernel
  rw [hline] at hlast
  exact ⟨out, err, hout, hlast⟩

/-- A request that is not sound has no status. -/
theorem aborts_of_not_sound {args : List String} (hargs : parse args = .ok request)
    (hsound : ¬ request.Sound fuel openFile stdin stdout)
    (hsteps : request.steps fuel stdin ≤ Nat.pow 10 4200) :
    ∃ cause, execute fuel openFile stdin args stdout = .aborted cause := by
  rw [execute_of_parse hargs]
  by_cases hname : '\x00' ∈ request.file.toList
  · exact ⟨.nulInName, perform_of_refused (loadFile_of_nul hname)⟩
  by_cases htext : ∀ bytes, openFile request.file = .ok bytes →
      ∃ text, Text.ofUtf8? bytes = some text
  · by_cases hloads : ∃ image, Loads openFile request.file image
    · obtain ⟨image, hloads⟩ := hloads
      have hload : loadFile request.file (openFile request.file) = .ok (.load image) :=
        loadFile_of_loads hname hloads
      cases hrequest : request with
      | run file trace print =>
        rw [hrequest] at hload hloads
        simp only [Request.file] at hload
        simp only [Request.perform, hload]
        refine runProgram_of_not_holdsOut rfl fun hout => hsound ?_
        exact Request.sound_of_holdsOut hname htext hrequest hloads hout
      | debug file =>
        rw [hrequest] at hload hsteps
        simp only [Request.file] at hload
        simp only [Request.perform, hload]
        rcases debugProgram_cases hloads.inRange hsteps with ⟨hlasts, -⟩ | ⟨-, habort⟩
        · exact absurd (Request.sound_of_lasts hname htext hrequest hlasts) hsound
        · exact habort
    · exact absurd (Request.sound_of_not_loads hname htext hloads) hsound
  · obtain ⟨bytes, hopen, hnone⟩ : ∃ bytes, openFile request.file = .ok bytes ∧
        Text.ofUtf8? bytes = none := by
      simpa [Option.eq_none_iff_forall_ne_some] using htext
    exact ⟨.undecodable, perform_of_refused (loadFile_of_undecodable hname hopen hnone)⟩

/-- No text has this byte in it, so nothing is run, and still there is no status. -/
theorem not_finished_of_undecodable :
    (∀ result, ¬ (Request.run "prog.int" false false).Runs 1 (fun _ => .ok ⟨#[0xff]⟩) (.bytes []) {}
        result) ∧
      ¬ ∃ status out err, execute 1 (fun _ => .ok ⟨#[0xff]⟩) (.bytes []) ["run", "prog.int"] =
        .finished status out err := by
  have htext : Text.ofUtf8? ⟨#[0xff]⟩ = none := by decide +kernel
  constructor
  · rintro result ⟨_, _, _, image, -, ⟨bytes, text, hopen, h, -⟩, -⟩
    cases hopen
    rw [htext] at h
    cases h
  · have hsound : ¬ (Request.run "prog.int" false false).Sound 1 (fun _ => .ok ⟨#[0xff]⟩)
        (.bytes []) {} := by
      intro h
      obtain ⟨text, htext'⟩ := h.text _ rfl
      rw [htext] at htext'
      cases htext'
    have hsteps : 1 ≤ Nat.pow 10 4200 := by decide +kernel
    have hargs : parse ["run", "prog.int"] = .ok (.run "prog.int" false false) := rfl
    obtain ⟨cause, habort⟩ := aborts_of_not_sound hargs hsound hsteps
    rintro ⟨status, out, err, h⟩
    rw [habort] at h
    cases h

end CommandLine

end Intcode
