import Intcode.Proofs.ExitStatus
import Intcode.Proofs.LineBreak

/-! # A dump of the memory is loaded back

A dump is a program source on one line. Wherever a loaded program has come to, its cells are signed
64-bit integers, so each is written as a numeral that is read back, and the image of the dump is the
memory, cell for cell. A command that prints the memory at the end writes the dump behind the
prompts that stand on the last line, because a prompt has no line feed. -/

namespace Intcode
open Word (InRange)

namespace Text
variable {c : Char} {cs : List Char}

/-- A line break is a blank. -/
theorem isBreak_of_isBlank (h : isBlank c = false) : isBreak c = false := by
  simp only [isBlank, isBreak, Bool.or_eq_false_iff, Bool.and_eq_false_iff,
    decide_eq_false_iff_not, beq_eq_false_iff_ne] at h ⊢
  omega

theorem lines_of_forall (h : ∀ c ∈ cs, isBreak c = false) (hne : cs ≠ []) : lines cs = [cs] := by
  have hlines : lines (cs ++ []) = cs.foldr consLine (lines []) := by
    refine lines_append fun c hc hbreak => ?_
    cases (h c hc).symm.trans (isBreak_iff.mpr hbreak)
  rwa [List.append_nil, lines, foldr_consLine_nil hne] at hlines

theorem mem_intercalate {sep : Char} {parts : List (List Char)}
    (h : c ∈ [sep].intercalate parts) : c = sep ∨ ∃ part ∈ parts, c ∈ part := by
  induction parts with
  | nil =>
    rw [List.intercalate_nil] at h
    cases h
  | cons part parts ih =>
    cases parts with
    | nil =>
      rw [List.intercalate_singleton] at h
      exact .inr ⟨part, List.mem_cons_self, h⟩
    | cons next parts =>
      rw [List.intercalate_cons_cons, List.mem_append, List.mem_append, List.mem_singleton] at h
      rcases h with (h | h) | h
      · exact .inr ⟨part, List.mem_cons_self, h⟩
      · exact .inl h
      · rcases ih h with h | ⟨later, hl, h⟩
        · exact .inl h
        · exact .inr ⟨later, List.mem_cons_of_mem _ hl, h⟩

end Text

/-! ### Sources that are read back -/

namespace Source
variable {cells : List Int}

theorem toList_render (cells : List Int) :
    (render cells).toList = [','].intercalate (cells.map Numeral.digits) := by
  have hdigits : cells.map (String.toList ∘ Numeral.render) = cells.map Numeral.digits :=
    List.map_congr_left fun v _ => String.toList_ofList
  rw [render, String.toList_intercalate, List.map_map, hdigits]
  rfl

theorem isBreak_of_mem_render {c : Char} (h : c ∈ (render cells).toList) :
    Text.isBreak c = false := by
  rw [toList_render] at h
  rcases Text.mem_intercalate h with rfl | ⟨part, hpart, h⟩
  · decide
  · obtain ⟨v, -, rfl⟩ := List.mem_map.mp hpart
    exact Text.isBreak_of_isBlank (Numeral.isBlank_of_mem_digits h)

theorem fields_render (hne : cells ≠ []) :
    fields (render cells).toList = cells.map Numeral.digits := by
  have hcomma : ∀ part ∈ cells.map Numeral.digits, ',' ∉ part := by
    intro part hpart
    obtain ⟨v, -, rfl⟩ := List.mem_map.mp hpart
    exact Numeral.not_mem_digits rfl (by decide)
  have hsplit : (render cells).toList.splitOnP (· == ',') = cells.map Numeral.digits := by
    rw [toList_render]
    exact List.splitOn_intercalate ',' hcomma (by simpa using hne)
  have htrim : (cells.map Numeral.digits).map Text.trim = cells.map Numeral.digits := by
    rw [List.map_map]
    refine List.map_congr_left fun v _ => ?_
    exact Text.trim_eq_self fun c hc => Numeral.isBlank_of_mem_digits hc
  rw [fields, hsplit, htrim, List.filter_eq_self]
  intro part hpart
  obtain ⟨v, -, rfl⟩ := List.mem_map.mp hpart
  simpa using Numeral.digits_ne_nil v

theorem readField_digits {v : Int} (h : InRange v) (line : Nat) :
    readField (Numeral.digits v, line) = .ok v :=
  readField_eq_ok_iff.mpr (Numeral.parse_digits h)

theorem mapM_readField (h : ∀ v ∈ cells, InRange v) (line : Nat) :
    ((cells.map Numeral.digits).map (·, line)).mapM readField = .ok cells := by
  rw [List.map_map, mapM_eq_ok_iff, List.forall₂_map_left_iff, List.forall₂_same]
  exact fun v hv => readField_digits (h v hv) line

/-- The source that is written of cells in the range is a source of them. -/
theorem parse_render (h : ∀ v ∈ cells, InRange v) : parse (render cells).toList = .ok cells := by
  by_cases hne : cells = []
  · subst hne
    rfl
  · have hnonempty : (render cells).toList ≠ [] := by
      intro hnil
      have hfields := fields_render hne
      rw [hnil] at hfields
      exact hne (List.map_eq_nil_iff.mp hfields.symm)
    have hlines := Text.lines_of_forall (fun c hc => isBreak_of_mem_render hc) hnonempty
    have hnumbered : numberedFields (render cells).toList =
        (cells.map Numeral.digits).map (·, 1) := by
      rw [numberedFields, hlines, ← fields_render hne]
      exact List.append_nil _
    rw [parse, hnumbered, mapM_readField h]

end Source

theorem Machine.parse_dump {m : Machine} (h : m.Within InRange) :
    Source.parse m.dump.toList = .ok m.memory.toList :=
  Source.parse_render h

/-! ### Whatever a program is connected to -/

namespace Devices

/-- All values on the channel that is read are in the range. -/
def Feeds (d : Devices) : Prop := ∀ c, d.input = .channel c → c.Within

theorem guards_feeds : Guards Feeds where
  within hd := hd _
  input c hd hc := by rintro _ ⟨⟩; exact hc
  reader _ _ _ := nofun
  writer _ _ hd := hd
  sent _ _ _ _ he := he

end Devices

/-- What a session of a loaded program can come to: from any address it runs on, executes an
instruction up to a read, or completes a read, with success or not. In between it may be connected
to other devices, and values may come and go on its channels. -/
inductive Session.Visits (image : List Int) : Session Devices → Prop
  | load {d : Devices} (hd : d.Feeds) : Visits image { machine := .load image, world := d }
  | run {s : Session Devices} (h : Visits image s) (traced : Bool) (fuel : Nat) (a : Int) :
    Visits image (finalState (run Devices.wiring traced fuel a s))
  | issue {s : Session Devices} (h : Visits image s) (traced : Bool) (a : Int) :
    Visits image (finalState (issue Devices.wiring traced a s))
  | complete {s : Session Devices} (h : Visits image s) (target next : Int) :
    Visits image (finalState (complete Devices.wiring target next s))
  | connect {s : Session Devices} {d : Devices} (h : Visits image s) (hd : d.Feeds) :
    Visits image { s with world := d }

theorem Session.Visits.within {image : List Int} {s : Session Devices}
    (himage : ∀ v ∈ image, InRange v) (h : Visits image s) : s.Within Devices.Feeds := by
  have hw := Devices.guards_feeds.keeps
  induction h with
  | load hd => exact ⟨Memory.within_ofList himage, hd⟩
  | run _ traced fuel a ih => exact (ensures_run hw traced fuel a _ ih).1
  | issue _ traced a ih => exact (ensures_issue hw traced a _ ih).1
  | complete _ target next ih => exact (ensures_complete hw target next _ ih).1
  | connect _ hd ih => exact ⟨ih.1, hd⟩

/-! ### What is printed -/

/-- Whole lines, and so many prompts behind them. -/
def Text.Prompted (prompts : Nat) (text : String) : Prop :=
  ∃ whole, Complete whole ∧ text.toList = whole ++ List.replicate prompts '?'

theorem Text.Prompted.prompt {prompts : Nat} {text : String} (h : Prompted prompts text) :
    Prompted (prompts + 1) (text ++ Devices.promptText) := by
  obtain ⟨whole, hwhole, htext⟩ := h
  refine ⟨whole, hwhole, ?_⟩
  rw [String.toList_append, htext, List.append_assoc, List.replicate_succ']
  rfl

theorem Text.prompted_line (text line : String) : Prompted 0 (text ++ (line ++ "\n")) := by
  have hlist : (text ++ (line ++ "\n")).toList = text.toList ++ (line.toList ++ ['\n']) := by
    rw [String.toList_append, String.toList_append]
    rfl
  refine ⟨_, ?_, (List.append_nil _).symm⟩
  rw [hlist]
  exact .append_line

namespace Devices

/-- A reader, and a writer that has been given whole lines and prompts behind them. -/
structure Prints (d : Devices) : Prop where
  input : ∃ stream, d.input = .reader stream
  output : ∃ w prompts, d.output = .writer w ∧ Text.Prompted prompts w.written

/-- Whether a text is passed on or not, it has been handed over as a whole or not at all. -/
theorem prints_onWriter {text : String} {fault : String → Fault} {w : Writer} {prompts : Nat}
    (hw : Text.Prompted prompts w.written)
    (htext : ∃ prompts, Text.Prompted prompts (w.written ++ text)) :
    Ensures Prints (fun _ => True) (fun _ => True) (onWriter text fault w) := by
  intro d hd
  obtain ⟨prompts', htext⟩ := htext
  unfold onWriter
  cases hput : Writer.put text w with
  | ok u w' => exact ⟨⟨hd.input, w', prompts', rfl, (Writer.put_ok hput).1 ▸ htext⟩, trivial⟩
  | error reason w' =>
    refine ⟨⟨hd.input, ?_⟩, trivial⟩
    rcases Writer.put_error hput with rfl | ⟨hwritten, -⟩
    · exact ⟨w', prompts, rfl, hw⟩
    · exact ⟨w', prompts', rfl, hwritten ▸ htext⟩

theorem prints_prompt : Ensures Prints (fun _ => True) (fun _ => True) prompt := by
  refine .get_bind fun d hd => ?_
  obtain ⟨w, prompts, hw, hprompted⟩ := hd.output
  rw [hw]
  exact prints_onWriter hprompted ⟨prompts + 1, hprompted.prompt⟩

theorem keeps_prints : wiring.Keeps Prints where
  read := by
    refine .get_bind fun d hd => ?_
    obtain ⟨stream, hstream⟩ := hd.input
    simp only [hstream]
    have hread := ensures_readLine (fun d rest (hd : Prints d) => ⟨⟨rest, rfl⟩, hd.output⟩) stream
    refine prints_prompt.bind fun _ _ => hread.bind fun v hv => .ret ?_
    rintro u ⟨⟩
    exact hv
  write v hv := by
    refine .get_bind fun d hd => ?_
    obtain ⟨w, prompts, hw, hprompted⟩ := hd.output
    simp only [hw]
    rw [if_pos (Numeral.writable_of_inRange hv)]
    exact prints_onWriter hprompted ⟨0, Text.prompted_line w.written (Numeral.render v)⟩

end Devices

namespace CommandLine
variable {fuel prompts : Nat} {openFile : String → Except OpenFault ByteArray} {stream : Stream}
  {stdout : Writer} {image : List Int} {file out err text : String} {trace : Bool} {m : Machine}

theorem loads_of_loadFile (h : loadFile file (openFile file) = .ok m) :
    ∃ image, Loads openFile file image ∧ m = .load image := by
  unfold loadFile at h
  split at h
  · cases h
  · split at h
    · cases h
    · rename_i bytes hopen
      split at h
      · cases h
      · rename_i text htext
        split at h
        · cases h
        · rename_i image hparse
          cases h
          exact ⟨image, ⟨bytes, text, hopen, htext, hparse⟩, rfl⟩

/-- A file that cannot be loaded makes the status 1, or leaves none. -/
theorem ne_finished_of_loadFile {o : Outcome} (h : loadFile file (openFile file) = .error o) :
    o ≠ .finished 0 out err := by
  unfold loadFile at h
  split at h
  · cases h
    nofun
  · split at h
    · cases h
      nofun
    · split at h
      · cases h
        nofun
      · split at h
        · cases h
          nofun
        · cases h

/-- A program that is run with status 0 has halted, and its dump has been printed. -/
theorem halted_of_runProgram
    (h : runProgram fuel trace true stream m stdout = .finished 0 out err) :
    ∃ s, Session.run Devices.wiring trace fuel 0 { machine := m, world := devices stream stdout } =
        .ok .halted s ∧ out = written s.world ++ (s.machine.dump ++ "\n") := by
  cases hs : Session.run Devices.wiring trace fuel 0
      { machine := m, world := devices stream stdout } with
  | ok p s =>
    cases p with
    | halted =>
      simp only [runProgram, hs, if_true] at h
      obtain ⟨-, rfl⟩ := of_after_eq_finished (Writer.costs_print s.machine.dump "\n") h
      exact ⟨s, rfl, rfl⟩
    | running a | reading t b =>
      simp only [runProgram, hs] at h
      cases h
  | error f s =>
    simp only [runProgram, hs] at h
    split at h
    · obtain ⟨hstatus, -⟩ := of_after_eq_finished Writer.costs_flush h
      cases hstatus
    · cases h

theorem prompted_of_run {s : Session Devices} (himage : ∀ v ∈ image, InRange v)
    (hstdout : stdout.written = "")
    (h : Session.run Devices.wiring trace fuel 0
      { machine := .load image, world := devices stream stdout } = .ok .halted s) :
    s.machine.Within InRange ∧ ∃ prompts, Text.Prompted prompts (written s.world) := by
  have hempty : Text.Prompted 0 stdout.written := ⟨[], .inl rfl, by rw [hstdout]; rfl⟩
  have hstart : Session.Within Devices.Prints
      { machine := .load image, world := devices stream stdout } :=
    ⟨Memory.within_ofList himage, ⟨stream, rfl⟩, stdout, 0, rfl, hempty⟩
  obtain ⟨hs, -⟩ := Session.ensures_run Devices.keeps_prints trace fuel 0 _ hstart
  have hs : s.Within Devices.Prints := by
    rw [h] at hs
    exact hs
  obtain ⟨hm, hprints⟩ := hs
  obtain ⟨w, prompts, hw, hprompted⟩ := hprints.output
  refine ⟨hm, prompts, ?_⟩
  simp only [written, standardOutput, hw]
  exact hprompted

theorem isFeed_of_isBreak {c : Char} (h : Text.isBreak c = false) : Text.isFeed c = false := by
  refine beq_eq_false_iff_ne.mpr ?_
  rintro rfl
  cases h

/-- The last line begins with the prompts. -/
theorem lastLine_of_prompted (h : Text.Prompted prompts text) (cells : List Int) :
    LastLine (text ++ (Source.render cells ++ "\n"))
      (String.ofList (List.replicate prompts '?') ++ Source.render cells ++ "\n") := by
  obtain ⟨whole, hwhole, htext⟩ := h
  have hfeed : ∀ c ∈ List.replicate prompts '?' ++ (Source.render cells).toList,
      Text.isFeed c = false := by
    intro c hc
    rcases List.mem_append.mp hc with hc | hc
    · rw [List.eq_of_mem_replicate hc]
      decide
    · exact isFeed_of_isBreak (Source.isBreak_of_mem_render hc)
  have hall : (text ++ (Source.render cells ++ "\n")).toList =
      whole ++ ((List.replicate prompts '?' ++ (Source.render cells).toList) ++ '\n' :: []) := by
    rw [String.toList_append, String.toList_append, htext, List.append_assoc, List.append_assoc]
    rfl
  have hline : (String.ofList (List.replicate prompts '?') ++ Source.render cells ++ "\n").toList =
      (List.replicate prompts '?' ++ (Source.render cells).toList) ++ ['\n'] := by
    rw [String.toList_append, String.toList_append, String.toList_ofList]
    rfl
  rw [LastLine, hall, hline, Text.feedLines_append hwhole, Text.feedLines_append_feed hfeed,
    Text.feedLines, List.getLast?_concat]

/-- In every state that a loaded program can come to, its dump is a source of its memory. If the
memory is printed at the end, the dump stands on the last line of the output, behind nothing but the
prompts that have been written since the last line feed. The standard output may be one that can
fail, as long as the run has ended with status 0. -/
theorem dump_loads_back :
    (∀ (text : List Char) (image : List Int) (s : Session Devices),
      Source.parse text = .ok image → s.Visits image →
      Source.parse s.machine.dump.toList = .ok s.machine.memory.toList) ∧
    ∀ (fuel : Nat) (openFile : String → Except OpenFault ByteArray) (stdin : Stdin)
      (stdout : Writer) (args : List String) (file : String) (trace : Bool) (out err : String),
      stdout.written = "" → parse args = .ok (.run file trace true) →
      execute fuel openFile stdin args stdout = .finished 0 out err →
      ∃ image s prompts, Loads openFile file image ∧
        Session.run Devices.wiring trace fuel 0
          { machine := .load image, world := devices stdin.reader stdout } = .ok .halted s ∧
        Text.Prompted prompts (written s.world) ∧
        LastLine out (String.ofList (List.replicate prompts '?') ++ s.machine.dump ++ "\n") ∧
        Source.parse s.machine.dump.toList = .ok s.machine.memory.toList := by
  constructor
  · intro text image s hparse hs
    exact Machine.parse_dump (hs.within (Source.inRange_of_parse hparse)).1
  · intro fuel openFile stdin stdout args file trace out err hstdout hargs hexecute
    rw [execute_of_parse hargs, Request.perform] at hexecute
    cases hload : loadFile file (openFile file) with
    | error o =>
      rw [hload] at hexecute
      exact absurd hexecute (ne_finished_of_loadFile hload)
    | ok m =>
      rw [hload] at hexecute
      obtain ⟨image, hloads, rfl⟩ := loads_of_loadFile hload
      obtain ⟨s, hrun, rfl⟩ := halted_of_runProgram hexecute
      obtain ⟨hm, prompts, hprompted⟩ := prompted_of_run hloads.inRange hstdout hrun
      exact ⟨image, s, prompts, hloads, hrun, hprompted, lastLine_of_prompted hprompted _,
        Machine.parse_dump hm⟩

/-- A program that asks for its last cell. -/
theorem dump_loads_back_asked :
    let openFile : String → Except OpenFault ByteArray := fun _ => .ok "3,5,99,0,0,0".toUTF8
    let out := "?3,5,99,0,0,7\n"
    execute 2 openFile (Streams.bytes.stdin "7\n") ["run", "-p", "prog.int"] =
        .finished 0 out "" ∧
      ∃ image s prompts, Loads openFile "prog.int" image ∧
        Session.run Devices.wiring false 2 0
          { machine := .load image, world := devices (Streams.bytes.reader "7\n") } =
            .ok .halted s ∧
        Text.Prompted prompts (written s.world) ∧
        LastLine out (String.ofList (List.replicate prompts '?') ++ s.machine.dump ++ "\n") ∧
        Source.parse s.machine.dump.toList = .ok s.machine.memory.toList := by
  intro openFile out
  have hargs : parse ["run", "-p", "prog.int"] = .ok (.run "prog.int" false true) := rfl
  have hexecute : execute 2 openFile (Streams.bytes.stdin "7\n") ["run", "-p", "prog.int"] =
      .finished 0 out "" := by decide +kernel
  exact ⟨hexecute, dump_loads_back.2 _ _ _ _ _ _ _ _ _ rfl hargs hexecute⟩

/-- The prompt stands on the last line of the output too, and with it the line is no source. -/
theorem last_line_is_no_source :
    let openFile : String → Except OpenFault ByteArray := fun _ => .ok "3,5,99,0,0,0".toUTF8
    let out := "?3,5,99,0,0,7\n"
    execute 2 openFile (Streams.bytes.stdin "7\n") ["run", "-p", "prog.int"] =
        .finished 0 out "" ∧
      LastLine out out ∧ ∀ image, Source.parse out.toList ≠ .ok image := by
  intro openFile out
  refine ⟨by decide +kernel, ?_, fun image hparse => ?_⟩
  · unfold LastLine
    decide +kernel
  · have hnone : (Source.parse out.toList).toOption = none := by decide +kernel
    rw [hparse] at hnone
    cases hnone

end CommandLine

end Intcode
