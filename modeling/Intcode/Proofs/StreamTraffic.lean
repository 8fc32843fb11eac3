import Intcode.Proofs.LineSequence
import Intcode.Proofs.NumeralStream
import Intcode.Proofs.SessionValues
import Intcode.Proofs.StageFailure

/-! # Values on lines and values on channels

A program that reads a line for each value and writes one for each value runs as it does between two
channels. Both runs have the same exchanges with their surroundings; on a channel an exchange is the
value only, on a stream it is spelled: a question mark before each line that is read, and the line
itself for each value that is written. The runs part in one thing, the fault at the end of what
there is to read. -/

namespace Intcode
open Word (InRange)

/-- What a machine asks of its surroundings or tells them. What is asked for may not be there. -/
inductive Exchange
  | asked
  | told (v : Int)
deriving DecidableEq, Repr

namespace Exchange

/-- What a writer gets to see. -/
def text : Exchange → List Char
  | asked => Devices.promptText.toList
  | told v => Numeral.line v

def spelling (es : List Exchange) : String := String.ofList (es.flatMap text)

def told? : Exchange → Option Int
  | asked => none
  | told v => some v

/-- The values that are told. -/
def values (es : List Exchange) : List Int := es.filterMap told?

theorem spelling_append (es fs : List Exchange) : spelling (es ++ fs) = spelling es ++ spelling fs := by
  rw [spelling, List.flatMap_append, String.ofList_append]
  rfl

theorem spelling_told (v : Int) : spelling [told v] = String.ofList (Numeral.line v) := by
  rw [spelling, List.flatMap_singleton]
  rfl

theorem values_append (es fs : List Exchange) : values (es ++ fs) = values es ++ values fs :=
  List.filterMap_append

theorem ne_mark_of_mem_line {v : Int} {c : Char} (h : c ∈ Numeral.line v) : c ≠ '?' := by
  rcases List.mem_append.mp h with h | h
  · rintro rfl
    exact Numeral.not_mem_digits rfl (by decide) h
  · rw [List.mem_singleton.mp h]
    decide

/-- Without the question marks there is a line for each value that is told. -/
theorem filter_spelling (es : List Exchange) :
    (spelling es).toList.filter (· != '?') = (values es).flatMap Numeral.line := by
  rw [spelling, String.toList_ofList]
  induction es with
  | nil => rfl
  | cons e es ih =>
    rw [List.flatMap_cons, List.filter_append, ih]
    cases e with
    | asked => rfl
    | told v =>
      have hline : (Numeral.line v).filter (· != '?') = Numeral.line v :=
        List.filter_eq_self.mpr fun c hc => bne_iff_ne.mpr (ne_mark_of_mem_line hc)
      rw [text, hline]
      rfl

end Exchange

/-- The exchange that an effect asks for. -/
def Effect.exchanges : Effect → List Exchange
  | read .. => [.asked]
  | write v _ => [.told v]
  | next _ | halt => []

/-- The exchange of the instruction at `a`. It is none if the instruction fails before. -/
def Machine.exchanges (a : Int) (m : Machine) : List Exchange :=
  match execute a m with
  | .ok e _ => e.exchanges
  | .error .. => []

theorem Machine.exchanges_of_ok {a : Int} {m m' : Machine} {e : Effect}
    (h : execute a m = .ok e m') : m.exchanges a = e.exchanges := by
  simp only [exchanges, h]

theorem Machine.exchanges_of_error {a : Int} {m m' : Machine} {f : Fault}
    (h : execute a m = .error f m') : m.exchanges a = [] := by
  simp only [exchanges, h]

/-- The exchanges of a run, in their order, the one that fails included. -/
def Session.exchanges {σ : Type} (w : Wiring σ) : Nat → Int → Session σ → List Exchange
  | 0, _, _ => []
  | fuel + 1, a, s =>
    s.machine.exchanges a ++
      match step w false a s with
      | .ok (.running b) s => exchanges w fuel b s
      | _ => []

/-- The fault of a run between streams for that of the run between channels: it is the same, but the
end of the input is reported in other words. -/
def Fault.Translates (source : String) (f g : Fault) : Prop :=
  g = f ∨ f.report = .device "Input" ("recv on closed channel " ++ Text.quote source) ∧
    g.report = .device "Input" "end of input"

theorem Fault.translates_starvation (source : String) :
    Fault.Translates source (.starvation source) (.device .input .endOfInput) := by
  have tellable : ∀ cause, (Fault.device .input cause).Tellable := by
    refine fun cause => ⟨Fault.noConfusion, fun v hv => ?_⟩
    exact absurd hv List.not_mem_nil
  refine .inr ⟨?_, ?_⟩
  · exact if_pos (tellable _)
  · exact if_pos (tellable _)

/-! ### Devices -/

namespace Devices
variable {kind : CommandLine.Streams} {v : Int} {vs : List Int} {text : String}

/-- A reader with a line for each value, and a writer that has got a text. -/
def streams (kind : CommandLine.Streams) (unread : List Int) (text : String) : Devices where
  input := .reader (kind.feed unread)
  output := .writer { passed := text }

theorem read_streams (d : Devices) (hd : d = streams kind vs text) : wiring.read d =
    (do return some (← readLine (kind.feed vs)) : DevicesM (Option Int))
      (streams kind vs (text ++ promptText)) := by
  subst hd
  rfl

theorem read_streams_nil : wiring.read (streams kind [] text) =
    .error (.device .input .endOfInput) (streams kind [] (text ++ promptText)) := by
  have hline : readLine (kind.feed []) (streams kind [] (text ++ promptText)) =
      .error (.device .input .endOfInput) (streams kind [] (text ++ promptText)) := by
    simp only [readLine, CommandLine.Streams.readLine_feed_nil]
    rfl
  rw [read_streams _ rfl, bind_of_error hline]

theorem read_streams_cons (h : InRange v) : wiring.read (streams kind (v :: vs) text) =
    .ok (some v) (streams kind vs (text ++ promptText)) := by
  have hline : readLine (kind.feed (v :: vs)) (streams kind (v :: vs) (text ++ promptText)) =
      .ok v (streams kind vs (text ++ promptText)) := by
    have hne : (Numeral.line v).isEmpty = false := by
      rw [List.isEmpty_eq_false_iff]
      exact List.append_ne_nil_of_right_ne_nil _ (List.cons_ne_nil _ _)
    simp only [readLine, CommandLine.Streams.readLine_feed_cons, hne, Numeral.integer_line h]
    rfl
  rw [read_streams _ rfl, bind_of_ok hline]
  rfl

theorem write_streams (h : InRange v) : wiring.write v (streams kind vs text) =
    .ok () (streams kind vs (text ++ String.ofList (Numeral.line v))) := by
  have hwritable : Numeral.Writable v := Numeral.writable_of_inRange h
  show write v (streams kind vs text) = _
  simp only [write, hwritable, streams, Numeral.ofList_line]
  rfl

end Devices

/-! ### Sessions -/

namespace Session
open Devices (wiring)
variable {source sink : String} {kind : CommandLine.Streams} {es : List Exchange} {a : Int}
  {s t : Session Devices}

/-- After the same exchanges a session between channels and one between streams have the same
machine, and the same values are left to be read. -/
structure Beside (source sink : String) (kind : CommandLine.Streams) (es : List Exchange)
    (s t : Session Devices) : Prop where
  machine : t.machine = s.machine
  range : s.machine.Within InRange
  worlds : ∃ unread, (∀ v ∈ unread, InRange v) ∧
    s.world = .channels source sink unread (Exchange.values es) ∧
    t.world = .streams kind unread (Exchange.spelling es)

/-- Two runs that come to the same end, with these sessions beside each other. -/
def EndBeside (source sink : String) (kind : CommandLine.Streams) (es : List Exchange) :
    EStateM.Result Fault (Session Devices) Progress →
    EStateM.Result Fault (Session Devices) Progress → Prop
  | .ok p s, .ok q t => q = p ∧ Beside source sink kind es s t
  | .error f s, .error g t => f.Translates source g ∧ Beside source sink kind es s t
  | .ok .., .error .. | .error .., .ok .. => False

theorem Beside.setMachine (h : Beside source sink kind es s t) {m : Machine}
    (hm : m.Within InRange) :
    Beside source sink kind es { s with machine := m } { t with machine := m } :=
  ⟨rfl, hm, h.worlds⟩

/-- Both take the next value, or find that there is none. -/
theorem complete_beside (h : Beside source sink kind es s t) (x b : Int) :
    EndBeside source sink kind (es ++ [.asked]) (complete wiring x b s)
      (complete wiring x b t) := by
  obtain ⟨hmachine, hrange, unread, hunread, hs, ht⟩ := h
  have hvalues : Exchange.values (es ++ [.asked]) = Exchange.values es := by
    rw [Exchange.values_append]
    exact List.append_nil _
  have hspelling : Exchange.spelling (es ++ [.asked]) =
      Exchange.spelling es ++ Devices.promptText := Exchange.spelling_append es [.asked]
  cases unread with
  | nil =>
    have hr : wiring.read s.world = .error (.starvation source) s.world := by
      rw [hs]
      rfl
    have hr' : wiring.read t.world = .error (.device .input .endOfInput)
        (.streams kind [] (Exchange.spelling es ++ Devices.promptText)) := by
      rw [ht]
      exact Devices.read_streams_nil
    rw [complete_of_error hr, complete_of_error hr']
    refine ⟨Fault.translates_starvation source, hmachine, hrange, [], hunread, ?_, ?_⟩
    · rw [hvalues, hs]
    · rw [hspelling]
  | cons v vs =>
    have hv : InRange v := hunread v List.mem_cons_self
    have hvs : ∀ u ∈ vs, InRange u := fun u hu => hunread u (List.mem_cons_of_mem _ hu)
    have hr : wiring.read s.world =
        .ok (some v) (.channels source sink vs (Exchange.values es)) := by
      rw [hs]
      rfl
    have hr' : wiring.read t.world =
        .ok (some v) (.streams kind vs (Exchange.spelling es ++ Devices.promptText)) := by
      rw [ht]
      exact Devices.read_streams_cons hv
    have hpoke := Machine.ensures_poke (fun _ h => h) hv x
    cases hp : Machine.poke x v s.machine with
    | ok old m =>
      have hp' : Machine.poke x v t.machine = .ok old m := by rw [hmachine, hp]
      rw [complete_of_some hr hp, complete_of_some hr' hp']
      exact ⟨rfl, rfl, (hpoke.of_ok hrange hp).1, vs, hvs, by rw [hvalues], by rw [hspelling]⟩
    | error f m =>
      have hp' : Machine.poke x v t.machine = .error f m := by rw [hmachine, hp]
      rw [complete_of_some_error hr hp, complete_of_some_error hr' hp']
      exact ⟨.inl rfl, rfl, (hpoke.of_error hrange hp).1, vs, hvs, by rw [hvalues],
        by rw [hspelling]⟩

theorem step_beside (h : Beside source sink kind es s t) (a : Int) :
    EndBeside source sink kind (es ++ s.machine.exchanges a) (step wiring false a s)
      (step wiring false a t) := by
  have hexecute := Machine.ensures_execute (fun _ h => h) a
  cases he : Machine.execute a s.machine with
  | error f m =>
    have he' : Machine.execute a t.machine = .error f m := by rw [h.machine, he]
    have hm := (hexecute.of_error h.range he).1
    rw [step_of_error he, step_of_error he', Machine.exchanges_of_error he, List.append_nil]
    exact ⟨.inl rfl, h.setMachine hm⟩
  | ok e m =>
    have he' : Machine.execute a t.machine = .ok e m := by rw [h.machine, he]
    obtain ⟨hm, hv⟩ := hexecute.of_ok h.range he
    rw [Machine.exchanges_of_ok he]
    cases e with
    | next b =>
      rw [step_of_next he, step_of_next he']
      refine ⟨rfl, ?_⟩
      rw [show Effect.exchanges (.next b) = [] from rfl, List.append_nil]
      exact h.setMachine hm
    | halt =>
      rw [step_of_halt he, step_of_halt he']
      refine ⟨rfl, ?_⟩
      rw [show Effect.exchanges .halt = [] from rfl, List.append_nil]
      exact h.setMachine hm
    | read x b =>
      rw [step_of_reading (issue_of_read he), step_of_reading (issue_of_read he')]
      exact complete_beside (h.setMachine hm) x b
    | write v b =>
      obtain ⟨unread, hunread, hs, ht⟩ := h.worlds
      have hw : wiring.write v s.world =
          .ok () (.channels source sink unread (Exchange.values es ++ [v])) := by
        rw [hs]
        exact Devices.write_channels
      have hw' : wiring.write v t.world = .ok ()
          (.streams kind unread (Exchange.spelling es ++ String.ofList (Numeral.line v))) := by
        rw [ht]
        exact Devices.write_streams hv
      rw [step_of_write he hw, step_of_write he' hw']
      refine ⟨rfl, rfl, hm, unread, hunread, ?_, ?_⟩
      · rw [Exchange.values_append]
        rfl
      · rw [Exchange.spelling_append, show Effect.exchanges (.write v b) = [.told v] from rfl,
          Exchange.spelling_told]

theorem run_beside (h : Beside source sink kind es s t) (fuel : Nat) (a : Int) :
    EndBeside source sink kind (es ++ exchanges wiring fuel a s) (run wiring false fuel a s)
        (run wiring false fuel a t) ∧
      exchanges wiring fuel a t = exchanges wiring fuel a s := by
  induction fuel generalizing es a s t with
  | zero =>
    rw [exchanges, List.append_nil]
    exact ⟨⟨rfl, h⟩, rfl⟩
  | succ fuel ih =>
    have hstep := step_beside h a
    have hfirst : t.machine.exchanges a = s.machine.exchanges a := by rw [h.machine]
    simp only [exchanges, run, hfirst]
    cases hs : step wiring false a s with
    | error f s' =>
      cases ht : step wiring false a t with
      | ok q t' =>
        rw [hs, ht] at hstep
        exact hstep.elim
      | error g t' =>
        rw [hs, ht] at hstep
        rw [bind_of_error hs, bind_of_error ht, List.append_nil]
        exact ⟨hstep, rfl⟩
    | ok p s' =>
      cases ht : step wiring false a t with
      | error g t' =>
        rw [hs, ht] at hstep
        exact hstep.elim
      | ok q t' =>
        rw [hs, ht] at hstep
        obtain ⟨rfl, hbeside⟩ := hstep
        rw [bind_of_ok hs, bind_of_ok ht]
        cases q with
        | reading x b | halted =>
          simp only [List.append_nil, and_true]
          exact ⟨rfl, hbeside⟩
        | running b =>
          obtain ⟨hrun, hexchanges⟩ := ih hbeside b
          rw [← List.append_assoc]
          exact ⟨hrun, congrArg (s.machine.exchanges a ++ ·) hexchanges⟩

/-- What a run between channels, `r`, and one between streams, `u`, have in common if the exchanges
of both are `es`. -/
structure SameTraffic (source : String) (es : List Exchange)
    (r u : EStateM.Result Fault (Session Devices) Progress) : Prop where
  outcome : match r, u with
    | .ok p _, .ok q _ => q = p
    | .error f _, .error g _ => f.Translates source g
    | .ok .., .error .. | .error .., .ok .. => False
  machine : (finalState u).machine = (finalState r).machine
  sent : (finalState r).world.written = Exchange.values es
  text : CommandLine.written (finalState u).world = Exchange.spelling es
  lines : Text.feedLines ((CommandLine.written (finalState u).world).toList.filter (· != '?')) =
    (finalState r).world.written.map Numeral.line

theorem EndBeside.sameTraffic {r u : EStateM.Result Fault (Session Devices) Progress}
    (h : EndBeside source sink kind es r u) : SameTraffic source es r u := by
  have hbeside : Beside source sink kind es (finalState r) (finalState u) := by
    cases r <;> cases u
    case ok.ok | error.error => exact h.2
    case ok.error | error.ok => exact h.elim
  obtain ⟨unread, -, hr, hu⟩ := hbeside.worlds
  have hsent : (finalState r).world.written = Exchange.values es := by
    rw [hr, Devices.written_channels]
  have htext : CommandLine.written (finalState u).world = Exchange.spelling es := by
    rw [hu]
    exact String.append_empty
  constructor
  case outcome =>
    cases r <;> cases u
    case ok.ok | error.error => exact h.1
    case ok.error | error.ok => exact h.elim
  case machine => exact hbeside.machine
  case sent => exact hsent
  case text => exact htext
  case lines => rw [hsent, htext, Exchange.filter_spelling, Numeral.feedLines_lines]

/-- A program that is given its values on the lines of a stream of bytes or of characters, and
writes to a stream, runs as it does between two channels: after every number of instructions it
stands at the same instruction or has come to the same end, with the same machine. It writes a
question mark for every value that it asks for, also for one that is not there, and a line for every
value that the other run sends. -/
theorem run_streams_eq_channels (source sink : String) (kind : CommandLine.Streams)
    {image vs : List Int} (hi : ∀ v ∈ image, InRange v) (hv : ∀ v ∈ vs, InRange v) (fuel : Nat)
    (start : Int) :
    let s : Session Devices := ⟨.load image, .channels source sink vs [], ""⟩
    let t : Session Devices :=
      ⟨.load image, CommandLine.devices (kind.reader (String.ofList (vs.flatMap Numeral.line))), ""⟩
    SameTraffic source (exchanges wiring fuel start t) (run wiring false fuel start s)
        (run wiring false fuel start t) ∧
      exchanges wiring fuel start s = exchanges wiring fuel start t := by
  intro s t
  have hbeside : Beside source sink kind [] s t :=
    ⟨rfl, Memory.within_ofList hi, vs, hv, rfl, rfl⟩
  obtain ⟨hend, hexchanges⟩ := run_beside hbeside fuel start
  rw [hexchanges]
  exact ⟨hend.sameTraffic, rfl⟩

/-- A program that is given -7 and writes it, and then reads once more. -/
theorem run_streams_eq_channels_starved :
    let image : List Int := [3, 9, 4, 9, 3, 9, 99]
    let s : Session Devices := ⟨.load image, .channels "in" "out" [-7] [], ""⟩
    let t : Session Devices :=
      ⟨.load image, CommandLine.devices (CommandLine.Streams.reader .bytes "-7\n"), ""⟩
    let r := run wiring false 3 0 s
    let u := run wiring false 3 0 t
    r = .error (.starvation "in") (finalState r) ∧
      SameTraffic "in" [.asked, .told (-7), .asked] r u ∧
      CommandLine.written (finalState u).world = "?-7\n?" := by
  intro image s t r u
  have hi : ∀ v ∈ image, InRange v := by decide
  have hv : ∀ v ∈ [(-7 : Int)], InRange v := by decide
  obtain ⟨hsame, hexchanges⟩ := run_streams_eq_channels "in" "out" .bytes hi hv 3 0
  have hes : exchanges wiring 3 0 s = [.asked, .told (-7), .asked] := by decide +kernel
  have htext : Exchange.spelling [.asked, .told (-7), .asked] = "?-7\n?" := by decide +kernel
  rw [← hexchanges, hes] at hsame
  exact ⟨by decide +kernel, hsame, hsame.text.trans htext⟩

end Session

end Intcode
