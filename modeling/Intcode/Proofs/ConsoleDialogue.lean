import Intcode.CommandLine
import Intcode.Proofs.DebuggerHorizon
import Intcode.Proofs.WriterFlush

/-! # A dialogue on the standard streams

The debugger on the standard streams shows what a dialogue over the lines that can be read shows.
Besides what cuts the dialogue short there are two things that can cut the debugger short: a standard
output that takes no more screens, and a standard input that fails before a line has ended the
session. -/

namespace Intcode
open Debugger (commandOfLine dialogue obeyed quits)

namespace Debugger
variable {fuel : Nat} {line : String} {goesOn : Bool} {d d' : Debugger}

/-- One of the lines ends the session. -/
def Quits (lines : List (List Char)) : Prop := ∃ line ∈ lines, quits (commandOfLine line) = true

/-- The number of screens that are shown: one before each line that is obeyed, and the last one. -/
def screens (lines : List (List Char)) : Nat := (obeyed lines).length + 1

theorem goesOn_of_bind {α : Type} {x : DebuggerM α} (hquits : quits line = false) :
    Ensures (fun _ => True) (fun goesOn => goesOn = !quits line) (fun _ => True)
      (x >>= fun _ => pure true) := by
  intro d _
  refine ⟨trivial, ?_⟩
  cases hx : x d with
  | ok a d₁ =>
    rw [bind_of_ok hx, hquits]
    rfl
  | error f d₁ =>
    rw [bind_of_error hx]
    trivial

/-- A command that is obeyed ends the session if it says so, and only then. -/
theorem ensures_goesOn (fuel : Nat) (line : String) :
    Ensures (fun _ => True) (fun goesOn => goesOn = !quits line) (fun _ => True)
      (command fuel line) := by
  unfold command
  split
  case h_3 hwords => exact .ret (by simp [quits, hwords])
  case h_9 text rest _ hquits _ _ _ _ _ hwords =>
    have hquits : quits line = false := by simpa [quits, hwords] using hquits
    have hlook : Ensures (fun _ => True) (fun _ => True) (fun _ => True) waiting := by
      intro d _
      refine ⟨trivial, ?_⟩
      cases waiting d <;> trivial
    refine hlook.bind fun reads _ => ?_
    cases reads with
    | true => exact goesOn_of_bind hquits
    | false => exact goesOn_of_bind hquits
  all_goals
    rename_i hwords
    exact goesOn_of_bind (by simp [quits, hwords])

theorem goesOn_of_command (h : command fuel line d = .ok goesOn d') : goesOn = !quits line :=
  ((ensures_goesOn fuel line).of_ok trivial h).2

theorem screens_of_quits {cs : List Char} (h : quits (commandOfLine cs) = true)
    (rest : List (List Char)) : screens (cs :: rest) = 1 := by
  simp [screens, obeyed, h]

theorem screens_of_obeyed {cs : List Char} (h : quits (commandOfLine cs) = false)
    (rest : List (List Char)) : screens (cs :: rest) = 1 + screens rest := by
  simp [screens, obeyed, h, Nat.add_comm]

theorem quits_cons_of_obeyed {cs : List Char} {rest : List (List Char)}
    (h : quits (commandOfLine cs) = false) : Quits (cs :: rest) ↔ Quits rest := by
  simp [Quits, h]

end Debugger

namespace CommandLine.Console
open Debugger (screens Quits goesOn_of_command)
variable {α : Type} {fuel : Nat} {behind : Option AbortCause} {lines : List (List Char)}
  {shown : String} {a : α} {x : DebuggerM α} {d d' : Debugger} {w : Writer} {c : Console}

theorem onDebugger_of_ok (h : x d = .ok a d') (w : Writer) :
    onDebugger x ⟨d, w⟩ = .ok a ⟨d', w⟩ := by
  simp only [onDebugger, h]

theorem onDebugger_eq_ok (h : onDebugger x ⟨d, w⟩ = .ok a c) :
    ∃ d', x d = .ok a d' ∧ c = ⟨d', w⟩ := by
  unfold onDebugger at h
  dsimp only at h
  cases hx : x d <;> rw [hx] at h <;> cases h
  exact ⟨_, rfl, rfl⟩

/-! ### One screen -/

theorem costs_showScreen (screen : String) :
    Writer.Costs 4 1 (screen ++ "\n> ") (showScreen screen) := by
  have htext : screen ++ "\n" ++ ("> " ++ "" ++ "") = screen ++ "\n> " := String.append_assoc
  rw [← htext]
  exact (Writer.costs_print screen "\n").bind ((Writer.costs_print "> " "").bind Writer.costs_flush)

theorem ask_of_ok (h : Debugger.ask d = .ok shown d') (hw : w.Writes 4) (hf : w.Flushes 1) :
    ∃ w', ask ⟨d, w⟩ = .ok () ⟨d', w'⟩ ∧ w.Spends 4 1 shown w' := by
  obtain ⟨screen, d₁, hrender, hshown⟩ := bind_eq_ok h
  cases hshown
  rcases costs_showScreen screen w with ⟨-, -, w', hshow, hspent⟩ | ⟨hnot, -⟩
  · refine ⟨w', ?_, hspent⟩
    rw [ask, bind_of_ok (onDebugger_of_ok hrender w)]
    simp only [onStdout, hshow]
  · exact absurd ⟨hw, hf⟩ hnot

theorem ask_eq_ok (h : ask ⟨d, w⟩ = .ok () c) :
    ∃ shown, Debugger.ask d = .ok shown c.debugger ∧ w.Writes 4 ∧ w.Flushes 1 ∧
      w.Spends 4 1 shown c.stdout := by
  obtain ⟨screen, c₁, hscreen, hshow⟩ := bind_eq_ok h
  obtain ⟨d₁, hrender, rfl⟩ := onDebugger_eq_ok hscreen
  rcases costs_showScreen screen w with ⟨hw, hf, w', hok, hspent⟩ | ⟨-, reason, w', herror⟩
  · simp only [onStdout, hok] at hshow
    cases hshow
    exact ⟨screen ++ "\n> ", bind_of_ok hrender, hw, hf, hspent⟩
  · simp only [onStdout, herror] at hshow
    cases hshow

/-! ### All lines -/

/-- A dialogue that comes to its end does so on the standard streams too, if these hold out. -/
theorem obey_of_dialogue (h : dialogue fuel lines d = .ok shown d')
    (hw : w.Writes (4 * screens lines)) (hf : w.Flushes (screens lines))
    (hbehind : behind = none ∨ Quits lines) :
    ∃ w', obey fuel behind lines ⟨d, w⟩ = .ok () ⟨d', w'⟩ ∧ w'.written = w.written ++ shown := by
  induction lines generalizing d w shown with
  | nil =>
    obtain rfl : behind = none := hbehind.resolve_right fun ⟨_, hmem, _⟩ => nomatch hmem
    obtain ⟨w', hask, hspent⟩ := ask_of_ok h hw hf
    exact ⟨w', bind_of_ok hask, hspent.written⟩
  | cons cs rest ih =>
    obtain ⟨first, d₁, hask, h⟩ := bind_eq_ok h
    obtain ⟨goesOn, d₂, hcommand, h⟩ := bind_eq_ok h
    have hgoesOn := goesOn_of_command hcommand
    cases hquits : quits (commandOfLine cs) with
    | true =>
      rw [hquits] at hgoesOn
      subst hgoesOn
      cases h
      rw [Debugger.screens_of_quits hquits] at hw hf
      obtain ⟨w', hask, hspent⟩ := ask_of_ok hask hw hf
      rw [obey, bind_of_ok hask, bind_of_ok (onDebugger_of_ok hcommand w')]
      exact ⟨w', rfl, hspent.written⟩
    | false =>
      rw [hquits] at hgoesOn
      subst hgoesOn
      obtain ⟨more, d₃, hrest, h⟩ := bind_eq_ok h
      cases h
      rw [Debugger.screens_of_obeyed hquits] at hw hf
      rw [Nat.mul_add] at hw
      rw [Debugger.quits_cons_of_obeyed hquits] at hbehind
      obtain ⟨w₁, hask, hspent⟩ := ask_of_ok hask (hw.mono (Nat.le_add_right _ _))
        (hf.mono (Nat.le_add_right _ _))
      obtain ⟨w', hobey, hwritten⟩ := ih hrest ((hspent.writes _).mpr hw) ((hspent.flushes _).mpr hf)
        hbehind
      rw [obey, bind_of_ok hask, bind_of_ok (onDebugger_of_ok hcommand w₁)]
      exact ⟨w', hobey, by rw [hwritten, hspent.written, String.append_assoc]⟩

/-- What comes to its end on the standard streams is a dialogue, and these have held out. -/
theorem obey_eq_ok (h : obey fuel behind lines ⟨d, w⟩ = .ok () c) :
    (∃ shown, dialogue fuel lines d = .ok shown c.debugger) ∧ w.Writes (4 * screens lines) ∧
      w.Flushes (screens lines) ∧ (behind = none ∨ Quits lines) := by
  induction lines generalizing d w with
  | nil =>
    obtain ⟨⟨⟩, c₁, hask, h⟩ := bind_eq_ok h
    obtain ⟨shown, hdialogue, hw, hf, -⟩ := ask_eq_ok hask
    cases behind with
    | none =>
      cases h
      exact ⟨⟨shown, hdialogue⟩, hw, hf, .inl rfl⟩
    | some cause => cases h
  | cons cs rest ih =>
    obtain ⟨⟨⟩, ⟨d₁, w₁⟩, hask, h⟩ := bind_eq_ok h
    obtain ⟨first, hfirst, hw, hf, hspent⟩ := ask_eq_ok hask
    obtain ⟨goesOn, c₂, hobeyed, h⟩ := bind_eq_ok h
    obtain ⟨d₂, hcommand, rfl⟩ := onDebugger_eq_ok hobeyed
    have hgoesOn := goesOn_of_command hcommand
    rw [dialogue, bind_of_ok hfirst, bind_of_ok hcommand]
    cases hquits : quits (commandOfLine cs) with
    | true =>
      rw [hquits] at hgoesOn
      subst hgoesOn
      cases h
      rw [Debugger.screens_of_quits hquits]
      exact ⟨⟨first, rfl⟩, hw, hf, .inr ⟨cs, List.mem_cons_self, hquits⟩⟩
    | false =>
      rw [hquits] at hgoesOn
      subst hgoesOn
      obtain ⟨⟨shown, hrest⟩, hw', hf', hbehind⟩ := ih h
      rw [Debugger.screens_of_obeyed hquits, Nat.mul_add, Debugger.quits_cons_of_obeyed hquits]
      refine ⟨⟨first ++ shown, ?_⟩, (hspent.writes _).mp hw', (hspent.flushes _).mp hf', hbehind⟩
      exact bind_of_ok hrest

end CommandLine.Console

end Intcode
