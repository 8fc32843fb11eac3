import Intcode.Proofs.DebuggerScript
import Intcode.Proofs.MachineGrowth
import Intcode.Proofs.SystemRange

/-! # What a session does

`Steps` says what a step of a debugger can come to, by what the instruction does on the machine
alone. To look at the current instruction may add cells at the end of the memory, and nothing else.
What looks and steps keep, whatever is said in the status or shown in the window, is kept by every
request. -/

namespace Intcode

namespace Debugger

/-- The text that is given to an instruction stands for `v`. -/
def Gives (line : Option String) (v : Int) : Prop :=
  ∃ text, line = some text ∧ Input.integer text.toList = .ok v

end Debugger

namespace Machine
open Debugger (Gives)
variable {a : Int} {m m' : Machine} {f : Fault} {line : Option String}

/-- The instruction at `a` fails: by itself, because the text that is given to it stands for no
value, or because the value has no place to go. -/
inductive Fails (line : Option String) (a : Int) (m : Machine) (f : Fault) (m' : Machine) : Prop
  | alone (h : execute a m = .error f m')
  | refused {t b : Int} {text : String} (h : execute a m = .ok (.read t b) m')
    (hline : line = some text) (hv : Input.integer text.toList = .error f)
  | misplaced {t b v : Int} {m₁ : Machine} (h : execute a m = .ok (.read t b) m₁)
    (hv : Gives line v) (hp : poke t v m₁ = .error f m')

theorem glance_of_halt (h : execute a m = .ok .halt m') : m'.glance a = m' := by
  have := glance_execute a m
  rwa [h] at this

theorem glance_of_fails (h : Fails line a m f m') : m'.glance a = m' := by
  have hm := glance_execute a m
  cases h with
  | alone h | refused h =>
    rw [h] at hm
    exact hm
  | @misplaced t b v m₁ h hv hp =>
    rw [h] at hm
    by_cases ht : t < 0
    · rw [poke_of_neg m₁ ht] at hp
      cases hp
      exact hm
    · rw [poke_of_nonneg m₁ (Int.not_lt.mp ht)] at hp
      cases hp

end Machine

namespace Debugger
open Machine (Fails ReadsAt)
variable {d d' : Debugger} {f : Fault} {line given : Option String} {fuel : Nat}

/-! ### Looks -/

/-- The session after a look at the current instruction. -/
def looked (d : Debugger) : Debugger := { d with machine := d.machine.glance d.ip }

theorem looked_looked (d : Debugger) : d.looked.looked = d.looked := by
  show { d with machine := (d.machine.glance d.ip).glance d.ip } = d.looked
  rw [Machine.glance_glance]
  rfl

theorem current_looked (d : Debugger) : current d.looked = current d := by
  obtain ⟨machine, ip, halted, status, view, outputs, capture⟩ := d
  simp only [current, looked, Machine.instructionAt_glance]

theorem finalState_current (d : Debugger) : finalState (current d) = d.looked := by
  have hm := Machine.finalState_instructionAt d.ip d.machine
  cases h : Machine.instructionAt d.ip d.machine with
  | ok i m =>
    rw [h] at hm
    rw [current_of_ok h, looked, ← hm]
    rfl
  | error f m =>
    rw [h] at hm
    by_cases hf : f.Tellable
    · rw [current_of_told h hf, looked, ← hm]
      rfl
    · rw [current_of_untold h hf, looked, ← hm]
      rfl

theorem waiting_looked (d : Debugger) : waiting d.looked = waiting d := by
  show EStateM.bind current _ d.looked = EStateM.bind current _ d
  simp only [EStateM.bind, current_looked]

theorem finalState_waiting (d : Debugger) : finalState (waiting d) = d.looked := by
  have hd := finalState_current d
  cases h : current d with
  | ok i d' =>
    rw [h] at hd
    rw [waiting_of_current h]
    exact hd
  | error f d' =>
    rw [h] at hd
    rw [waiting, bind_of_error h]
    exact hd

/-- A look finds out whether the current instruction reads, unless it cannot be told why there is
none; then it cannot be executed either. -/
theorem waiting_cases (d : Debugger) :
    (ReadsAt d.ip d.machine ∧ waiting d = .ok true d.looked) ∨
    (¬ ReadsAt d.ip d.machine ∧ waiting d = .ok false d.looked) ∨
    ∃ f, ¬ f.Tellable ∧ Machine.execute d.ip d.machine = .error f d.looked.machine ∧
      waiting d = .error f d.looked := by
  have hm := Machine.finalState_instructionAt d.ip d.machine
  cases h : Machine.instructionAt d.ip d.machine with
  | ok i m =>
    rw [h] at hm
    obtain rfl : m = d.machine.glance d.ip := hm
    have hw := waiting_of_current (current_of_ok h)
    obtain ⟨ha, hi⟩ := Machine.decodeAt_of_found h
    by_cases hop : i.operation = .input
    · refine .inl ⟨⟨ha, i, hi, hop⟩, ?_⟩
      rw [hw]
      simp only [Option.any_some, hop]
      rfl
    · refine .inr (.inl ⟨fun ⟨_, j, hj, hopj⟩ => ?_, ?_⟩)
      · rw [hi] at hj
        cases hj
        exact hop hopj
      · rw [hw, Option.any_some, beq_eq_false_iff_ne.mpr hop]
        rfl
  | error f m =>
    rw [h] at hm
    obtain rfl : m = d.machine.glance d.ip := hm
    have he := Machine.execute_of_unfound h
    by_cases hf : f.Tellable
    · refine .inr (.inl ⟨fun ⟨ha, i, hi, _⟩ => ?_, waiting_of_current (current_of_told h hf)⟩)
      have := (Machine.instructionAt_of_decoded ha hi).symm.trans h
      cases this
    · refine .inr (.inr ⟨f, hf, he, ?_⟩)
      rw [waiting, bind_of_error (current_of_untold h hf)]
      rfl

/-! ### Steps -/

/-- What a step can come to while the session goes on: it asks for a value, the instruction is
completed, it halts, or it fails. Only a fault that cannot be told is passed on. -/
inductive Steps (line : Option String) (d : Debugger) : EStateM.Result Fault Debugger Bool → Prop
  | asks (hr : ReadsAt d.ip d.machine) (hline : line = none) :
    Steps line d (.ok true { d.looked with status := .inputRequired })
  | moves {e : Event} {b : Int} {m : Machine} (hm : d.machine.Moves d.ip e b m)
    (hline : ∀ v, e = .receive v → Gives line v) :
    Steps line d (.ok true { d with
      machine := m, ip := b, status := .ready, outputs := d.outputs ++ Event.sent [e] })
  | halts {m : Machine} (h : Machine.execute d.ip d.machine = .ok .halt m) :
    Steps line d (.ok false { d with machine := m, halted := true, status := .halted })
  | fails {f : Fault} {m : Machine} (h : Fails line d.ip d.machine f m) (hf : f.Tellable) :
    Steps line d (.ok false { d with machine := m, halted := true, status := .failed f })
  | raises {f : Fault} {m : Machine} (h : Fails line d.ip d.machine f m) (hf : ¬ f.Tellable) :
    Steps line d (.error f { d with machine := m })

theorem append_nil (outputs : Array Int) : outputs ++ ([] : List Int) = outputs := by
  refine Array.toList_inj.mp ?_
  rw [Array.toList_appendList, List.append_nil]

/-- The failure of an instruction ends the session if it can be told. -/
theorem steps_of_fails {m : Machine} (hc : d.capture = .ofList "capture" [])
    (h : Fails line d.ip d.machine f m)
    (hs : Session.step (wiring given) false d.ip ⟨d.looked.machine, d.capture, ""⟩ =
      .error f ⟨m, d.capture, ""⟩) : Steps line d (execute given d.looked) := by
  by_cases hf : f.Tellable
  · rw [execute_of_told hs hc hf, append_nil, ← hc]
    exact .fails h hf
  · rw [execute_of_untold hs hc hf, append_nil, ← hc]
    exact .raises h hf

/-- The values that an instruction is given are those of the step, if it reads. -/
theorem execute_cases (hc : d.capture = .ofList "capture" [])
    (hgiven : ReadsAt d.ip d.machine → given = line ∧ line ≠ none) :
    Steps line d (execute given d.looked) := by
  have hexec : Machine.execute d.looked.ip d.looked.machine = Machine.execute d.ip d.machine :=
    Machine.execute_glance d.ip d.machine
  cases he : Machine.execute d.ip d.machine with
  | error f m => exact steps_of_fails hc (.alone he) (Session.step_of_error (hexec.trans he))
  | ok e m =>
    cases e with
    | next b =>
      rw [execute_of_running (Session.step_of_next (hexec.trans he)) hc, ← hc]
      exact .moves (.next he) nofun
    | halt =>
      rw [execute_of_halted (Session.step_of_halt (hexec.trans he)) hc, append_nil, ← hc]
      exact .halts he
    | write v b =>
      have hwrite : (wiring given).write v d.capture = .ok () (.ofList "capture" [v]) := by
        rw [hc]
        exact write_capture given v
      rw [execute_of_running (Session.step_of_write (hexec.trans he) hwrite) rfl, ← hc]
      exact .moves (.write he) nofun
    | read t b =>
      obtain ⟨rfl, hline⟩ := hgiven (Machine.readsAt_of_reads he)
      obtain ⟨text, rfl⟩ := Option.ne_none_iff_exists'.mp hline
      have hissue : Session.issue (wiring (some text)) false d.ip ⟨d.looked.machine, d.capture, ""⟩ =
          .ok (.reading t b) ⟨m, d.capture, ""⟩ := Session.issue_of_read (hexec.trans he)
      cases hv : Input.integer text.toList with
      | error f =>
        have hread : (wiring (some text)).read d.capture = .error f d.capture := by
          simp only [wiring, hv]
          rfl
        refine steps_of_fails hc (.refused he rfl hv) ?_
        rw [Session.step_of_reading hissue]
        exact Session.complete_of_error hread
      | ok v =>
        have hread : (wiring (some text)).read d.capture = .ok (some v) d.capture := by
          simp only [wiring, hv]
          rfl
        cases hp : Machine.poke t v m with
        | error f m' =>
          refine steps_of_fails hc (.misplaced he ⟨text, rfl, hv⟩ hp) ?_
          rw [Session.step_of_reading hissue]
          exact Session.complete_of_some_error hread hp
        | ok old m' =>
          rw [execute_of_running (Session.step_of_read (hexec.trans he) hread hp) hc, ← hc]
          refine .moves (.read he hp) ?_
          rintro _ ⟨⟩
          exact ⟨text, rfl, hv⟩

theorem step_of_halted (h : d.halted = true) : step line d = .ok false d := by
  rw [step, get_bind, h]
  rfl

theorem step_cases (hd : d.halted = false) (hc : d.capture = .ofList "capture" []) :
    Steps line d (step line d) := by
  rw [step, get_bind, hd]
  rcases waiting_cases d with ⟨hr, hw⟩ | ⟨hr, hw⟩ | ⟨f, hf, he, hw⟩
  · cases line with
    | none =>
      show Steps none d ((waiting >>= fun _ => _) d)
      rw [bind_of_ok hw]
      exact .asks hr rfl
    | some text =>
      show Steps _ d ((waiting >>= fun _ => _) d)
      rw [bind_of_ok hw]
      exact execute_cases hc fun _ => ⟨rfl, Option.some_ne_none text⟩
  · show Steps _ d ((waiting >>= fun _ => _) d)
    rw [bind_of_ok hw]
    exact execute_cases hc fun h => absurd h hr
  · show Steps _ d ((waiting >>= fun _ => _) d)
    rw [bind_of_error hw]
    exact .raises (.alone he) hf

/-- Only a fault that cannot be told is passed on. -/
theorem Steps.untold {r : EStateM.Result Fault Debugger Bool} (h : Steps line d r) :
    Yields (fun _ => True) (fun f => ¬ f.Tellable) r := by
  cases h with
  | raises _ hf => exact hf
  | asks | moves | halts | fails => exact trivial

/-- A step says whether the session goes on. -/
theorem Steps.goesOn {b : Bool} (hd : d.halted = false) (h : Steps line d (.ok b d')) :
    b = !d'.halted := by
  cases h with
  | asks | moves =>
    show true = !d.halted
    rw [hd]
    rfl
  | halts | fails => rfl

/-! ### Sessions -/

/-- What looks, remarks, the window and the steps of a session keep, if nothing is left on the
capture channel. -/
structure Stays (P : Debugger → Prop) : Prop where
  capture : ∀ {d}, P d → d.capture = .ofList "capture" []
  looked : ∀ {d}, P d → P d.looked
  status : ∀ status, (∀ f, status ≠ .failed f) → ∀ d, P d → P { d with status }
  view : ∀ view d, P d → P { d with view }
  step : ∀ {d line r}, P d → d.halted = false → Steps line d r → P (finalState r)

theorem Stays.kept {P : Debugger → Prop} (h : Stays P) : Kept P (fun f => ¬ f.Tellable) where
  look d hd := by
    have hlook : P (finalState (current d)) := by
      rw [finalState_current]
      exact h.looked hd
    refine ⟨hlook, ?_⟩
    cases hx : Machine.instructionAt d.ip d.machine with
    | ok i m =>
      rw [current_of_ok hx]
      exact trivial
    | error f m =>
      by_cases hf : f.Tellable
      · rw [current_of_told hx hf]
        exact trivial
      · rw [current_of_untold hx hf]
        exact hf
  step line d hd := by
    cases hh : d.halted with
    | true =>
      rw [step_of_halted hh]
      exact ⟨hd, trivial⟩
    | false =>
      have hs : Steps line d (Debugger.step line d) := step_cases hh (h.capture hd)
      exact ⟨h.step hd hh hs, hs.untold⟩
  status := h.status
  view := h.view

theorem not_tellable_unwritable : ¬ Fault.unwritable.Tellable := fun h => h.1 rfl

theorem Stays.session {P : Debugger → Prop} (h : Stays P) (hd : P d) (requests : List Request) :
    P (requests.foldl Debugger.after d) :=
  h.kept.session not_tellable_unwritable hd requests

/-- Between two requests nothing is left on the capture channel, and a session that has ended has
all cells up to its current instruction. -/
structure Orderly (d : Debugger) : Prop where
  capture : d.capture = .ofList "capture" []
  glanced : d.halted = true → d.machine.glance d.ip = d.machine

theorem Orderly.looked_of_halted (h : d.Orderly) (hh : d.halted = true) : d.looked = d := by
  rw [looked, h.glanced hh]

theorem orderly_start (m : Machine) (a : Int) : (start m a).Orderly := ⟨rfl, nofun⟩

theorem stays_orderly : Stays Orderly where
  capture h := h.capture
  looked h := ⟨h.capture, fun _ => Machine.glance_glance _ _⟩
  status _ _ _ h := ⟨h.capture, h.glanced⟩
  view _ _ h := ⟨h.capture, h.glanced⟩
  step := by
    intro d line r h hd hs
    have contra : ∀ {p : Prop}, d.halted = true → p := fun hh => by rw [hd] at hh; cases hh
    cases hs with
    | asks => exact ⟨h.capture, contra⟩
    | moves => exact ⟨h.capture, contra⟩
    | halts he => exact ⟨h.capture, fun _ => Machine.glance_of_halt he⟩
    | fails hf => exact ⟨h.capture, fun _ => Machine.glance_of_fails hf⟩
    | raises => exact ⟨h.capture, contra⟩

end Debugger

end Intcode
