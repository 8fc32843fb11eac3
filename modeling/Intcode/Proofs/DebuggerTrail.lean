import Intcode.Proofs.DebuggerSession
import Intcode.Proofs.Horizon

/-! # The trail of a session

Whatever is asked of a debugger, its machine has gone a trail of looks and instructions, and the
values sent on the trail are the outputs. A session ends where the machine halts, or fails with a
fault that can be told, and then stays as it is. A fault that cannot be told is passed on, and the
instruction may be tried again. -/

namespace Intcode

/-! ### The faults of a session -/

/-- Two texts differ if neither begins like the other one. -/
theorem append_ne_append {p q : String} (hp : ¬ p.toList <+: q.toList)
    (hq : ¬ q.toList <+: p.toList) (x y : String) : p ++ x ≠ q ++ y := by
  intro h
  have hx : p.toList <+: (p ++ x).toList := ⟨x.toList, (String.toList_append ..).symm⟩
  have hy : q.toList <+: (p ++ x).toList := by
    rw [h]
    exact ⟨y.toList, (String.toList_append ..).symm⟩
  rcases List.prefix_or_prefix_of_prefix hx hy with h | h
  · exact hp h
  · exact hq h

theorem ne_append {p q : String} (hq : ¬ q.toList <+: p.toList) (y : String) : p ≠ q ++ y := by
  rintro rfl
  exact hq ⟨y.toList, (String.toList_append ..).symm⟩

/-- A text that is not about a missing input, nor about an output. -/
def Quiet (text : String) : Prop :=
  text ≠ "Input: no input configured" ∧ ∀ rest, text ≠ "Output: " ++ rest

theorem quiet_append {p : String}
    (hp : ¬ p.toList <+: "Input: no input configured".toList ∧ ¬ p.toList <+: "Output: ".toList)
    (hq : ¬ "Output: ".toList <+: p.toList) (x : String) : Quiet (p ++ x) :=
  ⟨(ne_append hp.1 x).symm, append_ne_append hp.2 hq x⟩

/-- The faults that an instruction has by itself, or with the text that is given to it. -/
def Fault.Given (f : Fault) : Prop := f.Own ∨ ∃ g, f = .device .input (.numeral g)

theorem DecodeFault.quiet_message (f : DecodeFault) : Quiet f.report.message := by
  cases f with
  | unknownOpcode cell a =>
    show Quiet (("Unknown opcode " ++ _) ++ _)
    rw [String.append_assoc]
    exact quiet_append (by decide) (by decide) _
  | unknownMode digit cell a =>
    show Quiet (("Unknown parameter mode " ++ _) ++ _)
    rw [String.append_assoc]
    exact quiet_append (by decide) (by decide) _

theorem NumeralFault.quiet_message (f : NumeralFault) : Quiet ("Input: " ++ f.message) := by
  cases f with
  | malformed text =>
    show Quiet ("Input: " ++ ("not an integer: " ++ _))
    rw [← String.append_assoc]
    exact quiet_append (by decide) (by decide) _
  | tooLong digits =>
    show Quiet ("Input: " ++ (((("Exceeds the limit (" ++ _) ++ _) ++ _) ++ _))
    rw [String.append_assoc, String.append_assoc, String.append_assoc, ← String.append_assoc]
    exact quiet_append (by decide) (by decide) _
  | outOfRange text =>
    show Quiet ("Input: " ++ ("out of 64-bit range: " ++ _))
    rw [← String.append_assoc]
    exact quiet_append (by decide) (by decide) _

theorem Fault.Given.quiet_message {f : Fault} (h : f.Given) (hf : f.Tellable) :
    Quiet f.message := by
  rw [Fault.message, Fault.report, if_pos hf]
  rcases h with h | ⟨g, rfl⟩
  · cases f with
    | decode f => exact f.quiet_message
    | negativeAddress a =>
      show Quiet ("Negative address " ++ _)
      exact quiet_append (by decide) (by decide) _
    | valueTarget operand =>
      show Quiet (("Value mode used as write target (operand " ++ _) ++ _)
      rw [String.append_assoc]
      exact quiet_append (by decide) (by decide) _
    | device | channel | unwritable => exact h.elim
  · exact g.quiet_message

namespace Machine
variable {a : Int} {m m' : Machine} {f : Fault} {line : Option String}

theorem given_of_fails (h : Fails line a m f m') : f.Given := by
  cases h with
  | alone h => exact .inl (own_of_execute h)
  | @refused t b text h hline hv =>
    unfold Input.integer at hv
    cases hp : Numeral.parse (Text.trim text.toList) with
    | ok v =>
      rw [hp] at hv
      cases hv
    | error g =>
      rw [hp] at hv
      cases hv
      exact .inr ⟨g, rfl⟩
  | misplaced h hv hp => exact .inl (own_of_poke hp)

end Machine

namespace Debugger
open Machine (Fails ReadsAt)
variable {d d' : Debugger} {f : Fault} {line : Option String} {fuel : Nat} {m m₁ m' : Machine}
  {a b : Int} {es : List Event}

/-- No status tells of a missing input or of an output. -/
def Status.Quiet (status : Status) : Prop :=
  status.message ≠ "Error: Input: no input configured" ∧
    ∀ rest, status.message ≠ "Error: Output: " ++ rest

theorem Status.quiet_of_not_failed {status : Status} (h : ∀ f, status ≠ .failed f) :
    status.Quiet := by
  have key : ∀ t, status.message ≠ "Error: " ++ t := by
    intro t
    cases status with
    | failed f => exact absurd rfl (h f)
    | badAddress text | unknownCommand text =>
      exact append_ne_append (by decide) (by decide) _ _
    | ready | inputRequired | inputUsage | halted => exact ne_append (by decide) t
  refine ⟨key "Input: no input configured", fun rest ht => key ("Output: " ++ rest) ?_⟩
  rw [ht, ← String.append_assoc]
  rfl

theorem Status.quiet_failed (h : f.Given) (hf : f.Tellable) : (Status.failed f).Quiet := by
  obtain ⟨hinput, houtput⟩ := h.quiet_message hf
  have key : ∀ t, (Status.failed f).message = "Error: " ++ t → f.message = t := by
    intro t ht
    exact String.append_right_inj _ |>.mp ht
  refine ⟨fun h => hinput (key _ h), fun rest h => houtput rest (key _ ?_)⟩
  rw [h, ← String.append_assoc]
  rfl

/-! ### Trails -/

/-- What a session has done with its machine: it has looked at the current instruction, completed
it, or tried it and met a fault that cannot be told. -/
inductive Trail : Int → Machine → List Event → Int → Machine → Prop
  | start (a : Int) (m : Machine) : Trail a m [] a m
  | look {a b : Int} {m m₁ : Machine} {es : List Event} (h : Trail a m es b m₁) :
    Trail a m es b (m₁.glance b)
  | move {a b c : Int} {m m₁ m₂ : Machine} {es : List Event} {e : Event} (h : Trail a m es b m₁)
    (hm : m₁.Moves b e c m₂) : Trail a m (es ++ [e]) c m₂
  | retry {a b : Int} {m m₁ m₂ : Machine} {es : List Event} {line : Option String} {f : Fault}
    (h : Trail a m es b m₁) (hfails : Fails line b m₁ f m₂) (hf : ¬ f.Tellable) :
    Trail a m es b m₂

/-- How a session ends at the instruction at `a`, and the status that says so. -/
inductive Closes (a : Int) (m : Machine) : Status → Machine → Prop
  | halt {m' : Machine} (h : Machine.execute a m = .ok .halt m') : Closes a m .halted m'
  | fail {m' : Machine} {line : Option String} {f : Fault} (h : Fails line a m f m')
    (hf : f.Tellable) : Closes a m (.failed f) m'

/-- The trail from `a` on ends at the current instruction, and the outputs were sent on it. -/
def Open (a : Int) (m : Machine) (d : Debugger) : Prop :=
  ∃ es, Trail a m es d.ip d.machine ∧ d.outputs.toList = Event.sent es

/-- The trail from `a` on leads to the current instruction, which has ended the session as the
status says. -/
def Closed (a : Int) (m : Machine) (status : Status) (d : Debugger) : Prop :=
  ∃ es m₁, Trail a m es d.ip m₁ ∧ d.outputs.toList = Event.sent es ∧
    Closes d.ip m₁ status d.machine

/-- What holds of a session that has begun at `a` on `m`. -/
structure Contained (a : Int) (m : Machine) (d : Debugger) : Prop where
  orderly : d.Orderly
  quiet : d.status.Quiet
  isOpen : d.halted = false → d.Open a m
  closed : d.halted = true → ∃ status, d.Closed a m status

theorem contained_start (m : Machine) (a : Int) : (start m a).Contained a m where
  orderly := orderly_start m a
  quiet := Status.quiet_of_not_failed nofun
  isOpen _ := ⟨[], .start a m, rfl⟩
  closed := nofun

theorem Contained.looked (h : d.Contained a m) : d.looked.Contained a m where
  orderly := stays_orderly.looked h.orderly
  quiet := h.quiet
  isOpen hd := by
    obtain ⟨es, ht, ho⟩ := h.isOpen hd
    exact ⟨es, ht.look, ho⟩
  closed hd := by
    rw [h.orderly.looked_of_halted hd]
    exact h.closed hd

/-- A step keeps what holds of the session; and if it ends the session, the status says how. -/
theorem Contained.steps {r : EStateM.Result Fault Debugger Bool} (h : d.Contained a m)
    (hd : d.halted = false) (hs : Steps line d r) :
    (finalState r).Contained a m ∧
      ((finalState r).halted = true → (finalState r).Closed a m (finalState r).status) := by
  have ho := stays_orderly.step h.orderly hd hs
  obtain ⟨es, ht, houts⟩ := h.isOpen hd
  have contra : ∀ {p : Prop}, d.halted = true → p := fun hh => by rw [hd] at hh; cases hh
  cases hs with
  | asks =>
    exact ⟨⟨ho, Status.quiet_of_not_failed nofun, h.looked.isOpen, contra⟩, contra⟩
  | @moves e b m₂ hm hline =>
    refine ⟨⟨ho, Status.quiet_of_not_failed nofun, fun _ => ⟨es ++ [e], ht.move hm, ?_⟩, contra⟩,
      contra⟩
    show (d.outputs ++ Event.sent [e]).toList = Event.sent (es ++ [e])
    rw [Array.toList_appendList, houts, Event.sent, Event.sent, Event.sent, List.filterMap_append]
  | @halts m₂ he =>
    have hc : Closed a m .halted { d with machine := m₂, halted := true, status := .halted } :=
      ⟨es, d.machine, ht, houts, .halt he⟩
    exact ⟨⟨ho, Status.quiet_of_not_failed nofun, nofun, fun _ => ⟨_, hc⟩⟩, fun _ => hc⟩
  | @fails f m₂ hfails hf =>
    have hc : Closed a m (.failed f) { d with machine := m₂, halted := true, status := .failed f } :=
      ⟨es, d.machine, ht, houts, .fail hfails hf⟩
    exact ⟨⟨ho, Status.quiet_failed (Machine.given_of_fails hfails) hf, nofun, fun _ => ⟨_, hc⟩⟩,
      fun _ => hc⟩
  | raises hfails hf =>
    exact ⟨⟨ho, h.quiet, fun _ => ⟨es, ht.retry hfails hf, houts⟩, contra⟩, contra⟩

theorem stays_contained (a : Int) (m : Machine) : Stays (Contained a m) where
  capture h := h.orderly.capture
  looked h := h.looked
  status _ hs _ h := ⟨⟨h.orderly.capture, h.orderly.glanced⟩, Status.quiet_of_not_failed hs,
    h.isOpen, h.closed⟩
  view _ _ h := ⟨⟨h.orderly.capture, h.orderly.glanced⟩, h.quiet, h.isOpen, h.closed⟩
  step h hd hs := (h.steps hd hs).1

/-! ### Commands -/

/-- The session goes on. -/
def Going (a : Int) (m : Machine) (d : Debugger) : Prop := d.Contained a m ∧ d.halted = false

/-- If the session has ended, the status still says how. -/
def Concluded (a : Int) (m : Machine) (d : Debugger) : Prop :=
  d.Contained a m ∧ (d.halted = true → d.Closed a m d.status)

theorem Going.concluded (h : d.Going a m) : d.Concluded a m :=
  ⟨h.1, fun hh => by rw [h.2] at hh; cases hh⟩

theorem going_waiting (a : Int) (m : Machine) :
    Leads (Going a m) (Going a m) (fun _ => True) (fun f => ¬ f.Tellable) waiting := by
  intro d hd
  obtain ⟨-, hY⟩ := (stays_contained a m).kept.waiting d hd.1
  refine ⟨?_, hY⟩
  rw [finalState_waiting]
  exact ⟨hd.1.looked, hd.2⟩

theorem concluded_setStatus {status : Status} (hs : ∀ f, status ≠ .failed f) :
    Leads (Going a m) (Concluded a m) (fun _ => True) (fun f => ¬ f.Tellable)
      (setStatus status) := by
  intro d hd
  exact ⟨Going.concluded ⟨(stays_contained a m).status status hs d hd.1, hd.2⟩, trivial⟩

theorem concluded_setView (view : Option Nat) :
    Leads (Going a m) (Concluded a m) (fun _ => True) (fun f => ¬ f.Tellable)
      (modify fun d => { d with view } : DebuggerM Unit) := by
  intro d hd
  exact ⟨Going.concluded ⟨(stays_contained a m).view view d hd.1, hd.2⟩, trivial⟩

theorem concluded_step (line : Option String) :
    Leads (Going a m) (Concluded a m) (fun _ => True) (fun f => ¬ f.Tellable) (step line) := by
  rintro d ⟨hc, hd⟩
  have hs : Steps line d (step line d) := step_cases hd hc.orderly.capture
  exact ⟨hc.steps hd hs, hs.untold⟩

theorem concluded_run (fuel : Nat) :
    Leads (Concluded a m) (Concluded a m) (fun _ => True) (fun f => ¬ f.Tellable) (run fuel) := by
  induction fuel with
  | zero => exact fun d hd => ⟨hd, trivial⟩
  | succ fuel ih =>
    intro d hd
    cases hh : d.halted with
    | true =>
      rw [run_of_halted hh]
      exact ⟨hd, trivial⟩
    | false =>
      rw [run, get_bind, hh]
      refine (going_waiting a m).bind (fun _ => Going.concluded) (fun reads _ => ?_) d ⟨hd.1, hh⟩
      cases reads with
      | true => exact concluded_setStatus (by rintro f ⟨⟩)
      | false => exact (concluded_step none).bind (fun _ h => h) fun _ _ => ih

theorem covers_concluded (a : Int) (m : Machine) :
    Covers fun _ x => Leads (Going a m) (Concluded a m) (fun _ => True) (fun f => ¬ f.Tellable) x where
  stop _ hd := ⟨hd.concluded, trivial⟩
  goesOn h := h.bind (fun _ h => h) fun _ _ _ hd => ⟨hd, trivial⟩
  afterLook h := (going_waiting a m).bind (fun _ => Going.concluded) fun reads _ => h reads
  step := concluded_step
  run fuel d hd := concluded_run fuel d hd.concluded
  status _ := concluded_setStatus
  view := concluded_setView

/-! ### A session that has ended -/

/-- The session has ended, and is as `d` was but for the status and the window. -/
structure Rests (d d' : Debugger) : Prop where
  orderly : d'.Orderly
  halted : d'.halted = true
  ip : d'.ip = d.ip
  outputs : d'.outputs = d.outputs
  machine : d'.machine = d.machine

theorem stays_rests (d : Debugger) : Stays (Rests d) where
  capture h := h.orderly.capture
  looked h := by
    rw [h.orderly.looked_of_halted h.halted]
    exact h
  status _ _ _ h := ⟨⟨h.orderly.capture, h.orderly.glanced⟩, h.halted, h.ip, h.outputs, h.machine⟩
  view _ _ h := ⟨⟨h.orderly.capture, h.orderly.glanced⟩, h.halted, h.ip, h.outputs, h.machine⟩
  step h hd _ := by
    rw [h.halted] at hd
    cases hd

/-! ### All sessions -/

theorem general_not_mem_of_untold (h : ¬ f.Tellable) :
    Category.general ∉ f.report.category.ancestry := by
  rw [Fault.report, if_neg h]
  decide

/-- What is true of every session, whatever is asked of it. Between two requests nothing is left on
the capture channel, and the outputs are the values sent on the trail of the machine. A step comes
to what the current instruction does, and says whether the session has not ended. If an instruction
fails, the session ends there, and the status tells the fault; a command passes on no fault but one
that cannot be told. No status tells of a missing input or of an output. And a session that has
ended stays as it is. -/
theorem session_contained (m : Machine) (a : Int) (before : List Request) :
    let d := before.foldl after (start m a)
    d.capture = .ofList "capture" [] ∧ d.status.Quiet ∧
      (d.halted = false → d.Open a m) ∧ (d.halted = true → ∃ status, d.Closed a m status) ∧
      (d.halted = false → ∀ line, Steps line d (step line d)) ∧
      (∀ line b d', step line d = .ok b d' → b = !d'.halted) ∧
      (∀ fuel line f d', command fuel line d = .error f d' →
        ¬ f.Tellable ∧ Category.general ∉ f.report.category.ancestry) ∧
      (d.halted = false → ∀ fuel line, let d' := finalState (command fuel line d)
        d'.halted = true → d'.Closed a m d'.status) ∧
      (d.halted = true → ∀ later : List Request, let d' := later.foldl after d
        d'.halted = true ∧ d'.ip = d.ip ∧ d'.outputs = d.outputs ∧ d'.machine = d.machine) := by
  intro d
  have hd : d.Contained a m := (stays_contained a m).session (contained_start m a) before
  have hsteps : d.halted = false → ∀ line, Steps line d (step line d) :=
    fun hh _ => step_cases hh hd.orderly.capture
  refine ⟨hd.orderly.capture, hd.quiet, hd.isOpen, hd.closed, hsteps, ?_, ?_, ?_, ?_⟩
  · intro line b d' hstep
    cases hh : d.halted with
    | true =>
      rw [step_of_halted hh] at hstep
      cases hstep
      rw [hh]
      rfl
    | false =>
      have hs := hsteps hh line
      rw [hstep] at hs
      exact hs.goesOn hh
  · intro fuel line f d' hcommand
    obtain ⟨-, hf⟩ := ((stays_contained a m).kept.command fuel line).of_error hd hcommand
    exact ⟨hf, general_not_mem_of_untold hf⟩
  · intro hh fuel line
    exact ((covers_concluded a m).command fuel line d ⟨hd, hh⟩).1.2
  · intro hh later
    have hr : Rests d d := ⟨hd.orderly, hh, rfl, rfl, rfl⟩
    have hl := (stays_rests d).session hr later
    exact ⟨hl.halted, hl.ip, hl.outputs, hl.machine⟩

/-- A session that fails at its second instruction, after it has written 5. -/
theorem session_contained_failing :
    let m := Machine.load [104, 5, 4, -1]
    let d := [Request.step none, .step none].foldl after (start m 0)
    d.halted = true ∧ d.ip = 2 ∧ d.outputs = #[5] ∧
      d.status.message = "Error: Negative address -1" ∧ (∃ status, d.Closed 0 m status) ∧
      ∀ later : List Request, let d' := later.foldl after d
        d'.halted = true ∧ d'.ip = 2 ∧ d'.outputs = #[5] ∧ d'.machine = d.machine := by
  intro m d
  have hh : d.halted = true := by decide +kernel
  have hip : d.ip = 2 := by decide +kernel
  have houts : d.outputs = #[5] := by decide +kernel
  obtain ⟨-, -, -, hclosed, -, -, -, -, hlater⟩ :=
    session_contained m 0 [Request.step none, .step none]
  refine ⟨hh, hip, houts, by decide +kernel, hclosed hh, fun later => ?_⟩
  obtain ⟨hh', hip', houts', hm'⟩ := hlater hh later
  exact ⟨hh', hip'.trans hip, houts'.trans houts, hm'⟩

/-! ### A failure that does not end the session -/

theorem Steps.of_next {r : EStateM.Result Fault Debugger Bool} (h : Steps line d r)
    (he : Machine.execute d.ip d.machine = .ok (.next b) m') :
    r = .ok true { d with
      machine := m', ip := b, status := .ready, outputs := d.outputs ++ ([] : List Int) } := by
  have alone : ∀ {p : Prop} {e : Effect} {m₁ : Machine},
      Machine.execute d.ip d.machine = .ok e m₁ → e ≠ .next b → p := by
    intro p e m₁ h hne
    rw [he] at h
    cases h
    exact absurd rfl hne
  cases h with
  | asks hr =>
    obtain ⟨t, c, ht⟩ := Machine.reads_of_readsAt he hr
    cases ht
  | moves hm =>
    cases hm with
    | next h =>
      rw [he] at h
      cases h
      rfl
    | write h => exact alone h nofun
    | read h => exact alone h nofun
  | halts h => exact alone h nofun
  | fails hf | raises hf =>
    cases hf with
    | alone h =>
      rw [he] at h
      cases h
    | refused h | misplaced h => exact alone h nofun

theorem Steps.of_untold {r : EStateM.Result Fault Debugger Bool} (h : Steps line d r)
    (he : Machine.execute d.ip d.machine = .error f m') (hf : ¬ f.Tellable)
    (hr : ¬ ReadsAt d.ip d.machine) : r = .error f { d with machine := m' } := by
  have contra : ∀ {p : Prop} {e : Effect} {m₁ : Machine},
      Machine.execute d.ip d.machine = .ok e m₁ → p := by
    intro p e m₁ h
    rw [he] at h
    cases h
  cases h with
  | asks h => exact absurd h hr
  | moves hm => cases hm with | next h | write h | read h => exact contra h
  | halts h => exact contra h
  | fails h ht =>
    cases h with
    | alone h =>
      rw [he] at h
      cases h
      exact absurd ht hf
    | refused h | misplaced h => exact contra h
  | raises h =>
    cases h with
    | alone h =>
      rw [he] at h
      cases h
      rfl
    | refused h | misplaced h => exact contra h

/-- The second instruction of the program fails, but its fault names an integer that cannot be
written: the step passes it on, and the session has not ended. -/
theorem step_leaves_session_open :
    let n : Int := 1 - (Nat.pow 10 Numeral.digitLimit : Nat)
    let m := Machine.load (twice n)
    (∀ v ∈ twice n, Numeral.Writable v) ∧ ∃ d f d',
      step none (start m 0) = .ok true d ∧ d.ip = 2 ∧
      (∃ m', Machine.execute 2 d.machine = .error f m') ∧
      step none d = .error f d' ∧ d'.halted = false ∧ d'.status = .ready := by
  intro n m
  obtain ⟨hwritable, hneg, hf⟩ := twice_untold (n := n) rfl
  clear_value n
  have hfirst : Steps none (start m 0) (step none (start m 0)) := step_cases rfl rfl
  have hd := hfirst.of_next (execute_twice n)
  let d : Debugger := { start m 0 with machine := twiceAt n (0 + n) #[⟨0, 109⟩], ip := 2 }
  have hsecond : Steps none d (step none d) := step_cases rfl rfl
  have hexec := @execute_twiceAt n (0 + n) #[⟨0, 109⟩] hneg
  refine ⟨hwritable, d, _, _, hd, rfl, ⟨_, hexec⟩,
    hsecond.of_untold hexec hf not_readsAt_twiceAt, rfl, rfl⟩

end Debugger

end Intcode
