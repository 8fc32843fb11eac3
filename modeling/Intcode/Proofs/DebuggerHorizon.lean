import Intcode.Debugger.Screen
import Intcode.Proofs.DebuggerStep
import Intcode.Proofs.RunHorizon

/-! # Screens that can be shown

A debugger breaks off when its screen holds an integer that is too long to be written. Within the
horizon of its steps the machine brings up no such integer. The memory window can be moved to any
address, though, so a dialogue breaks off exactly when it obeys a command that moves the window out
of sight. -/

namespace Intcode
open Word (InRange)

theorem Channel.told_deliver {v : Int} (hv : InRange v) :
    Ensures Channel.Within (fun _ => True) (fun f => f.Plain ∧ f.Tellable) (Channel.deliver v) := by
  intro c hc
  unfold Channel.deliver
  cases hs : c.send v with
  | ok d => exact ⟨hc.send hv hs, trivial⟩
  | error f => exact ⟨hc, trivial, Fault.tellable_device _ _⟩

namespace Debugger
variable {d : Debugger} {a b k fuel : Nat} {line : String}

/-- A window from `a` on can be shown: every row begins with the first address in it. -/
def InSight (a : Nat) : Prop := a + (rowCount - 1) * rowWidth < Nat.pow 10 Numeral.digitLimit

theorem InSight.mono (h : InSight b) (hab : a ≤ b) : InSight a :=
  Nat.lt_of_le_of_lt (Nat.add_le_add_right hab _) h

theorem InSight.lt (h : InSight a) : a < Nat.pow 10 Numeral.digitLimit :=
  Nat.lt_of_le_of_lt (Nat.le_add_right a _) h

/-- What holds of a debugger that has executed `k` instructions. -/
structure Settled (k : Nat) (d : Debugger) : Prop where
  machine : d.machine.Settled k
  ip : d.ip.natAbs + 4 ≤ horizon k
  outputs : ∀ v ∈ d.outputs.toList, InRange v
  capture : d.capture.Within
  view : ∀ a ∈ d.view, InSight a

theorem Settled.mono {j : Nat} (h : d.Settled j) (hj : j ≤ k) : d.Settled k :=
  ⟨h.machine.mono hj, Nat.le_trans h.ip (horizon_mono hj), h.outputs, h.capture, h.view⟩

theorem settled_start {image : List Int} (h : ∀ v ∈ image, InRange v) :
    Settled 0 { machine := .load image } := by
  refine ⟨Machine.settled_load h, ?_, nofun, nofun, nofun⟩
  show (0 : Int).natAbs + 4 ≤ horizon 0
  decide

/-! ### Steps -/

theorem tells (line : Option String) : (wiring line).Tells Channel.Within where
  read := by
    unfold wiring
    cases line with
    | none => exact .fail ⟨trivial, Fault.tellable_device _ _⟩
    | some text =>
      dsimp only
      cases hv : Input.integer text.toList with
      | ok v => exact .ret ⟨v, rfl, Input.inRange_of_integer hv⟩
      | error f => exact .fail (Input.told_of_integer hv)
  write _ hv := Channel.told_deliver hv

/-- Within the horizon it can be told why the current instruction does not decode. -/
theorem settled_current (hk : InSight (horizon k)) :
    Ensures (Settled k) (fun _ => True) (fun _ => False) current := by
  intro d hd
  have hip : d.ip.natAbs ≤ horizon k := Nat.le_trans (Nat.le_add_right _ 4) hd.ip
  obtain ⟨hm, hY⟩ := Machine.bounded_instructionAt hip d.machine hd.machine
  cases hx : Machine.instructionAt d.ip d.machine with
  | ok i m =>
    rw [hx] at hm
    rw [current_of_ok hx]
    exact ⟨⟨hm, hd.ip, hd.outputs, hd.capture, hd.view⟩, trivial⟩
  | error f m =>
    rw [hx] at hm hY
    have htold : f.Tellable := (Fault.Bounded.expected hY).2 hk.lt
    rw [current_of_told hx htold]
    exact ⟨⟨hm, hd.ip, hd.outputs, hd.capture, hd.view⟩, trivial⟩

theorem settled_waiting (hk : InSight (horizon k)) :
    Ensures (Settled k) (fun _ => True) (fun _ => False) waiting :=
  (settled_current hk).bind fun _ _ => .ret trivial

theorem settled_setStatus (status : Status) :
    Ensures (Settled k) (fun _ => True) (fun _ => False) (setStatus status) :=
  fun _ hd => ⟨⟨hd.machine, hd.ip, hd.outputs, hd.capture, hd.view⟩, trivial⟩

theorem settled_execute (hk : InSight (horizon (k + 1))) (line : Option String) :
    Leads (Settled k) (Settled (k + 1)) (fun _ => True) (fun _ => False) (execute line) := by
  rintro ⟨machine, ip, halted, status, view, outputs, capture⟩ hd
  have hip : ip.natAbs + 4 ≤ horizon (k + 1) :=
    Nat.le_trans hd.ip (horizon_mono (Nat.le_add_right k 1))
  obtain ⟨hs, hY⟩ := Session.settled_step (tells line) false hd.ip ⟨machine, capture, ""⟩
    ⟨hd.machine, hd.capture, .inl rfl⟩
  have after : ∀ {s : Session Channel} {next : Int} {halted status},
      s.Settled Channel.Within (k + 1) → next.natAbs + 4 ≤ horizon (k + 1) →
      Settled (k + 1) ⟨s.machine, next, halted, status, view, outputs ++ s.world.drain.1,
        s.world.drain.2⟩ := by
    intro s next halted status hs hnext
    obtain ⟨hwritten, hcapture⟩ := hs.world.drain
    refine ⟨hs.machine, hnext, fun v hv => ?_, hcapture, hd.view⟩
    rw [Array.toList_appendList] at hv
    rcases List.mem_append.mp hv with hv | hv
    · exact hd.outputs v hv
    · exact hwritten v hv
  simp only [execute]
  cases hr : Session.step (wiring line) false ip ⟨machine, capture, ""⟩ with
  | ok p s =>
    rw [hr] at hs hY
    rcases hY with rfl | ⟨b, rfl, hb⟩
    · exact ⟨after hs hip, trivial⟩
    · exact ⟨after hs hb, trivial⟩
  | error f s =>
    rw [hr] at hs hY
    have htold : f.Tellable := hY.2 hk.lt
    simp only [if_pos htold]
    exact ⟨after hs hip, trivial⟩

theorem settled_step (hk : InSight (horizon (k + 1))) (line : Option String) :
    Leads (Settled k) (Settled (k + 1)) (fun _ => True) (fun _ => False) (step line) := by
  have hlater : ∀ d : Debugger, d.Settled k → d.Settled (k + 1) :=
    fun _ hd => hd.mono (Nat.le_add_right k 1)
  have hnow : InSight (horizon k) := hk.mono (horizon_mono (Nat.le_add_right k 1))
  intro d hd
  rw [step, get_bind]
  cases hh : d.halted with
  | true => exact ⟨hlater d hd, trivial⟩
  | false =>
    refine Leads.bind (settled_waiting hnow) hlater (fun reads _ => ?_) d hd
    cases reads with
    | true =>
      cases line with
      | none => exact ((settled_setStatus _).bind fun _ _ => .ret trivial).leads hlater
      | some text => exact settled_execute hk (some text)
    | false => exact settled_execute hk none

theorem settled_run (hk : InSight (horizon (k + fuel))) :
    Leads (Settled k) (Settled (k + fuel)) (fun _ => True) (fun _ => False) (run fuel) := by
  induction fuel generalizing k with
  | zero => exact Ensures.ret trivial
  | succ fuel ih =>
    have hlen : k + (fuel + 1) = k + 1 + fuel := by omega
    rw [hlen] at hk ⊢
    have hlater : ∀ j ≤ k + 1, ∀ d : Debugger, d.Settled j → d.Settled (k + 1 + fuel) :=
      fun j hj d hd => hd.mono (by omega)
    have hnow : InSight (horizon k) := hk.mono (horizon_mono (by omega))
    have hnext : InSight (horizon (k + 1)) := hk.mono (horizon_mono (by omega))
    intro d hd
    rw [run, get_bind]
    cases hh : d.halted with
    | true => exact ⟨hlater k (by omega) d hd, trivial⟩
    | false =>
      refine Leads.bind (settled_waiting hnow) (hlater k (by omega)) (fun reads _ => ?_) d hd
      cases reads with
      | true => exact (settled_setStatus _).leads (hlater k (by omega))
      | false => exact (settled_step hnext none).bind (hlater (k + 1) (by omega)) fun _ _ => ih hk

/-! ### Screens -/

theorem mem_numbers_of_window {v : Int} (hv : v ∈ d.windowNumbers) : v ∈ d.numbers :=
  List.mem_append_left _ (List.mem_append_left _ (List.mem_append_right _ hv))

/-- The last row of the window begins with the address that decides whether it is in sight. -/
theorem lastRow_mem_windowNumbers (d : Debugger) :
    ((d.windowStart + (rowCount - 1) * rowWidth : Nat) : Int) ∈ d.windowNumbers := by
  have hrow : List.range' (d.windowStart + (rowCount - 1) * rowWidth) rowWidth ∈ d.windowRows :=
    List.mem_map.mpr ⟨rowCount - 1, List.mem_range.mpr (by decide), rfl⟩
  exact List.mem_flatMap.mpr ⟨_, hrow, List.mem_cons_self⟩

theorem Settled.windowStart (h : d.Settled k) (hk : InSight (horizon k)) :
    InSight d.windowStart := by
  unfold Debugger.windowStart
  cases hv : d.view with
  | some a => exact h.view a hv
  | none =>
    have hip := h.ip
    refine hk.mono ?_
    show (d.ip - d.ip % ((8 : Nat) : Int)).toNat ≤ horizon k
    omega

theorem Settled.writable_windowNumbers (h : d.Settled k) (hk : InSight (horizon k)) {v : Int}
    (hv : v ∈ d.windowNumbers) : Numeral.Writable v := by
  obtain ⟨row, hrow, hv⟩ := List.mem_flatMap.mp hv
  obtain ⟨r, hr, rfl⟩ := List.mem_map.mp hrow
  rcases List.mem_cons.mp hv with rfl | hv
  · have hlast : r * rowWidth ≤ (rowCount - 1) * rowWidth :=
      Nat.mul_le_mul_right _ (Nat.le_pred_of_lt (List.mem_range.mp hr))
    exact Nat.lt_of_le_of_lt (Nat.add_le_add_left hlast _) (h.windowStart hk)
  · obtain ⟨a, -, rfl⟩ := List.mem_map.mp hv
    exact Numeral.writable_of_inRange (Memory.Within.get h.machine.within (by decide) a)

/-- Within the horizon every integer on the screen can be written. -/
theorem Settled.writable_numbers (h : d.Settled k) (hk : InSight (horizon k)) {v : Int}
    (hv : v ∈ d.numbers) : Numeral.Writable v := by
  have hnear : ∀ u : Int, u.natAbs ≤ horizon k → Numeral.Writable u :=
    fun u hu => Nat.lt_of_le_of_lt hu hk.lt
  have hip := h.ip
  have hbase := h.machine.base
  rcases List.mem_append.mp hv with hv | hv
  · rcases List.mem_append.mp hv with hv | hv
    · rcases List.mem_append.mp hv with hv | hv
      · simp only [List.mem_cons, List.not_mem_nil, or_false] at hv
        rcases hv with rfl | rfl
        · exact hnear _ (by omega)
        · exact hnear _ (by omega)
      · exact h.writable_windowNumbers hk hv
    · obtain ⟨e, he, hv⟩ := List.mem_flatMap.mp hv
      obtain ⟨haddress, hcell⟩ := h.machine.trace e (List.mem_of_mem_drop he)
      simp only [List.mem_cons, List.not_mem_nil, or_false] at hv
      rcases hv with rfl | rfl
      · exact hnear _ haddress
      · exact Numeral.writable_of_inRange hcell
  · exact Numeral.writable_of_inRange (h.outputs v hv)

theorem settled_ask (hk : InSight (horizon k)) :
    Ensures (Settled k) (fun _ => True) (fun _ => False) ask := by
  refine Ensures.bind (Q := fun _ => True) ?_ fun _ _ => .ret trivial
  refine (settled_current hk).bind fun i _ => .get_bind fun d hd => ?_
  rw [if_pos fun v hv => hd.writable_numbers hk hv]
  exact .ret trivial

theorem view_current (d : Debugger) : (finalState (current d)).view = d.view := by
  simp only [current]
  cases Machine.instructionAt d.ip d.machine with
  | ok i m => rfl
  | error f m =>
    dsimp only
    split <;> rfl

/-- A window out of sight cannot be shown. -/
theorem render_of_lost (hv : d.view = some a) (ha : ¬ InSight a) :
    ∃ f d', render d = .error f d' := by
  have hview := view_current d
  cases hc : current d with
  | error f d₁ => exact ⟨f, d₁, bind_of_error hc⟩
  | ok i d₁ =>
    rw [hc] at hview
    have hstart : d₁.windowStart = a := by
      simp only [windowStart, show d₁.view = some a from hview.trans hv]
    have hlost : ¬ ∀ v ∈ d₁.numbers, Numeral.Writable v := by
      intro h
      have hlast := lastRow_mem_windowNumbers d₁
      rw [hstart] at hlast
      exact ha (h _ (mem_numbers_of_window hlast))
    refine ⟨.unwritable, d₁, ?_⟩
    rw [render, bind_of_ok hc, get_bind, if_neg hlost]
    rfl

theorem ask_of_lost (hv : d.view = some a) (ha : ¬ InSight a) : ∃ f d', ask d = .error f d' := by
  obtain ⟨f, d', h⟩ := render_of_lost hv ha
  exact ⟨f, d', bind_of_error h⟩

/-! ### Commands and dialogues -/

/-- Whether a command line ends the session. -/
def quits (line : String) : Bool := ((Text.words line.toList).map String.ofList).head? == some "q"

/-- The address to which a command line moves the window. -/
def viewOf? (line : String) : Option Nat :=
  match (Text.words line.toList).map String.ofList with
  | "m" :: text :: _ => (Numeral.parseLoose? text.toList).map Int.toNat
  | _ => none

/-- The command lines of a stream up to the first one that ends the session. -/
def obeyed (lines : List (List Char)) : List String :=
  (lines.map commandOfLine).takeWhile (!quits ·)

/-- No command line that is obeyed moves the window out of sight. -/
def KeepsSight (lines : List (List Char)) : Prop :=
  ∀ line ∈ obeyed lines, ∀ a ∈ viewOf? line, InSight a

theorem settled_moveView {text : String}
    (h : ∀ a ∈ (Numeral.parseLoose? text.toList).map Int.toNat, InSight a) :
    Ensures (Settled k) (fun _ => True) (fun _ => False) (moveView text) := by
  unfold moveView
  cases hp : Numeral.parseLoose? text.toList with
  | none => exact settled_setStatus _
  | some v =>
    refine fun d hd => ⟨⟨hd.machine, hd.ip, hd.outputs, hd.capture, ?_⟩, trivial⟩
    rintro _ ⟨⟩
    exact h _ (by rw [hp]; rfl)

theorem settled_command (hk : InSight (horizon (k + (fuel + 1))))
    (hview : ∀ a ∈ viewOf? line, InSight a) :
    Leads (Settled k) (Settled (k + (fuel + 1))) (fun goesOn => goesOn = !quits line)
      (fun _ => False) (command fuel line) := by
  have hnow : InSight (horizon k) := hk.mono (horizon_mono (Nat.le_add_right _ _))
  have hstep : InSight (horizon (k + 1)) := hk.mono (horizon_mono (by omega))
  have hrun : InSight (horizon (k + fuel)) := hk.mono (horizon_mono (by omega))
  have hlater : ∀ j ≤ k + (fuel + 1), ∀ d : Debugger, d.Settled j → d.Settled (k + (fuel + 1)) :=
    fun j hj d hd => hd.mono hj
  have goesOn : ∀ {j : Nat} {α : Type} {x : DebuggerM α}, j ≤ k + (fuel + 1) → quits line = false →
      Leads (Settled k) (Settled j) (fun _ => True) (fun _ => False) x →
      Leads (Settled k) (Settled (k + (fuel + 1))) (fun goesOn => goesOn = !quits line)
        (fun _ => False) (x >>= fun _ => pure true) := by
    intro j α x hj hquits hx
    refine hx.bind (hlater j hj) fun _ _ => Ensures.leads (.ret ?_) (hlater j hj)
    rw [hquits]
    rfl
  have steps : ∀ text, quits line = false →
      Leads (Settled k) (Settled (k + (fuel + 1))) (fun goesOn => goesOn = !quits line)
        (fun _ => False) (discard (step text) >>= fun _ => pure true) := by
    intro text hquits
    rw [discard_bind]
    exact goesOn (by omega) hquits (settled_step hstep text)
  unfold command
  split
  · rename_i hwords
    exact steps none (by simp [quits, hwords])
  · rename_i hwords
    exact steps none (by simp [quits, hwords])
  · rename_i hwords
    exact Ensures.leads (.ret (by simp [quits, hwords])) (hlater k (by omega))
  · rename_i hwords
    exact goesOn (by omega) (by simp [quits, hwords]) (settled_setStatus _)
  · rename_i hwords
    exact steps _ (by simp [quits, hwords])
  · rename_i hwords
    exact goesOn (by omega) (by simp [quits, hwords]) (settled_run hrun)
  · rename_i hwords
    refine goesOn (Nat.le_add_right k _) (by simp [quits, hwords]) fun d hd => ?_
    exact ⟨⟨hd.machine, hd.ip, hd.outputs, hd.capture, nofun⟩, trivial⟩
  · rename_i text rest hwords
    have hsight : ∀ a ∈ (Numeral.parseLoose? text.toList).map Int.toNat, InSight a := by
      simpa only [viewOf?, hwords] using hview
    exact goesOn (by omega) (by simp [quits, hwords]) (settled_moveView hsight)
  · rename_i text rest _ hquits _ _ _ _ _ hwords
    have hquits : quits line = false := by simpa [quits, hwords] using hquits
    refine Leads.bind (settled_waiting hnow) (hlater k (by omega)) fun reads _ => ?_
    cases reads with
    | true => exact steps _ hquits
    | false => exact goesOn (by omega) hquits (settled_setStatus _)

theorem command_of_viewOf (h : viewOf? line = some a) :
    quits line = false ∧ ∀ fuel d, command fuel line d = .ok true { d with view := some a } := by
  unfold viewOf? at h
  split at h
  · rename_i text rest hwords
    obtain ⟨v, hv, rfl⟩ := Option.map_eq_some_iff.mp h
    refine ⟨by simp [quits, hwords], fun fuel d => ?_⟩
    have hmove : moveView text d = .ok ⟨⟩ { d with view := some v.toNat } := by
      simp only [moveView, hv]
      rfl
    rw [command, hwords]
    exact bind_of_ok hmove
  · cases h

theorem dialogue_of_lost (hv : d.view = some a) (ha : ¬ InSight a) (lines : List (List Char)) :
    ∃ f d', dialogue fuel lines d = .error f d' := by
  obtain ⟨f, d', h⟩ := ask_of_lost hv ha
  cases lines with
  | nil => exact ⟨f, d', h⟩
  | cons line rest => exact ⟨f, d', bind_of_error h⟩

theorem dialogue_cons {shown : String} {d₁ d₂ : Debugger} {cs : List Char}
    {rest : List (List Char)} (hask : ask d = .ok shown d₁)
    (hcommand : command fuel (commandOfLine cs) d₁ = .ok true d₂) :
    (∃ f d', dialogue fuel (cs :: rest) d = .error f d') ↔
      ∃ f d', dialogue fuel rest d₂ = .error f d' := by
  have hdialogue : dialogue fuel (cs :: rest) d =
      (dialogue fuel rest >>= fun more => pure (shown ++ more)) d₂ := by
    rw [dialogue, bind_of_ok hask, bind_of_ok hcommand]
    rfl
  rw [hdialogue]
  exact fails_bind_pure

theorem keepsSight_cons {cs : List Char} {rest : List (List Char)}
    (h : quits (commandOfLine cs) = false) :
    KeepsSight (cs :: rest) ↔
      (∀ a ∈ viewOf? (commandOfLine cs), InSight a) ∧ KeepsSight rest := by
  have hobeyed : obeyed (cs :: rest) = commandOfLine cs :: obeyed rest := by
    simp [obeyed, h]
  simp only [KeepsSight, hobeyed, List.forall_mem_cons]

/-- A dialogue that is not longer than any can be breaks off only at a window out of sight. -/
theorem dialogue_fails_iff {lines : List (List Char)} (hd : d.Settled k)
    (hk : InSight (horizon (k + lines.length * (fuel + 1)))) :
    (∃ f d', dialogue fuel lines d = .error f d') ↔ ¬ KeepsSight lines := by
  -- each line may take fuel + 1 instructions, and the bound leaves room for the lines behind it
  induction lines generalizing d k with
  | nil =>
    have hnow : InSight (horizon k) := hk.mono (horizon_mono (Nat.le_add_right k _))
    obtain ⟨shown, d₁, hask, -⟩ := Leads.succeeds (settled_ask hnow) hd
    refine ⟨?_, fun h => absurd nofun h⟩
    rintro ⟨f, d', h⟩
    rw [dialogue, hask] at h
    cases h
  | cons cs rest ih =>
    have hlen : k + (cs :: rest).length * (fuel + 1) =
        k + (fuel + 1) + rest.length * (fuel + 1) := by
      rw [List.length_cons, Nat.add_mul, Nat.one_mul]
      omega
    rw [hlen] at hk
    have hcommand : InSight (horizon (k + (fuel + 1))) :=
      hk.mono (horizon_mono (Nat.le_add_right _ _))
    have hnow : InSight (horizon k) := hcommand.mono (horizon_mono (Nat.le_add_right _ _))
    obtain ⟨shown, d₁, hask, hd₁, -⟩ := Leads.succeeds (settled_ask hnow) hd
    by_cases hview : ∀ a ∈ viewOf? (commandOfLine cs), InSight a
    · obtain ⟨goesOn, d₂, hok, hd₂, rfl⟩ := Leads.succeeds (settled_command hcommand hview) hd₁
      cases hquits : quits (commandOfLine cs) with
      | true =>
        have hobeyed : obeyed (cs :: rest) = [] := by simp [obeyed, hquits]
        have hkeeps : KeepsSight (cs :: rest) := by
          rw [KeepsSight, hobeyed]
          exact nofun
        refine ⟨?_, fun h => absurd hkeeps h⟩
        rintro ⟨f, d', h⟩
        rw [hquits] at hok
        rw [dialogue, bind_of_ok hask, bind_of_ok hok] at h
        cases h
      | false =>
        rw [hquits] at hok
        rw [dialogue_cons hask hok, keepsSight_cons hquits, ih hd₂ hk]
        exact ⟨fun h hkeeps => h hkeeps.2, fun h hkeeps => h ⟨hview, hkeeps⟩⟩
    · obtain ⟨a, hmem, ha⟩ : ∃ a, viewOf? (commandOfLine cs) = some a ∧ ¬ InSight a := by
        simpa using hview
      -- the session goes on, so there is a next screen, and it cannot be shown
      obtain ⟨hquits, hmoves⟩ := command_of_viewOf hmem
      rw [dialogue_cons hask (hmoves fuel d₁), keepsSight_cons hquits]
      exact ⟨fun _ hkeeps => hview hkeeps.1, fun _ => dialogue_of_lost rfl ha rest⟩

end Debugger

end Intcode
