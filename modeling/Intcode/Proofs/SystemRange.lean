import Intcode.Proofs.DebuggerCommand
import Intcode.Proofs.DebuggerStep
import Intcode.Proofs.NetworkOrder
import Intcode.Proofs.SessionValues
import Intcode.Relay

/-! # The range of all values in a system

However machines are put together, alone on devices, in a relay, a line or a ring, or under a
debugger, all cells and all queued values stay signed 64-bit integers if they were so at the start.
For each system it is enough that one step keeps the range: whatever enters a machine comes from a
text, which is checked, or from a channel, and whatever enters a channel comes from a machine. -/

namespace Intcode
open Word (InRange)

theorem Machine.within_load {image : List Int} (h : ∀ v ∈ image, InRange v) :
    (load image).Within InRange := Memory.within_ofList h

/-! ### Networks -/

namespace Network
variable {n m : Network} {i : Nat} {s : Stage} {α : Type} {Q : α → Prop}
  {x : EStateM Fault Channel α}

/-- All cells of the stages and all queued values are in the range. -/
structure Within (n : Network) : Prop where
  stages : ∀ s ∈ n.stages, s.machine.Within InRange
  channels : ∀ c ∈ n.channels, c.Within

theorem ensures_onChannel (h : Ensures Channel.Within Q (fun _ => True) x) (side : Side)
    (i : Nat) : Ensures (fun cs => ∀ c ∈ cs, c.Within) Q (fun _ => True) (onChannel side i x) := by
  intro cs hcs
  cases hc : cs[i]? with
  | none =>
    simp only [onChannel, hc]
    exact ⟨hcs, trivial⟩
  | some c =>
    have heq : onChannel side i x cs = viewResult (cs.set i) (x c) := by
      simp only [onChannel, hc]
      cases x c <;> rfl
    have hset : ∀ d : Channel, d.Within → ∀ e ∈ cs.set i d, e.Within := by
      intro d hd e he
      rcases List.mem_or_eq_of_mem_set he with he | rfl
      · exact hcs e he
      · exact hd
    rw [heq]
    exact h.part (S := fun cs => ∀ c ∈ cs, Channel.Within c) (hcs c (List.mem_of_getElem? hc)) hset

theorem keeps (source sink : Nat) :
    (wiring source sink).Keeps fun cs => ∀ c ∈ cs, c.Within where
  read := ensures_onChannel Channel.ensures_fetch .input source
  write _ hv := ensures_onChannel (Channel.ensures_deliver hv) .output sink

theorem Within.set {channels : List Channel} {failures : List (Nat × Fault)} (h : n.Within)
    (hs : s.machine.Within InRange) (hc : ∀ c ∈ channels, c.Within) :
    Network.Within ⟨n.stages.set i s, channels, failures⟩ := by
  refine ⟨fun t ht => ?_, hc⟩
  rcases List.mem_or_eq_of_mem_set ht with ht | rfl
  · exact h.stages t ht
  · exact hs

theorem Within.act {m : Machine} {x : SessionM (List Channel) Progress} (h : n.Within)
    (hm : m.Within InRange)
    (hx : Ensures (Session.Within fun cs => ∀ c ∈ cs, c.Within) (fun _ => True) (fun _ => True) x) :
    (n.act i m x).Within := by
  obtain ⟨hP, -⟩ := hx { machine := m, world := n.channels } ⟨hm, h.channels⟩
  cases hr : x { machine := m, world := n.channels } with
  | ok p t =>
    rw [hr] at hP
    rw [act_of_ok hr]
    exact h.set hP.1 hP.2
  | error f t =>
    rw [hr] at hP
    rw [act_of_error hr]
    exact h.set hP.1 hP.2

theorem Within.advance (h : n.Within) (i : Nat) : (n.advance i).Within := by
  unfold Network.advance
  split
  · exact h
  · rename_i machine status hs
    have hm : machine.Within InRange := h.stages _ (List.mem_of_getElem? hs)
    cases status with
    | running a => exact h.act hm (Session.ensures_issue (keeps i _) false a)
    | reading target next => exact h.act hm (Session.ensures_complete (keeps i _) target next)
    | raised f => exact h.set hm h.channels
    | closing outcome =>
      refine h.set hm fun c hc => ?_
      obtain ⟨k, hk⟩ := List.mem_iff_getElem?.mp hc
      rw [List.getElem?_modify] at hk
      obtain ⟨d, hd, rfl⟩ := Option.map_eq_some_iff.mp hk
      have hd := h.channels d (List.mem_of_getElem? hd)
      split
      · exact hd.close
      · exact hd
    | finished outcome => exact h

theorem Within.run {is : List Nat} (h : n.Within) (hrun : n.Run is m) : m.Within :=
  hrun.preserves (fun _ i hn _ => hn.advance i) h

theorem within_line {machines : List Machine} {values : List Int}
    (hm : ∀ m ∈ machines, m.Within InRange) (hv : ∀ v ∈ values, InRange v) :
    (line machines values).Within := by
  refine ⟨fun s hs => ?_, fun c hc => ?_⟩
  · obtain ⟨m, hmem, rfl⟩ := List.mem_map.mp hs
    exact hm m hmem
  · simp only [line, List.mem_cons, List.mem_map] at hc
    rcases hc with rfl | ⟨i, -, rfl⟩
    · exact (Channel.within_ofList _ hv).close
    · intro v hv
      cases hv

theorem within_ring {image phases : List Int} {signal : Int} (hi : ∀ v ∈ image, InRange v)
    (hp : ∀ v ∈ phases, InRange v) (hs : InRange signal) :
    (ring image phases signal).Within := by
  refine ⟨fun s hmem => ?_, fun c hc => ?_⟩
  · obtain ⟨phase, -, rfl⟩ := List.mem_map.mp hmem
    exact Machine.within_load hi
  · obtain ⟨⟨phase, i⟩, hmem, rfl⟩ := List.mem_map.mp hc
    refine Channel.within_ofList _ fun v hv => ?_
    rcases List.mem_cons.mp hv with rfl | hv
    · exact hp v (List.fst_mem_of_mem_zipIdx hmem)
    · split at hv
      · rwa [List.mem_singleton.mp hv]
      · cases hv

end Network

/-! ### The debugger -/

namespace Debugger
variable {d : Debugger}

/-- All cells, all written values and those on the channel for them are in the range. -/
structure Within (d : Debugger) : Prop where
  machine : d.machine.Within InRange
  outputs : ∀ v ∈ d.outputs.toList, InRange v
  capture : d.capture.Within

theorem keeps (line : Option String) : (wiring line).Keeps Channel.Within where
  read := by
    unfold wiring
    cases line with
    | none => exact .fail trivial
    | some text =>
      dsimp only
      cases hv : Input.integer text.toList with
      | ok v =>
        refine .ret ?_
        rintro u ⟨⟩
        exact Input.inRange_of_integer hv
      | error f => exact .fail trivial
  write _ hv := Channel.ensures_deliver hv

theorem ensures_current : Ensures Within (fun _ => True) (fun _ => True) current := by
  intro d hd
  obtain ⟨hP, -⟩ := Machine.ensures_instructionAt (fun _ h => h) d.ip d.machine hd.machine
  cases hx : Machine.instructionAt d.ip d.machine with
  | ok i m =>
    rw [hx] at hP
    rw [current_of_ok hx]
    exact ⟨⟨hP, hd.outputs, hd.capture⟩, trivial⟩
  | error f m =>
    rw [hx] at hP
    by_cases hf : f.Tellable
    · rw [current_of_told hx hf]
      exact ⟨⟨hP, hd.outputs, hd.capture⟩, trivial⟩
    · rw [current_of_untold hx hf]
      exact ⟨⟨hP, hd.outputs, hd.capture⟩, trivial⟩

theorem ensures_waiting : Ensures Within (fun _ => True) (fun _ => True) waiting :=
  ensures_current.bind fun _ _ => .ret trivial

theorem ensures_execute (line : Option String) :
    Ensures Within (fun _ => True) (fun _ => True) (execute line) := by
  rintro ⟨machine, ip, halted, status, view, outputs, capture⟩ hd
  obtain ⟨hP, -⟩ := Session.ensures_step (keeps line) false ip ⟨machine, capture, ""⟩
    ⟨hd.machine, hd.capture⟩
  have after : ∀ {s : Session Channel} {ip halted status view}, s.Within Channel.Within →
      Within ⟨s.machine, ip, halted, status, view, outputs ++ s.world.drain.1,
        s.world.drain.2⟩ := by
    intro s ip halted status view hs
    obtain ⟨hwritten, hcapture⟩ := hs.2.drain
    refine ⟨hs.1, fun v hv => ?_, hcapture⟩
    rw [Array.toList_appendList] at hv
    rcases List.mem_append.mp hv with hv | hv
    · exact hd.outputs v hv
    · exact hwritten v hv
  simp only [execute]
  cases hr : Session.step (wiring line) false ip ⟨machine, capture, ""⟩ with
  | ok p s =>
    rw [hr] at hP
    cases p <;> exact ⟨after hP, trivial⟩
  | error f s =>
    rw [hr] at hP
    dsimp only
    split <;> exact ⟨after hP, trivial⟩

theorem ensures_setStatus (status : Status) :
    Ensures Within (fun _ => True) (fun _ => True) (setStatus status) :=
  fun _ hd => ⟨⟨hd.machine, hd.outputs, hd.capture⟩, trivial⟩

theorem ensures_step (line : Option String) :
    Ensures Within (fun _ => True) (fun _ => True) (step line) := by
  refine .get_bind fun d hd => ?_
  split
  · exact .ret trivial
  · refine ensures_waiting.bind fun reads _ => ?_
    split
    · exact (ensures_setStatus _).bind fun _ _ => .ret trivial
    · exact ensures_execute _
    · exact ensures_execute none

theorem kept_within : Kept Within (fun _ => True) where
  look := ensures_current
  step := ensures_step
  status _ _ _ hd := ⟨hd.machine, hd.outputs, hd.capture⟩
  view _ _ hd := ⟨hd.machine, hd.outputs, hd.capture⟩

/-- What can be asked of a debugger. -/
inductive Request
  | look
  | render
  | step (line : Option String)
  | run (fuel : Nat)
  | command (fuel : Nat) (line : String)
  | dialogue (fuel : Nat) (lines : List (List Char))

/-- The debugger after a request, whether it has failed or not. -/
def after (d : Debugger) : Request → Debugger
  | .look => finalState (current d)
  | .render => finalState (Debugger.render d)
  | .step line => finalState (Debugger.step line d)
  | .run fuel => finalState (Debugger.run fuel d)
  | .command fuel line => finalState (Debugger.command fuel line d)
  | .dialogue fuel lines => finalState (Debugger.dialogue fuel lines d)

/-- What the parts of a command keep is kept by every request. -/
theorem Kept.after {P : Debugger → Prop} {E : Fault → Prop} (h : Kept P E) (hE : E .unwritable)
    (hd : P d) (r : Request) : P (d.after r) := by
  cases r with
  | look => exact (h.look d hd).1
  | render => exact (h.render hE d hd).1
  | step line => exact (h.step line d hd).1
  | run fuel => exact (h.run fuel d hd).1
  | command fuel line => exact (h.command fuel line d hd).1
  | dialogue fuel lines => exact (h.dialogue hE fuel lines d hd).1

theorem Kept.session {P : Debugger → Prop} {E : Fault → Prop} (h : Kept P E) (hE : E .unwritable)
    (hd : P d) (requests : List Request) : P (requests.foldl Debugger.after d) := by
  induction requests generalizing d with
  | nil => exact hd
  | cons r requests ih => exact ih (h.after hE hd r)

theorem Within.session (h : d.Within) (requests : List Request) :
    (requests.foldl Debugger.after d).Within :=
  kept_within.session trivial h requests

end Debugger

/-! ### Relays -/

namespace Relay
variable {fuel : Nat} {image phases : List Int} {start v : Int}

theorem within_devices {phase signal : Int} (hp : InRange phase) (hs : InRange signal) :
    (devices phase signal).Within := by
  constructor
  · rintro c ⟨⟩
    refine (Channel.within_ofList "in" fun v hv => ?_).close
    simp only [List.mem_cons, List.not_mem_nil, or_false] at hv
    rcases hv with rfl | rfl
    · exact hp
    · exact hs
  · rintro c ⟨⟩
    intro v hv
    cases hv

theorem inRange_of_firstWritten {d : Devices} (hd : d.Within) (h : firstWritten d = .ok v) :
    InRange v := by
  unfold firstWritten at h
  split at h
  · rename_i c ho
    obtain ⟨-, hrecv⟩ := (hd.2 c ho).close.recv
    split at h
    · rename_i u e hr
      cases h
      exact hrecv v (by rw [hr])
    · cases h
  · cases h

theorem inRange_of_pass {phase signal : Int} (hi : ∀ v ∈ image, InRange v) (hp : InRange phase)
    (hs : InRange signal) (h : pass fuel image signal phase = some (.ok v)) : InRange v := by
  obtain ⟨hP, -⟩ := Session.ensures_run Devices.keeps false fuel 0
    ⟨.load image, devices phase signal, ""⟩ ⟨Machine.within_load hi, within_devices hp hs⟩
  simp only [pass] at h
  split at h
  · rename_i s hr
    rw [hr] at hP
    exact inRange_of_firstWritten hP.2 (Option.some.inj h)
  · cases h
  · cases h

theorem exists_of_bind_eq_ok {x : ExceptT Fault Option Int} {f : Int → ExceptT Fault Option Int}
    (h : (x >>= f) = some (.ok v)) : ∃ u, x = some (.ok u) ∧ f u = some (.ok v) := by
  match x with
  | none => cases h
  | some (.error e) => cases h
  | some (.ok u) => exact ⟨u, rfl, h⟩

theorem inRange_of_signal (hi : ∀ v ∈ image, InRange v) (hp : ∀ v ∈ phases, InRange v)
    (hs : InRange start) (h : signal fuel image start phases = some (.ok v)) : InRange v := by
  induction phases generalizing start with
  | nil =>
    cases h
    exact hs
  | cons phase phases ih =>
    rw [signal, List.foldlM_cons] at h
    obtain ⟨u, hpass, hrest⟩ := exists_of_bind_eq_ok h
    have hu := inRange_of_pass hi (hp phase List.mem_cons_self) hs hpass
    exact ih (fun v hv => hp v (List.mem_cons_of_mem _ hv)) hu hrest

end Relay

/-! ### All systems -/

/-- A session on devices, with everything it has written, that is in the range. -/
abbrev Session.Recorded (s : Session (Devices × List Int)) : Prop :=
  s.Within fun p => p.1.Within ∧ ∀ v ∈ p.2, InRange v

/-- In every system all cells, all queued values and all values that are written are in the range if
they were so at the start.

A session on any devices stays so with each of its actions, whatever the other users of its channels
do in between within the range; what it reads from no channel is in the range in any case. The
machines of a relay stay so, and so do the signals between them. Lines and rings stay so under every
schedule, and a debugger whatever is asked of it. -/
theorem values_in_range :
    (∀ (s : Session (Devices × List Int)) (traced : Bool) (fuel : Nat) (a t b : Int), s.Recorded →
      let w := Devices.wiring.recording
      (finalState (Session.issue w traced a s)).Recorded ∧
      (finalState (Session.complete w t b s)).Recorded ∧
      (finalState (Session.run w traced fuel a s)).Recorded ∧
      viewResult (Session.mapWorld Prod.fst) (Session.run w traced fuel a s) =
        Session.run Devices.wiring traced fuel a (s.mapWorld Prod.fst)) ∧
    (∀ (d d' : Devices) (v : Int), (∀ c, d.input ≠ .channel c) →
      Devices.read d = .ok (some v) d' → InRange v) ∧
    (∀ (fuel : Nat) (image phases : List Int) (start : Int), (∀ v ∈ image, InRange v) →
      (∀ v ∈ phases, InRange v) → InRange start →
      (∀ v, Relay.signal fuel image start phases = some (.ok v) → InRange v) ∧
      ∀ before phase after v, phases = before ++ phase :: after →
        Relay.signal fuel image start before = some (.ok v) → ∀ k,
        (finalState (Session.run Devices.wiring false k 0
          ⟨.load image, Relay.devices phase v, ""⟩)).Within Devices.Within) ∧
    (∀ (machines : List Machine) (values : List Int) (is : List Nat) (n : Network),
      (∀ m ∈ machines, m.Within InRange) → (∀ v ∈ values, InRange v) →
      (Network.line machines values).Run is n → n.Within) ∧
    (∀ (image phases : List Int) (signal : Int) (is : List Nat) (n : Network),
      (∀ v ∈ image, InRange v) → (∀ v ∈ phases, InRange v) → InRange signal →
      (Network.ring image phases signal).Run is n → n.Within) ∧
    (∀ (d : Debugger) (requests : List Debugger.Request), d.Within →
      (requests.foldl Debugger.after d).Within) := by
  have hw := Devices.keeps.recording
  refine ⟨?_, ?_, ?_, ?_, ?_, ?_⟩
  · intro s traced fuel a t b hs w
    refine ⟨?_, ?_, ?_, Session.run_recording _ traced fuel a s⟩
    · exact (Session.ensures_issue hw traced a s hs).1
    · exact (Session.ensures_complete hw t b s hs).1
    · exact (Session.ensures_run hw traced fuel a s hs).1
  · exact fun d d' v hd => Devices.inRange_of_read hd
  · intro fuel image phases start hi hp hs
    refine ⟨fun v => Relay.inRange_of_signal hi hp hs, ?_⟩
    rintro before phase after v rfl hsignal k
    have hbefore : ∀ u ∈ before, InRange u := fun u hu => hp u (List.mem_append_left _ hu)
    have hphase : InRange phase := hp phase (by simp)
    have hv := Relay.inRange_of_signal hi hbefore hs hsignal
    exact (Session.ensures_run Devices.keeps false k 0 _
      ⟨Machine.within_load hi, Relay.within_devices hphase hv⟩).1
  · exact fun machines values is n hm hv => (Network.within_line hm hv).run
  · exact fun image phases signal is n hi hp hs => (Network.within_ring hi hp hs).run
  · exact fun d requests hd => hd.session requests

/-- The signal is added to itself, beyond the range, in systems of every kind. -/
theorem values_in_range_wrapping :
    let image : List Int := [3, 0, 3, 0, 1, 0, 0, 0, 4, 0, 99]
    let top : Int := 0x7fffffffffffffff
    let is := [0, 0, 0, 0, 0, 0, 0, 0]
    let single : Session (Devices × List Int) :=
      ⟨.load image, (⟨.literal "9223372036854775807", .channel {}⟩, []), ""⟩
    let s := finalState (Session.run Devices.wiring.recording false 6 0 single)
    let line := is.foldl (fun n i => n.advance i) (Network.line [.load image] [5, top])
    let ring := is.foldl (fun n i => n.advance i) (Network.ring image [5] top)
    let requests : List Debugger.Request :=
      [.step (some "5"), .step (some "9223372036854775807"), .step none, .step none]
    let d := requests.foldl Debugger.after { machine := .load image }
    (s.world.2 = [-2] ∧ s.Recorded) ∧
      (Relay.signal 6 image top [5] = some (.ok (-2)) ∧ InRange (-2)) ∧
      ((Network.line [.load image] [5, top]).Run is line ∧ line.values 1 = [-2] ∧ line.Within) ∧
      ((Network.ring image [5] top).Run is ring ∧ ring.values 0 = [-2] ∧ ring.Within) ∧
      (d.outputs = #[-2] ∧ d.Within) := by
  intro image top is single s line ring requests d
  have hi : ∀ v ∈ image, InRange v := by decide
  have hm : (Machine.load image).Within InRange := Machine.within_load hi
  obtain ⟨hsession, -, hrelay, hline, hring, hdebugger⟩ := values_in_range
  refine ⟨⟨by decide +kernel, ?_⟩, ?_, ?_, ?_, ⟨by decide +kernel, ?_⟩⟩
  · refine (hsession single false 6 0 0 0 ⟨hm, ⟨?_, ?_⟩, ?_⟩).2.2.1
    · rintro c ⟨⟩
    · rintro c ⟨⟩ v hv
      cases hv
    · intro v hv
      cases hv
  · have hsignal : Relay.signal 6 image top [5] = some (.ok (-2)) := by
      have h : Option.map Except.toOption (Relay.signal 6 image top [5]) = some (some (-2)) := by
        decide +kernel
      obtain ⟨r, hr, hv⟩ := Option.map_eq_some_iff.mp h
      rw [hr]
      cases r with
      | ok v =>
        cases hv
        rfl
      | error f => cases hv
    exact ⟨hsignal, (hrelay 6 image [5] top hi (by decide) (by decide)).1 _ hsignal⟩
  · have hrun : (Network.line [.load image] [5, top]).Run is line := by decide +kernel
    refine ⟨hrun, by decide +kernel, hline _ _ _ _ ?_ (by decide) hrun⟩
    intro m hmem
    rwa [List.mem_singleton.mp hmem]
  · have hrun : (Network.ring image [5] top).Run is ring := by decide +kernel
    exact ⟨hrun, by decide +kernel, hring _ _ _ _ _ hi (by decide) (by decide) hrun⟩
  · refine hdebugger _ requests ⟨hm, ?_, ?_⟩
    · intro v hv
      cases hv
    · intro v hv
      cases hv

end Intcode
