import Intcode.Proofs.ChannelQueue
import Intcode.Proofs.MachineValues
import Intcode.Proofs.SessionStep

/-! # The values in a session

A machine takes in values through its wiring. If everything that the wiring reads is a signed 64-bit
integer as long as nothing else has been written to it (`Keeps`), then all cells of the machine
stay so, whatever it executes. Devices keep to this: a text is read within the range or not at all,
and a channel gives only what has been sent to it. What a session writes is recorded by a wiring of
its own, `recording`, behind which the session runs as before. -/

namespace Intcode
open Word (InRange)

variable {σ τ α : Type}

theorem Numeral.inRange_of_parse {cs : List Char} {v : Int} (h : Numeral.parse cs = .ok v) :
    InRange v := by
  simp only [Numeral.parse] at h
  split at h
  · cases h
  · split at h
    · cases h
    · split at h
      · rename_i hv
        cases h
        exact hv
      · cases h

theorem Input.inRange_of_integer {cs : List Char} {v : Int} (h : Input.integer cs = .ok v) :
    InRange v := by
  unfold Input.integer at h
  split at h
  · cases h
    exact Numeral.inRange_of_parse ‹_›
  · cases h

/-! ### Channels -/

namespace Channel

/-- All queued values are in the range. -/
def Within (c : Channel) : Prop := ∀ v, .value v ∈ c.queue → InRange v

variable {c d : Channel} {v : Int}

theorem within_ofList (name : String) {vs : List Int} (h : ∀ v ∈ vs, InRange v) :
    (ofList name vs).Within := by
  intro v hv
  simp only [ofList, List.mem_map, Item.value.injEq] at hv
  obtain ⟨u, hu, rfl⟩ := hv
  exact h u hu

namespace Within

theorem send (h : c.Within) (hv : InRange v) (hs : c.send v = .ok d) : d.Within := by
  unfold Channel.send at hs
  split at hs
  · cases hs
  · cases hs
    intro u hu
    rcases List.mem_append.mp hu with hu | hu
    · exact h u hu
    · cases List.mem_singleton.mp hu
      exact hv

theorem close (h : c.Within) : c.close.Within := by
  unfold Channel.close
  split
  · exact h
  · intro u hu
    rcases List.mem_append.mp hu with hu | hu
    · exact h u hu
    · cases List.mem_singleton.mp hu

theorem recv (h : c.Within) : c.recv.2.Within ∧ ∀ v, c.recv.1 = .value v → InRange v := by
  rcases c.recv_cases with ⟨-, hr⟩ | ⟨v, is, hq, hr⟩ | ⟨is, hq, hr⟩
  · rw [hr]
    exact ⟨h, nofun⟩
  · rw [hr]
    refine ⟨fun u hu => h u ?_, ?_⟩
    · rw [hq]
      exact List.mem_cons_of_mem _ hu
    · rintro u ⟨⟩
      exact h v (by rw [hq]; exact List.mem_cons_self)
  · rw [hr]
    refine ⟨fun u hu => h u ?_, nofun⟩
    rw [hq]
    rcases List.mem_append.mp hu with hu | hu
    · exact List.mem_cons_of_mem _ hu
    · cases List.mem_singleton.mp hu

end Within

theorem mem_of_cutValues {is : List Item} {v : Int} :
    (v ∈ (Item.cutValues is).1 → .value v ∈ is) ∧
      (.value v ∈ (Item.cutValues is).2 → .value v ∈ is) := by
  induction is with
  | nil => exact ⟨fun h => absurd h List.not_mem_nil, fun h => absurd h List.not_mem_nil⟩
  | cons i is ih =>
    cases i with
    | value u =>
      simp only [Item.cutValues, List.mem_cons, Item.value.injEq]
      exact ⟨Or.imp_right ih.1, fun h => .inr (ih.2 h)⟩
    | endMark => exact ⟨fun h => absurd h List.not_mem_nil, id⟩

theorem Within.drain (h : c.Within) : (∀ v ∈ c.drain.1, InRange v) ∧ c.drain.2.Within := by
  have hfront : ∀ v ∈ (Item.cutValues c.queue).1, InRange v :=
    fun v hv => h v (mem_of_cutValues.1 hv)
  have hrest : ∀ v, .value v ∈ (Item.cutValues c.queue).2 → InRange v :=
    fun v hv => h v (mem_of_cutValues.2 hv)
  unfold Channel.drain Channel.take
  dsimp only
  cases hq : (Item.cutValues c.queue).2 with
  | nil => exact ⟨hfront, nofun⟩
  | cons i is =>
    rw [hq] at hrest
    refine ⟨hfront, fun v hv => ?_⟩
    rcases List.mem_append.mp hv with hv | hv
    · exact hrest v (List.mem_cons_of_mem _ hv)
    · cases List.mem_singleton.mp hv

theorem ensures_fetch :
    Ensures Within (fun v => ∀ u ∈ v, InRange u) (fun _ => True) Channel.fetch := by
  intro c hc
  obtain ⟨hd, hv⟩ := hc.recv
  unfold Channel.fetch
  generalize c.recv = r at hd hv
  obtain ⟨v | - | -, d⟩ := r
  · refine ⟨hd, ?_⟩
    rintro u ⟨⟩
    exact hv v rfl
  · exact ⟨hd, trivial⟩
  · exact ⟨hd, nofun⟩

theorem ensures_deliver (hv : InRange v) :
    Ensures Within (fun _ => True) (fun _ => True) (Channel.deliver v) := by
  intro c hc
  unfold Channel.deliver
  cases hs : c.send v with
  | ok d => exact ⟨hc.send hv hs, trivial⟩
  | error f => exact ⟨hc, trivial⟩

end Channel

/-! ### Wirings -/

namespace Wiring

/-- While only values in the range are written, `Good` holds and only such values are read. -/
structure Keeps (Good : σ → Prop) (w : Wiring σ) : Prop where
  read : Ensures Good (fun v => ∀ u ∈ v, InRange u) (fun _ => True) w.read
  write : ∀ v, InRange v → Ensures Good (fun _ => True) (fun _ => True) (w.write v)

/-- Keeps a list of the values that are written, also of those that are refused. -/
def recording (w : Wiring σ) : Wiring (σ × List Int) where
  read := fun (s, written) =>
    match w.read s with
    | .ok v s => .ok v (s, written)
    | .error f s => .error f (s, written)
  write v := fun (s, written) =>
    match w.write v s with
    | .ok u s => .ok u (s, written ++ [v])
    | .error f s => .error f (s, written ++ [v])

theorem Keeps.recording {Good : σ → Prop} {w : Wiring σ} (h : w.Keeps Good) :
    w.recording.Keeps fun s => Good s.1 ∧ ∀ v ∈ s.2, InRange v where
  read := by
    rintro ⟨s, written⟩ ⟨hs, hw⟩
    have := h.read s hs
    simp only [Wiring.recording]
    cases hr : w.read s <;> rw [hr] at this <;> exact ⟨⟨this.1, hw⟩, this.2⟩
  write v hv := by
    rintro ⟨s, written⟩ ⟨hs, hw⟩
    have := h.write v hv s hs
    have hw' : ∀ u ∈ written ++ [v], InRange u := by
      intro u hu
      rcases List.mem_append.mp hu with hu | hu
      · exact hw u hu
      · rwa [List.mem_singleton.mp hu]
    simp only [Wiring.recording]
    cases hr : w.write v s <;> rw [hr] at this <;> exact ⟨⟨this.1, hw'⟩, this.2⟩

end Wiring

/-! ### Sessions -/

namespace Session
variable {w : Wiring σ} {Good : σ → Prop}

/-- All cells are in the range, and `Good` holds around the machine. -/
def Within (Good : σ → Prop) (s : Session σ) : Prop := s.machine.Within InRange ∧ Good s.world

theorem ensures_onMachine {x : MachineM α} {Q : α → Prop}
    (h : Ensures (Machine.Within InRange) Q Fault.Own x) :
    Ensures (Within Good) Q (fun _ => True) (onMachine x) := by
  rintro s ⟨hm, hg⟩
  rw [onMachine_eq]
  exact (h.mono (fun _ => id) fun _ _ => trivial).part hm fun m hm => ⟨hm, hg⟩

theorem ensures_onWorld {x : EStateM Fault σ α} {Q : α → Prop}
    (h : Ensures Good Q (fun _ => True) x) :
    Ensures (Within Good) Q (fun _ => True) (onWorld x) := by
  rintro s ⟨hm, hg⟩
  rw [onWorld_eq]
  exact h.part hg fun world hg => ⟨hm, hg⟩

theorem ensures_logWhen (traced : Bool) (a cell : Int) (i : Instruction) :
    Ensures (Within Good) (fun _ => True) (fun _ => True) (logWhen traced a cell i) := by
  cases traced with
  | false => exact .ret trivial
  | true =>
    intro s hs
    simp only [logWhen, logLine, if_true]
    split <;> exact ⟨hs, trivial⟩

theorem ensures_issue (hw : w.Keeps Good) (traced : Bool) (a : Int) :
    Ensures (Within Good) (fun _ => True) (fun _ => True) (issue w traced a) := by
  rw [issue_eq]
  have hfetch := Machine.ensures_fetch (fun _ h => h) a
  refine (ensures_onMachine hfetch).bind fun (cell, i) _ => ?_
  refine (ensures_logWhen traced a cell i).bind fun _ _ => ?_
  have hperform := Machine.ensures_perform (fun _ h => h) a i
  refine (ensures_onMachine hperform).bind fun e he => ?_
  cases e with
  | next b => exact .ret trivial
  | halt => exact .ret trivial
  | read target next => exact .ret trivial
  | write v next => exact (ensures_onWorld (hw.write v he)).bind fun _ _ => .ret trivial

theorem ensures_complete (hw : w.Keeps Good) (target next : Int) :
    Ensures (Within Good) (fun _ => True) (fun _ => True) (complete w target next) := by
  refine (ensures_onWorld hw.read).bind fun v hv => ?_
  cases v with
  | none => exact .ret trivial
  | some v =>
    have hpoke := Machine.ensures_poke (fun _ h => h) (hv v rfl) target
    exact (ensures_onMachine hpoke).bind fun _ _ => .ret trivial

theorem ensures_step (hw : w.Keeps Good) (traced : Bool) (a : Int) :
    Ensures (Within Good) (fun _ => True) (fun _ => True) (step w traced a) := by
  refine (ensures_issue hw traced a).bind fun p _ => ?_
  cases p with
  | running b => exact .ret trivial
  | reading target next => exact ensures_complete hw target next
  | halted => exact .ret trivial

theorem ensures_run (hw : w.Keeps Good) (traced : Bool) (fuel : Nat) (a : Int) :
    Ensures (Within Good) (fun _ => True) (fun _ => True) (run w traced fuel a) := by
  induction fuel generalizing a with
  | zero => exact .ret trivial
  | succ fuel ih =>
    refine (ensures_step hw traced a).bind fun p _ => ?_
    cases p with
    | running b => exact ih b
    | reading target next => exact .ret trivial
    | halted => exact .ret trivial

/-! ### A wiring in front of another one -/

/-- The session around what `view` shows of the world. -/
def mapWorld (view : σ → τ) (s : Session σ) : Session τ := ⟨s.machine, view s.world, s.log⟩

section
variable {view : σ → τ} {u : Wiring τ}

theorem simulates_onMachine (x : MachineM α) :
    Simulates (mapWorld view) (onMachine x) (onMachine x) := by
  intro s
  simp only [onMachine, mapWorld]
  cases x s.machine <;> rfl

theorem simulates_onWorld {x : EStateM Fault σ α} {y : EStateM Fault τ α}
    (h : Simulates view x y) : Simulates (mapWorld view) (onWorld x) (onWorld y) := by
  intro s
  simp only [onWorld, mapWorld, ← h s.world]
  cases x s.world <;> rfl

theorem simulates_logWhen (traced : Bool) (a cell : Int) (i : Instruction) :
    Simulates (mapWorld view) (logWhen traced a cell i) (logWhen traced a cell i) := by
  cases traced with
  | false => exact .ret ()
  | true =>
    intro s
    simp only [logWhen, logLine, if_true, mapWorld]
    split <;> rfl

theorem simulates_step (hread : Simulates view w.read u.read)
    (hwrite : ∀ v, Simulates view (w.write v) (u.write v)) (traced : Bool) (a : Int) :
    Simulates (mapWorld view) (step w traced a) (step u traced a) := by
  have hissue : Simulates (mapWorld view) (issue w traced a) (issue u traced a) := by
    rw [issue_eq, issue_eq]
    refine (simulates_onMachine _).bind fun (cell, i) => ?_
    refine (simulates_logWhen traced a cell i).bind fun _ => ?_
    refine (simulates_onMachine _).bind fun e => ?_
    cases e with
    | next b => exact .ret _
    | halt => exact .ret _
    | read target next => exact .ret _
    | write v next => exact (simulates_onWorld (hwrite v)).bind fun _ => .ret _
  refine hissue.bind fun p => ?_
  cases p with
  | running b => exact .ret _
  | halted => exact .ret _
  | reading target next =>
    refine (simulates_onWorld hread).bind fun v => ?_
    cases v with
    | none => exact .ret _
    | some v => exact (simulates_onMachine _).bind fun _ => .ret _

theorem simulates_run (hread : Simulates view w.read u.read)
    (hwrite : ∀ v, Simulates view (w.write v) (u.write v)) (traced : Bool) (fuel : Nat) (a : Int) :
    Simulates (mapWorld view) (run w traced fuel a) (run u traced fuel a) := by
  induction fuel generalizing a with
  | zero => exact .ret _
  | succ fuel ih =>
    refine (simulates_step hread hwrite traced a).bind fun p => ?_
    cases p with
    | running b => exact ih b
    | reading target next => exact .ret _
    | halted => exact .ret _

end

/-- To record what is written changes nothing else. -/
theorem run_recording (w : Wiring σ) (traced : Bool) (fuel : Nat) (a : Int)
    (s : Session (σ × List Int)) :
    viewResult (mapWorld Prod.fst) (run w.recording traced fuel a s) =
      run w traced fuel a (s.mapWorld Prod.fst) := by
  refine simulates_run ?_ ?_ traced fuel a s
  · intro s
    simp only [Wiring.recording]
    cases w.read s.1 <;> rfl
  · intro v s
    simp only [Wiring.recording]
    cases w.write v s.1 <;> rfl

end Session

/-! ### Devices -/

namespace Devices

variable {α : Type} {x : EStateM Fault Channel α} {Q : α → Prop} {c : Channel} {d : Devices}

theorem onInput_eq (x : EStateM Fault Channel α) (c : Channel) (d : Devices) :
    onInput x c d = viewResult (fun c => { d with input := .channel c }) (x c) := by
  unfold onInput viewResult
  cases x c <;> rfl

theorem onOutput_eq (x : EStateM Fault Channel α) (c : Channel) (d : Devices) :
    onOutput x c d = viewResult (fun c => { d with output := .channel c }) (x c) := by
  unfold onOutput viewResult
  cases x c <;> rfl

theorem ensures_onWriter {P : Devices → Prop}
    (hP : ∀ d w, P d → P { d with output := .writer w }) (text : String) (fault : String → Fault)
    (w : Writer) : Ensures P (fun _ => True) (fun _ => True) (onWriter text fault w) := by
  intro d hd
  unfold onWriter
  cases Writer.put text w with
  | ok u w' | error reason w' => exact ⟨hP d w' hd, trivial⟩

theorem ensures_prompt {P : Devices → Prop}
    (hP : ∀ d w, P d → P { d with output := .writer w }) :
    Ensures P (fun _ => True) (fun _ => True) prompt := by
  refine .get_bind fun d hd => ?_
  split
  · exact ensures_onWriter hP _ _ _
  · exact .ret trivial

theorem ensures_readLine {P : Devices → Prop}
    (hP : ∀ d stream, P d → P { d with input := .reader stream }) (stream : Stream) :
    Ensures P InRange (fun _ => True) (readLine stream) := by
  unfold readLine
  split
  · exact .fail trivial
  · rename_i line rest _
    refine .modify_bind (fun d hd => hP d rest hd) ?_
    by_cases hl : line.isEmpty = true
    · simp only [hl, if_true]
      exact .fail trivial
    · simp only [hl]
      cases hv : Input.integer line with
      | ok v => exact .ret (Input.inRange_of_integer hv)
      | error f => exact .fail trivial

/-- What does not come from a channel is in the range, whatever the text. -/
theorem inRange_of_read {d' : Devices} {v : Int} (hd : ∀ c, d.input ≠ .channel c)
    (h : Devices.read d = .ok (some v) d') : InRange v := by
  obtain ⟨e, d₁, hg, h⟩ := bind_eq_ok h
  have hg : EStateM.Result.ok d d = .ok e d₁ := hg
  cases hg
  cases hi : d.input with
  | none =>
    rw [hi] at h
    cases h
  | literal text =>
    rw [hi] at h
    dsimp only at h
    cases hv : Input.integer text.toList with
    | ok u =>
      rw [hv] at h
      cases h
      exact Input.inRange_of_integer hv
    | error f =>
      rw [hv] at h
      cases h
  | reader stream =>
    rw [hi] at h
    obtain ⟨-, d₁, -, h⟩ := bind_eq_ok h
    obtain ⟨u, d₂, hr, h⟩ := bind_eq_ok h
    cases h
    exact ((ensures_readLine (P := fun _ => True) (fun _ _ => id) stream).of_ok trivial hr).2
  | channel c => exact absurd hi (hd c)

/-- A property of devices that goes with values in the range on the channel that is read, and is kept
by everything that happens to devices. -/
structure Guards (P : Devices → Prop) : Prop where
  within : ∀ {d c}, P d → d.input = .channel c → c.Within
  input : ∀ {d} c, P d → c.Within → P { d with input := .channel c }
  reader : ∀ d stream, P d → P { d with input := .reader stream }
  writer : ∀ d w, P d → P { d with output := .writer w }
  sent : ∀ {d c v}, P d → d.output = .channel c → InRange v → ∀ e, P e →
    P { e with output := .channel (finalState (Channel.deliver v c)) }

namespace Guards
variable {P : Devices → Prop}

theorem onInput (h : Guards P) (hx : Ensures Channel.Within Q (fun _ => True) x) (hc : c.Within) :
    Ensures P Q (fun _ => True) (onInput x c) := by
  intro d hd
  rw [onInput_eq]
  exact hx.part hc fun e he => h.input e hd he

theorem read (h : Guards P) :
    Ensures P (fun v => ∀ u ∈ v, InRange u) (fun _ => True) Devices.read := by
  refine .get_bind fun d hd => ?_
  cases hi : d.input with
  | none => exact .fail trivial
  | literal text =>
    dsimp only
    cases hv : Input.integer text.toList with
    | ok v =>
      refine .ret ?_
      rintro u ⟨⟩
      exact Input.inRange_of_integer hv
    | error f => exact .fail trivial
  | reader stream =>
    refine (ensures_prompt h.writer).bind fun _ _ => ?_
    refine (ensures_readLine h.reader stream).bind fun v hv => .ret ?_
    rintro u ⟨⟩
    exact hv
  | channel c => exact h.onInput Channel.ensures_fetch (h.within hd hi)

theorem write (h : Guards P) {v : Int} (hv : InRange v) :
    Ensures P (fun _ => True) (fun _ => True) (Devices.write v) := by
  refine .get_bind fun d hd => ?_
  cases ho : d.output with
  | none => exact .fail trivial
  | writer w =>
    dsimp only
    by_cases hw : Numeral.Writable v
    · rw [if_pos hw]
      exact ensures_onWriter h.writer _ _ _
    · rw [if_neg hw]
      exact .fail trivial
  | channel c =>
    intro e he
    have hsent := h.sent hd ho hv e he
    show P (finalState (onOutput _ c e)) ∧ Yields _ _ (onOutput _ c e)
    rw [onOutput_eq]
    cases hx : Channel.deliver v c with
    | ok u c' | error f c' =>
      rw [hx] at hsent
      exact ⟨hsent, trivial⟩
  | feedback =>
    refine .get_bind fun d hd => ?_
    cases hi : d.input with
    | none | literal text | reader stream => exact .fail trivial
    | channel c => exact h.onInput (Channel.ensures_deliver hv) (h.within hd hi)

theorem keeps (h : Guards P) : Devices.wiring.Keeps P := ⟨h.read, fun _ hv => h.write hv⟩

end Guards

/-- All values on the channels of the devices are in the range. -/
def Within (d : Devices) : Prop :=
  (∀ c, d.input = .channel c → c.Within) ∧ ∀ c, d.output = .channel c → c.Within

theorem guards_within : Guards Within where
  within hd := hd.1 _
  input c hd hc := ⟨by rintro _ ⟨⟩; exact hc, hd.2⟩
  reader _ _ hd := ⟨nofun, hd.2⟩
  writer _ _ hd := ⟨hd.1, nofun⟩
  sent hd ho hv e he :=
    ⟨he.1, by rintro _ ⟨⟩; exact (Channel.ensures_deliver hv _ (hd.2 _ ho)).1⟩

theorem keeps : Devices.wiring.Keeps Within := guards_within.keeps

end Devices

end Intcode
