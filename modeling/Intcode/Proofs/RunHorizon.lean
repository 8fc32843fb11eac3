import Intcode.Proofs.Horizon
import Intcode.Proofs.NumeralStream
import Intcode.Proofs.SessionValues

/-! # Faults that can be told

The message of a fault names integers, and an integer of more than `digitLimit` digits cannot be
written. Within the horizon of a run that is not longer than any run can be, there is no such
integer; so every fault of the run can be told, and so can every line of its trace. What a stream
says of its own failure is told as it is, and is taken to be one line. -/

namespace Intcode
open Word (InRange)

/-- A text without a line feed. -/
structure Text.OneLine (s : String) : Prop where
  noFeed : ∀ c ∈ s.toList, isFeed c = false

namespace Fault

/-- What the message of the fault takes over from a stream is one line. -/
def Plain : Fault → Prop
  | device _ (.readFailed reason) | device _ (.promptFailed reason)
  | device _ (.writeFailed reason) => Text.OneLine reason
  | decode _ | negativeAddress _ | valueTarget _ | device .. | channel _ | unwritable => True

/-- The faults that are expected where no integer lies beyond `N`. -/
def Expected (N : Nat) (f : Fault) : Prop :=
  f.Plain ∧ (N < Nat.pow 10 Numeral.digitLimit → f.Tellable)

variable {N N' : Nat} {f : Fault}

theorem Expected.mono (h : f.Expected N) (hN : N ≤ N') : f.Expected N' :=
  ⟨h.1, fun hlimit => h.2 (Nat.lt_of_le_of_lt hN hlimit)⟩

theorem Bounded.expected (h : f.Bounded N) : f.Expected N := by
  obtain ⟨hown, hnumbers⟩ := h
  constructor
  · cases f with
    | decode f | negativeAddress a | valueTarget operand => trivial
    | device side cause | channel f | unwritable => exact hown.elim
  · intro hlimit
    refine ⟨?_, fun v hv => Nat.lt_of_le_of_lt (hnumbers v hv) hlimit⟩
    rintro rfl
    exact hown

theorem tellable_device (side : Side) (cause : DeviceCause) : (device side cause).Tellable :=
  ⟨Fault.noConfusion, fun _ hv => absurd hv List.not_mem_nil⟩

end Fault

theorem Input.told_of_integer {cs : List Char} {f : Fault} (h : integer cs = .error f) :
    f.Plain ∧ f.Tellable := by
  unfold integer at h
  split at h
  · cases h
  · cases h
    exact ⟨trivial, Fault.tellable_device _ _⟩

namespace Text

/-- A text of whole lines. -/
def Complete (cs : List Char) : Prop := cs = [] ∨ ∃ ds, cs = ds ++ ['\n']

theorem Complete.append_line {cs ds : List Char} : Complete (cs ++ (ds ++ ['\n'])) :=
  .inr ⟨cs ++ ds, (List.append_assoc ..).symm⟩

end Text

theorem Machine.exists_toList_traceLine (a cell : Int) (i : Instruction) (base : Int) :
    ∃ cs, (traceLine a cell i base).toList = cs ++ ['\n'] := by
  unfold traceLine
  rw [String.toList_append]
  exact ⟨_, rfl⟩

variable {σ α : Type}

/-- While only values in the range are written, `Good` holds, every read gives such a value, and
every fault can be told. -/
structure Wiring.Tells (Good : σ → Prop) (w : Wiring σ) : Prop where
  read : Ensures Good (fun v => ∃ u, v = some u ∧ InRange u) (fun f => f.Plain ∧ f.Tellable) w.read
  write : ∀ v, InRange v → Ensures Good (fun _ => True) (fun f => f.Plain ∧ f.Tellable) (w.write v)

def Progress.Bounded (N : Nat) : Progress → Prop
  | running b => b.natAbs ≤ N
  | reading t b => t.natAbs ≤ N ∧ b.natAbs ≤ N
  | halted => True

namespace Session
variable {w : Wiring σ} {Good : σ → Prop} {k k' N : Nat} {a : Int}

/-- What holds of a session that has executed `k` instructions. -/
structure Settled (Good : σ → Prop) (k : Nat) (s : Session σ) : Prop where
  machine : s.machine.Settled k
  world : Good s.world
  log : Text.Complete s.log.toList

theorem Settled.mono {j : Nat} {s : Session σ} (h : s.Settled Good j) (hj : j ≤ k) :
    s.Settled Good k := ⟨h.machine.mono hj, h.world, h.log⟩

theorem settled_onMachine {x : MachineM α} {Q : α → Prop}
    (h : Leads (Machine.Settled k) (Machine.Settled k') Q (Fault.Bounded N) x) :
    Leads (Settled Good k) (Settled Good k') Q (Fault.Expected N) (onMachine x) := by
  rintro s ⟨hm, hg, hl⟩
  obtain ⟨hm', hY⟩ := h s.machine hm
  rw [onMachine_eq]
  cases hx : x s.machine with
  | ok r m =>
    rw [hx] at hm' hY
    exact ⟨⟨hm', hg, hl⟩, hY⟩
  | error f m =>
    rw [hx] at hm' hY
    exact ⟨⟨hm', hg, hl⟩, Fault.Bounded.expected hY⟩

theorem settled_onWorld {x : EStateM Fault σ α} {Q : α → Prop}
    (h : Ensures Good Q (fun f => f.Plain ∧ f.Tellable) x) :
    Ensures (Settled Good k) Q (Fault.Expected N) (onWorld x) := by
  rintro s ⟨hm, hg, hl⟩
  rw [onWorld_eq]
  refine (h.mono (fun _ => id) fun f hf => ?_).part hg fun world hg => ⟨hm, hg, hl⟩
  exact ⟨hf.1, fun _ => hf.2⟩

/-- A trace line can be written as long as its integers lie inside a horizon that can. -/
theorem settled_logWhen (traced : Bool) {cell : Int} (ha : a.natAbs ≤ horizon k)
    (hc : InRange cell) (i : Instruction) :
    Ensures (Settled Good k) (fun _ => True) (Fault.Expected (horizon k))
      (logWhen traced a cell i) := by
  cases traced with
  | false => exact .ret trivial
  | true =>
    rintro s ⟨hm, hg, hl⟩
    simp only [logWhen, logLine, if_true]
    split
    · obtain ⟨cs, hline⟩ := Machine.exists_toList_traceLine a cell i s.machine.base
      have hlog : (s.log ++ Machine.traceLine a cell i s.machine.base).toList =
          s.log.toList ++ (cs ++ ['\n']) := by rw [String.toList_append, hline]
      refine ⟨⟨hm, hg, ?_⟩, trivial⟩
      exact hlog ▸ Text.Complete.append_line
    · rename_i hunwritable
      refine ⟨⟨hm, hg, hl⟩, trivial, fun hlimit => absurd ?_ hunwritable⟩
      have hcell := natAbs_le_of_inRange hc
      have hbase := hm.base
      have hlarge := le_horizon k
      intro v hv
      refine Nat.lt_of_le_of_lt ?_ hlimit
      simp only [List.mem_cons, List.not_mem_nil, or_false] at hv
      rcases hv with rfl | rfl | rfl
      · exact ha
      · omega
      · omega

theorem settled_conclude (hw : w.Tells Good) {e : Effect} (he : e.Bounded N) :
    Ensures (Settled Good k) (Progress.Bounded N) (Fault.Expected N) (conclude w e) := by
  cases e with
  | next b => exact .ret he
  | halt => exact .ret trivial
  | read t b => exact .ret he
  | write v b => exact (settled_onWorld (hw.write v he.1)).bind fun _ _ => .ret he.2

theorem settled_issue (hw : w.Tells Good) (traced : Bool) (ha : a.natAbs + 4 ≤ horizon k) :
    Leads (Settled Good k) (Settled Good (k + 1)) (Progress.Bounded (horizon k))
      (Fault.Expected (horizon k)) (issue w traced a) := by
  have hnear : a.natAbs ≤ horizon k := by omega
  have hsucc : ∀ s : Session σ, s.Settled Good k → s.Settled Good (k + 1) :=
    fun _ hs => hs.mono (Nat.le_succ k)
  rw [issue_eq]
  refine Leads.bind (settled_onMachine (Machine.bounded_fetch hnear)) hsucc fun (cell, i) hc => ?_
  refine Leads.bind (settled_logWhen traced hnear hc i) hsucc fun _ _ => ?_
  refine Leads.bind (settled_onMachine (Machine.bounded_perform ha i)) (fun _ => id) fun e he => ?_
  exact settled_conclude hw he

theorem settled_complete (hw : w.Tells Good) {t : Int} (ht : t.natAbs ≤ horizon k) (b : Int) :
    Ensures (Settled Good k) (fun p => p = .running b) (Fault.Expected (horizon k))
      (complete w t b) := by
  refine (settled_onWorld hw.read).bind fun v hv => ?_
  obtain ⟨u, rfl, hu⟩ := hv
  have hpoke : Ensures (Settled Good k) (fun _ => True) (Fault.Expected (horizon k))
      (onMachine (Machine.poke t u)) := settled_onMachine (Machine.bounded_poke ht hu)
  exact hpoke.bind fun _ _ => .ret rfl

theorem settled_step (hw : w.Tells Good) (traced : Bool) (ha : a.natAbs + 4 ≤ horizon k) :
    Leads (Settled Good k) (Settled Good (k + 1))
      (fun p => p = .halted ∨ ∃ b, p = .running b ∧ b.natAbs + 4 ≤ horizon (k + 1))
      (Fault.Expected (horizon (k + 1))) (step w traced a) := by
  have hnext := horizon_succ k
  have hle : horizon k ≤ horizon (k + 1) := by omega
  refine ((settled_issue hw traced ha).mono fun f hf => hf.mono hle).bind (fun _ => id) ?_
  intro p hp
  have hrunning : ∀ b : Int, b.natAbs ≤ horizon k →
      Progress.running b = .halted ∨ ∃ c, Progress.running b = .running c ∧
        c.natAbs + 4 ≤ horizon (k + 1) := by
    intro b hb
    refine .inr ⟨b, rfl, ?_⟩
    omega
  cases p with
  | running b => exact Ensures.ret (hrunning b hp)
  | halted => exact Ensures.ret (.inl rfl)
  | reading t b =>
    obtain ⟨ht, hb⟩ : t.natAbs ≤ horizon k ∧ b.natAbs ≤ horizon k := hp
    refine (settled_complete hw (Nat.le_trans ht hle) b).mono (fun p hp => ?_) fun _ => id
    rw [hp]
    exact hrunning b hb

/-- A run of `fuel` instructions gets no further than so many more of them can. It ends with the
program or with the fuel. -/
theorem settled_run (hw : w.Tells Good) (traced : Bool) (fuel : Nat)
    (ha : a.natAbs + 4 ≤ horizon k) :
    Leads (Settled Good k) (Settled Good (k + fuel)) (fun p => p = .halted ∨ ∃ b, p = .running b)
      (Fault.Expected (horizon (k + fuel))) (run w traced fuel a) := by
  -- what has been executed and the fuel that is left add up to the same all along
  induction fuel generalizing k a with
  | zero => exact Ensures.ret (.inr ⟨a, rfl⟩)
  | succ fuel ih =>
    have hlen : k + (fuel + 1) = k + 1 + fuel := by omega
    have hle : horizon (k + 1) ≤ horizon (k + 1 + fuel) := horizon_mono (by omega)
    have hlater : ∀ s : Session σ, s.Settled Good (k + 1) → s.Settled Good (k + 1 + fuel) :=
      fun _ hs => hs.mono (Nat.le_add_right _ fuel)
    rw [hlen]
    refine ((settled_step hw traced ha).mono fun f hf => hf.mono hle).bind hlater fun p hp => ?_
    rcases hp with rfl | ⟨b, rfl, hb⟩
    · exact Ensures.leads (.ret (.inl rfl)) hlater
    · exact ih hb

end Session

/-- Whatever goes wrong with the stream is told on one line. -/
def Stream.Plain : Stream → Prop
  | text _ | bytes _ => True
  | broken reason _ => Text.OneLine reason

theorem Stream.plain_of_readLine {stream rest : Stream} {line : List Char} (h : stream.Plain)
    (hl : stream.readLine = .ok (line, rest)) : rest.Plain := by
  cases stream with
  | text cs | bytes cs =>
    cases hl
    trivial
  | broken reason cs =>
    unfold readLine at hl
    dsimp only at hl
    split at hl <;> cases hl
    exact h

theorem Stream.oneLine_of_readLine {stream : Stream} {reason : String} (h : stream.Plain)
    (hl : stream.readLine = .error reason) : Text.OneLine reason := by
  cases stream with
  | text cs | bytes cs => cases hl
  | broken reason' cs =>
    unfold readLine at hl
    dsimp only at hl
    split at hl <;> cases hl
    exact h

/-- Whatever goes wrong with the writer is told on one line. -/
structure Writer.Plain (w : Writer) : Prop where
  write : Text.OneLine w.reason
  flush : ∀ f, some f ∈ w.flushes → Text.OneLine f.reason

namespace Writer

theorem plain_write (text : String) :
    Ensures Plain (fun _ => True) Text.OneLine (write text) := by
  rintro ⟨passed, held, remaining, reason, flushes⟩ h
  match remaining with
  | none | some (n + 1) => exact ⟨⟨h.write, h.flush⟩, trivial⟩
  | some 0 => exact ⟨h, h.write⟩

theorem plain_flush : Ensures Plain (fun _ => True) Text.OneLine flush := by
  rintro ⟨passed, held, remaining, reason, flushes⟩ h
  match flushes with
  | [] => exact ⟨⟨h.write, nofun⟩, trivial⟩
  | none :: flushes =>
    exact ⟨⟨h.write, fun f hf => h.flush f (List.mem_cons_of_mem _ hf)⟩, trivial⟩
  | some f :: flushes =>
    exact ⟨⟨h.write, fun f hf => h.flush f (List.mem_cons_of_mem _ hf)⟩,
      h.flush f List.mem_cons_self⟩

theorem plain_put (text : String) : Ensures Plain (fun _ => True) Text.OneLine (put text) :=
  (plain_write text).bind fun _ _ => plain_flush

end Writer

namespace Devices

/-- A reader and a writer that fail, if at all, for a reason on one line. -/
structure Standard (d : Devices) : Prop where
  input : ∃ stream : Stream, d.input = .reader stream ∧ stream.Plain
  output : ∃ w : Writer, d.output = .writer w ∧ w.Plain

theorem standard_onWriter {fault : String → Fault} {w : Writer} (text : String) (hw : w.Plain)
    (hfault : ∀ reason, Text.OneLine reason → (fault reason).Plain ∧ (fault reason).Tellable) :
    Ensures Standard (fun _ => True) (fun f => f.Plain ∧ f.Tellable) (onWriter text fault w) := by
  intro d hd
  obtain ⟨hplain, hY⟩ := Writer.plain_put text w hw
  unfold onWriter
  cases hput : Writer.put text w with
  | ok u w' =>
    rw [hput] at hplain
    exact ⟨⟨hd.input, w', rfl, hplain⟩, trivial⟩
  | error reason w' =>
    rw [hput] at hplain hY
    exact ⟨⟨hd.input, w', rfl, hplain⟩, hfault reason hY⟩

theorem standard_prompt :
    Ensures Standard (fun _ => True) (fun f => f.Plain ∧ f.Tellable) prompt := by
  refine .get_bind fun d hd => ?_
  obtain ⟨w, hw, hplain⟩ := hd.output
  rw [hw]
  exact standard_onWriter _ hplain fun reason h => ⟨h, Fault.tellable_device _ _⟩

theorem standard_readLine {stream : Stream} (h : stream.Plain) :
    Ensures Standard InRange (fun f => f.Plain ∧ f.Tellable) (readLine stream) := by
  unfold readLine
  cases hs : stream.readLine with
  | error reason => exact .fail ⟨Stream.oneLine_of_readLine h hs, Fault.tellable_device _ _⟩
  | ok r =>
    obtain ⟨line, rest⟩ := r
    refine .modify_bind (fun d hd => ⟨⟨rest, rfl, Stream.plain_of_readLine h hs⟩, hd.output⟩) ?_
    by_cases hl : line.isEmpty = true
    · simp only [hl, if_true]
      exact .fail ⟨trivial, Fault.tellable_device _ _⟩
    · simp only [hl]
      cases hv : Input.integer line with
      | ok v => exact .ret (Input.inRange_of_integer hv)
      | error f => exact .fail (Input.told_of_integer hv)

/-- On such devices nothing fails for a reason that cannot be told. -/
theorem tells : wiring.Tells Standard where
  read := by
    refine .get_bind fun d hd => ?_
    obtain ⟨stream, hstream, hplain⟩ := hd.input
    simp only [hstream]
    refine standard_prompt.bind fun _ _ => (standard_readLine hplain).bind fun v hv => .ret ?_
    exact ⟨v, rfl, hv⟩
  write v hv := by
    refine .get_bind fun d hd => ?_
    obtain ⟨w, hw, hplain⟩ := hd.output
    simp only [hw]
    rw [if_pos (Numeral.writable_of_inRange hv)]
    exact standard_onWriter _ hplain fun reason h => ⟨h, Fault.tellable_device _ _⟩

end Devices

end Intcode
