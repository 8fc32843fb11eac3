import Intcode.Proofs.FailureOrder
import Intcode.Proofs.Operand

/-! # Networks that are stuck

A stage that cannot step has finished, or it waits at a channel that is empty and still open, so the
writer of that channel has not finished. Along a line the writers lead back to the values that were
given, and the channel with these is closed from the start: the first stage that has not finished is
never blocked. Around a ring the writers lead back to the stage itself: either all stages have
finished, or none has and each of them waits for another one. -/

namespace Intcode

namespace Machine
variable {a t b : Int} {m m' : Machine} {i : Instruction}

/-- An instruction that reads is the last one that was executed. -/
def AtRead (m : Machine) : Prop :=
  ∃ e i, m.trace.back? = some e ∧ Instruction.decode (some e.address) e.cell = .ok i ∧
    i.operation = .input

theorem atRead_of_execute (h : execute a m = .ok (.read t b) m') : m'.AtRead := by
  obtain ⟨-, i, hi, hperf⟩ := decodeAt_of_execute h
  have hop : i.operation = .input := (effect_read_iff hperf).mp ⟨t, b, rfl⟩
  have hgrown : (m.enter a).Grown m' := grown_of_perform_ok hperf nofun
  refine ⟨⟨a, m.memory.get a.toNat⟩, i, ?_, hi, hop⟩
  rw [hgrown.trace]
  simp [enter]

end Machine

namespace Channel

/-- The end mark stands in a closed channel, whatever has been received. -/
theorem Regular.queue_ne_nil {c : Channel} (h : c.Regular) (hc : c.closed = true) :
    c.queue ≠ [] := by
  intro hq
  have hmark : c.queue = c.values.map .value ++ [.endMark] := by rw [h, hc]; rfl
  rw [hq] at hmark
  simp at hmark

end Channel

theorem Request.closed_serve (r : Request) {c : Channel} (hc : c.closed = true) :
    (r.serve c).2.closed = true := by
  cases r with
  | rest s => exact hc
  | send v sent refused => simpa only [serve, Channel.send_of_closed hc] using hc
  | receive got waiting ended => rw [serve_receive_snd, Channel.closed_recv, hc]
  | close s => exact c.closed_close

namespace Stage
variable {s : Stage} {c : Channel}

/-- The machine of the stage has halted or failed. -/
def hasEnded (s : Stage) : Bool :=
  match s.status with
  | .running _ | .reading .. => false
  | .raised _ | .closing _ | .finished _ => true

theorem hasEnded_serve (h : s.hasEnded = true) (c : Channel) :
    (s.request.serve c).1.hasEnded = true := by
  obtain ⟨m, status⟩ := s
  cases status with
  | running a | reading t b => cases h
  | raised f | closing outcome | finished outcome => rfl

/-- A stage that waits for a value stands at an instruction that reads. -/
def Attends (s : Stage) : Prop := ∀ t b, s.status = .reading t b → s.machine.AtRead

theorem attends_of_output (h : s.request.side = .output) : s.Attends := by
  intro t b hs
  have hinput : s.request.side = .input := side_request_eq_input.mpr ⟨t, b, hs⟩
  rw [h] at hinput
  cases hinput

theorem attends_of_running (m : Machine) (a : Int) : (Stage.mk m (.running a)).Attends :=
  attends_of_output (side_request_running m a)

theorem Attends.serve (h : s.Attends) (c : Channel) : (s.request.serve c).1.Attends := by
  obtain ⟨m, status⟩ := s
  cases status with
  | running a =>
    simp only [request]
    cases he : Machine.execute a m with
    | error f m' => exact attends_of_output rfl
    | ok e m' =>
      cases e with
      | next b => exact attends_of_running m' b
      | halt => exact attends_of_output rfl
      | read t b =>
        intro t' b' hs
        cases hs
        exact Machine.atRead_of_execute he
      | write v b =>
        simp only [Request.serve]
        cases c.send v with
        | ok d => exact attends_of_running m' b
        | error f => exact attends_of_output rfl
  | reading t b =>
    simp only [request, Request.serve]
    rcases c.recv_cases with ⟨-, hr⟩ | ⟨v, is, -, hr⟩ | ⟨is, -, hr⟩
    · simpa only [hr] using h
    · simp only [hr, resume]
      cases Machine.poke t v m with
      | ok old m' => exact attends_of_running m' b
      | error f m' => exact attends_of_output rfl
    · simp only [hr]
      exact attends_of_output rfl
  | raised f => exact attends_of_output rfl
  | closing outcome => exact attends_of_output rfl
  | finished outcome => exact attends_of_output rfl

end Stage

namespace Network
variable {n m u : Network} {i j k : Nat} {s t : Stage} {c d : Channel} {is js : List Nat}

/-- Stage `i` stands at an instruction that reads, and its own channel is empty and open. -/
def Waits (n : Network) (i : Nat) : Prop :=
  ∃ s t b c, n.stages[i]? = some s ∧ s.status = .reading t b ∧ s.machine.AtRead ∧
    n.channels[i]? = some c ∧ c.queue = [] ∧ c.closed = false

/-! ### What a step keeps -/

theorem attends_advance (hn : n.WellFormed) (h : ∀ s ∈ n.stages, s.Attends) (i : Nat) :
    ∀ s ∈ (n.advance i).stages, s.Attends := by
  cases hs : n.stages[i]? with
  | none => simpa only [advance, hs] using h
  | some s =>
    obtain ⟨c, hc⟩ := hn.port_channel hs s.request
    rw [advance_eq hs hc]
    intro t ht
    rcases List.mem_or_eq_of_mem_set ht with ht | rfl
    · exact h t ht
    · exact (h s (List.mem_of_getElem? hs)).serve c

/-- A channel that is closed stays so. -/
theorem closed_advance (hn : n.WellFormed) (hc : n.channels[k]? = some c) (hcl : c.closed = true)
    (i : Nat) : ∃ d, (n.advance i).channels[k]? = some d ∧ d.closed = true := by
  cases hs : n.stages[i]? with
  | none => exact ⟨c, by simpa only [advance, hs] using hc, hcl⟩
  | some s =>
    obtain ⟨p, hp⟩ := hn.port_channel hs s.request
    rw [advance_eq hs hp]
    by_cases hk : n.port i s.request = k
    · subst hk
      obtain rfl : p = c := Option.some.inj (hp.symm.trans hc)
      have hlt := (List.getElem?_eq_some_iff.mp hc).1
      exact ⟨_, List.getElem?_set_self hlt, s.request.closed_serve hcl⟩
    · exact ⟨c, (List.getElem?_set_ne hk).trans hc, hcl⟩

/-- A stage that has halted or failed stays so. -/
theorem hasEnded_advance (hn : n.WellFormed) (hs : n.stages[k]? = some s)
    (he : s.hasEnded = true) (i : Nat) :
    ∃ t, (n.advance i).stages[k]? = some t ∧ t.hasEnded = true := by
  by_cases hk : i = k
  · subst hk
    obtain ⟨p, hp⟩ := hn.port_channel hs s.request
    have hlt := (List.getElem?_eq_some_iff.mp hs).1
    rw [advance_eq hs hp]
    exact ⟨_, List.getElem?_set_self hlt, Stage.hasEnded_serve he p⟩
  · exact ⟨s, (stages_advance_ne hn hk).trans hs, he⟩

/-! ### Blocked stages -/

/-- A stage that has not finished is ready if its channel is closed. -/
theorem Causal.ready_of_closed (h : n.Causal) (hs : n.stages[i]? = some s)
    (hf : s.isFinished = false) (hc : n.channels[i]? = some c) (hcl : c.closed = true) :
    n.ready i = true := by
  have hq : c.queue ≠ [] := (h.regular_of hc).queue_ne_nil hcl
  exact ready_iff.mpr ⟨s, hs, hf, fun _ => starved_of_queue_ne_nil hc hq⟩

/-- A stage whose writer has finished has finished or is ready. -/
theorem Causal.ready_of_writer (h : n.Causal) (ht : n.stages[j]? = some t)
    (hfin : t.isFinished = true) (hj : n.sink j = i) (hs : n.stages[i]? = some s)
    (hf : s.isFinished = false) : n.ready i = true := by
  have hc := List.getElem?_eq_getElem (h.wellFormed.lt_channels hs)
  subst hj
  exact h.ready_of_closed hs hf hc ((h.closed ht hc).mpr hfin)

/-- A stage that is not ready has finished or waits. -/
theorem Causal.waits_of_not_ready (h : n.Causal) (hatt : ∀ s ∈ n.stages, s.Attends)
    (hs : n.stages[i]? = some s) (hf : s.isFinished = false) (hr : ¬ n.ready i = true) :
    n.Waits i := by
  obtain ⟨c, hc⟩ : ∃ c, n.channels[i]? = some c :=
    ⟨_, List.getElem?_eq_getElem (h.wellFormed.lt_channels hs)⟩
  have hopen : c.closed = false :=
    Bool.eq_false_iff.mpr fun hcl => hr (h.ready_of_closed hs hf hc hcl)
  have hstarved : ¬ (s.request.side = .input → n.starved i = false) :=
    fun hst => hr (ready_iff.mpr ⟨s, hs, hf, hst⟩)
  obtain ⟨hside, hempty⟩ := Classical.not_imp.mp hstarved
  obtain ⟨t, b, hst⟩ := Stage.side_request_eq_input.mp hside
  have hread := hatt s (List.mem_of_getElem? hs) t b hst
  have hq : c.queue = [] :=
    Classical.byContradiction fun hq => hempty (starved_of_queue_ne_nil hc hq)
  exact ⟨s, t, b, c, hs, hst, hread, hc, hq, hopen⟩

theorem Initial.attends (hn : Initial n) (hrun : n.Run is m) : ∀ s ∈ m.stages, s.Attends := by
  have hstart : ∀ s ∈ n.stages, s.Attends := by
    intro s hs
    obtain ⟨m, rfl⟩ : ∃ m, s = Stage.start m := by
      cases hn with
      | line machines values =>
        obtain ⟨m, -, rfl⟩ := List.mem_map.mp hs
        exact ⟨m, rfl⟩
      | ring image phases signal _ =>
        obtain ⟨phase, -, rfl⟩ := List.mem_map.mp hs
        exact ⟨_, rfl⟩
    exact Stage.attends_of_running m 0
  exact hn.wellFormed.preserves hrun (fun _ i hm h => attends_advance hm h i) hstart

theorem exists_unfinished (h : n.isFinished = false) :
    ∃ (i : Nat) (s : Stage), n.stages[i]? = some s ∧ s.isFinished = false := by
  rw [isFinished, List.all_eq_false] at h
  obtain ⟨s, hs, hf⟩ := h
  obtain ⟨i, hi⟩ := List.mem_iff_getElem?.mp hs
  exact ⟨i, s, hi, Bool.eq_false_iff.mpr hf⟩

/-! ### Along a line -/

/-- The channel with the values that a line is given is closed all the time. -/
theorem closed_first {machines : List Machine} {values : List Int}
    (hrun : (line machines values).Run is m) :
    ∃ c, m.channels[0]? = some c ∧ c.closed = true := by
  have hstart : ∃ c, (line machines values).channels[0]? = some c ∧ c.closed = true :=
    ⟨(Channel.ofList "pipe0" values).close, rfl, Channel.closed_close _⟩
  have hstep : ∀ (m : Network) (i : Nat), m.WellFormed →
      (∃ c, m.channels[0]? = some c ∧ c.closed = true) →
      ∃ c, (m.advance i).channels[0]? = some c ∧ c.closed = true := by
    rintro m i hm ⟨c, hc, hcl⟩
    exact closed_advance hm hc hcl i
  exact (wellFormed_line machines values).preserves hrun hstep hstart

/-- The first stage of a line that has not finished is ready. -/
theorem ready_of_first {machines : List Machine} {values : List Int}
    (hrun : (line machines values).Run is m) (hs : m.stages[i]? = some s)
    (hf : s.isFinished = false)
    (hbefore : ∀ j t, j < i → m.stages[j]? = some t → t.isFinished = true) :
    m.ready i = true := by
  have h : m.Causal := ((Initial.line machines values).follows hrun).causal
  have hi := (List.getElem?_eq_some_iff.mp hs).1
  by_cases h0 : i = 0
  · subst h0
    obtain ⟨c, hc, hcl⟩ := closed_first hrun
    exact h.ready_of_closed hs hf hc hcl
  · obtain ⟨j, t, ht, hj⟩ := exists_writer hi h.wellFormed.enough (.inl h0)
    -- the writer of a channel other than the first one stands in front of it
    have hlt : j < i := by
      have hchan := h.wellFormed.lt_channels ht
      have hle : j + 1 ≤ m.channels.length := hchan
      rcases Nat.lt_or_eq_of_le hle with hlt | heq
      · have hsink : m.sink j = j + 1 := Nat.mod_eq_of_lt hlt
        omega
      · rw [sink, heq, Nat.mod_self] at hj
        omega
    exact h.ready_of_writer ht (hbefore j t hlt ht) hj hs hf

theorem exists_first_unfinished (h : n.isFinished = false) :
    ∃ (i : Nat) (s : Stage), n.stages[i]? = some s ∧ s.isFinished = false ∧
      ∀ (j : Nat) (t : Stage), j < i → n.stages[j]? = some t → t.isFinished = true := by
  obtain ⟨k, s, hk, hf⟩ := exists_unfinished h
  induction k using Nat.strongRecOn generalizing s with
  | ind k ih =>
    by_cases hex : ∃ (j : Nat) (t : Stage), j < k ∧ n.stages[j]? = some t ∧ t.isFinished = false
    · obtain ⟨j, t, hj, ht, hfalse⟩ := hex
      exact ih j hj t ht hfalse
    · refine ⟨k, s, hk, hf, fun j t hj ht => ?_⟩
      exact (Bool.not_eq_false _).mp fun hfalse => hex ⟨j, t, hj, ht, hfalse⟩

/-! ### Around a ring -/

/-- If no stage is ready and one has finished, then so have those behind it, one after the other. -/
theorem finished_of_finished (h : n.Causal) (hlen : n.channels.length = n.stages.length)
    (hstop : n.Stopped) (hs : n.stages[i]? = some s) (hf : s.isFinished = true) (k : Nat) :
    ∃ t, n.stages[(i + k) % n.stages.length]? = some t ∧ t.isFinished = true := by
  have hi := (List.getElem?_eq_some_iff.mp hs).1
  induction k with
  | zero =>
    rw [Nat.add_zero, Nat.mod_eq_of_lt hi]
    exact ⟨s, hs, hf⟩
  | succ k ih =>
    obtain ⟨t, ht, hfin⟩ := ih
    have hpos : 0 < n.stages.length := Nat.zero_lt_of_lt hi
    have hlt : (i + (k + 1)) % n.stages.length < n.stages.length := Nat.mod_lt _ hpos
    have hsink : n.sink ((i + k) % n.stages.length) = (i + (k + 1)) % n.stages.length := by
      rw [sink, hlen, Nat.mod_add_mod, Nat.add_assoc]
    have hu := List.getElem?_eq_getElem hlt
    refine ⟨_, hu, (Bool.not_eq_false _).mp fun hfalse => ?_⟩
    exact hstop _ (h.ready_of_writer ht hfin hsink hu hfalse)

theorem isFinished_of_finished (h : n.Causal) (hlen : n.channels.length = n.stages.length)
    (hstop : n.Stopped) (hs : n.stages[i]? = some s) (hf : s.isFinished = true) :
    n.isFinished = true := by
  have hi := (List.getElem?_eq_some_iff.mp hs).1
  refine List.all_eq_true.mpr fun t ht => ?_
  obtain ⟨j, hj⟩ := List.mem_iff_getElem?.mp ht
  have hlt := (List.getElem?_eq_some_iff.mp hj).1
  -- from stage i on, stage j comes after this many steps
  obtain ⟨u, hu, hfin⟩ := finished_of_finished h hlen hstop hs hf (j + n.stages.length - i)
  have hround : i + (j + n.stages.length - i) = j + n.stages.length := by omega
  rw [hround, Nat.add_mod_right, Nat.mod_eq_of_lt hlt, hj] at hu
  obtain rfl := Option.some.inj hu
  exact hfin

/-- A ring in which no stage is ready has finished, or all its stages wait. -/
theorem finished_or_waits {image phases : List Int} {signal : Int} (hp : phases ≠ [])
    (hrun : (ring image phases signal).Run is m) (hstop : m.Stopped) :
    m.isFinished = true ∨ ∀ i < m.stages.length, m.Waits i := by
  have hn := Initial.ring image phases signal hp
  have h := hn.follows hrun
  have hlen : m.channels.length = m.stages.length := by
    rw [h.channels, h.stages]
    simp [ring]
  by_cases hany : ∃ (i : Nat) (s : Stage), m.stages[i]? = some s ∧ s.isFinished = true
  · obtain ⟨i, s, hs, hf⟩ := hany
    exact .inl (isFinished_of_finished h.causal hlen hstop hs hf)
  · refine .inr fun i hi => ?_
    have hs := List.getElem?_eq_getElem hi
    have hf : m.stages[i].isFinished = false :=
      Bool.eq_false_iff.mpr fun hfin => hany ⟨i, _, hs, hfin⟩
    exact h.causal.waits_of_not_ready (hn.attends hrun) hs hf (hstop i)

/-- A ring in which a stage has ended never gets stuck before all have finished. -/
theorem progress_of_ended {image phases : List Int} {signal : Int} (hp : phases ≠ [])
    (hrun : (ring image phases signal).Run is n) (hs : n.stages[i]? = some s)
    (he : s.hasEnded = true) (hjs : n.Run js m) : m.isFinished = true ∨ ∃ k, m.ready k = true := by
  have hn := Initial.ring image phases signal hp
  have hstep : ∀ (m : Network) (k : Nat), m.WellFormed →
      (∃ s, m.stages[i]? = some s ∧ s.hasEnded = true) →
      ∃ s, (m.advance k).stages[i]? = some s ∧ s.hasEnded = true := by
    rintro m k hm ⟨s, hs, he⟩
    exact hasEnded_advance hm hs he k
  have hwf := (hn.follows hrun).causal.wellFormed
  obtain ⟨t, ht, hend⟩ := hwf.preserves hjs hstep ⟨s, hs, he⟩
  by_cases hstop : m.Stopped
  · rcases finished_or_waits hp (hrun.append hjs) hstop with hfin | hwaits
    · exact .inl hfin
    · -- a stage that waits has not ended
      obtain ⟨u, x, b, c, hu, hst, -⟩ := hwaits i (List.getElem?_eq_some_iff.mp ht).1
      rw [ht] at hu
      obtain rfl := Option.some.inj hu
      rw [Stage.hasEnded, hst] at hend
      cases hend
  · exact .inr (exists_ready_of_not_stopped hstop)

/-! ### Both shapes -/

/-- In every state of a line the first stage that has not finished is ready, so the line is never
stuck before all have finished. A ring is stuck only if all its stages have finished, or if none has
and each of them stands at a read with its own channel empty and open. Once one of them has halted
or failed, the ring is not stuck in any later state before all have finished. -/
theorem stuck_only_if_all_wait :
    (∀ (machines : List Machine) (values : List Int) (is : List Nat) (n : Network),
      (line machines values).Run is n →
      (∀ (i : Nat) (s : Stage), n.stages[i]? = some s → s.isFinished = false →
        (∀ (j : Nat) (t : Stage), j < i → n.stages[j]? = some t → t.isFinished = true) →
        n.ready i = true) ∧
      (n.isFinished = false →
        ∃ (i : Nat) (s : Stage), n.stages[i]? = some s ∧ s.isFinished = false ∧
          n.ready i = true)) ∧
    (∀ (image phases : List Int) (signal : Int) (is : List Nat) (n : Network), phases ≠ [] →
      (ring image phases signal).Run is n →
      (n.Stopped → n.isFinished = true ∨ ∀ i < n.stages.length, n.Waits i) ∧
      ∀ (i : Nat) (s : Stage), n.stages[i]? = some s → s.hasEnded = true →
        ∀ (js : List Nat) (m : Network), n.Run js m →
        m.isFinished = true ∨ ∃ k, m.ready k = true) := by
  refine ⟨?_, ?_⟩
  · intro machines values is n hrun
    have hfirst : ∀ (i : Nat) (s : Stage), n.stages[i]? = some s → s.isFinished = false →
        (∀ (j : Nat) (t : Stage), j < i → n.stages[j]? = some t → t.isFinished = true) →
        n.ready i = true :=
      fun i s hs hf hbefore => ready_of_first hrun hs hf hbefore
    refine ⟨hfirst, fun hunfinished => ?_⟩
    obtain ⟨i, s, hs, hf, hbefore⟩ := exists_first_unfinished hunfinished
    exact ⟨i, s, hs, hf, hfirst i s hs hf hbefore⟩
  · intro image phases signal is n hp hrun
    refine ⟨finished_or_waits hp hrun, ?_⟩
    intro i s hs he js m hjs
    exact progress_of_ended hp hrun hs he hjs

theorem stopped_of_forall_lt (h : ∀ i < n.stages.length, n.ready i = false) : n.Stopped := by
  intro i hi
  have hr : n.ready i = true := hi
  obtain ⟨s, hs, -⟩ := ready_iff.mp hr
  rw [h i (List.getElem?_eq_some_iff.mp hs).1] at hr
  cases hr

/-- In the line the second stage waits for the first one. In the first ring both stages read more
than they are sent. In the second ring stage 0 halts while stage 1 waits for it. -/
theorem stuck_only_if_all_wait_reading :
    let after (n : Network) (is : List Nat) := is.foldl (fun n i => n.advance i) n
    let pass : List Int := [3, 5, 4, 5, 99, 0]
    let line := line [.load pass, .load pass] [7]
    let n := after line [1, 0]
    let greedy := ring [3, 0, 3, 0, 3, 0, 99] [1, 2] 5
    let m := after greedy [0, 0, 0, 0, 0, 1, 1, 1]
    let choosy := ring [3, 8, 1006, 8, 7, 3, 8, 99, 0] [0, 1] 5
    let u := after choosy [0, 0, 0, 0, 1, 1, 1, 1]
    let v := after u [0]
    (line.Run [1, 0] n ∧ n.ready 1 = false ∧ n.ready 0 = true) ∧
      (greedy.Run [0, 0, 0, 0, 0, 1, 1, 1] m ∧ m.Stopped ∧ m.Waits 0 ∧ m.Waits 1) ∧
      (choosy.Run [0, 0, 0, 0, 1, 1, 1, 1] u ∧ u.ready 1 = false ∧ u.Run [0] v ∧
        v.isFinished = false ∧ ∃ k, v.ready k = true) := by
  intro after pass line n greedy m choosy u v
  obtain ⟨hline, hring⟩ := stuck_only_if_all_wait
  refine ⟨?_, ?_, ?_⟩
  · have hrun : line.Run [1, 0] n := by decide +kernel
    have hs : n.stages[0]?.any (!·.isFinished) = true := by decide +kernel
    refine ⟨hrun, by decide +kernel, ?_⟩
    obtain ⟨s, hs, hf⟩ := Option.any_eq_true .. |>.mp hs
    refine (hline _ _ _ n hrun).1 0 s hs ?_ fun j t hj => absurd hj (Nat.not_lt_zero j)
    simpa using hf
  · have hrun : greedy.Run [0, 0, 0, 0, 0, 1, 1, 1] m := by decide +kernel
    have hstop : m.Stopped := stopped_of_forall_lt (by decide +kernel)
    have hunfinished : m.isFinished = false := by decide +kernel
    rcases (hring _ _ _ _ m (by decide) hrun).1 hstop with hfin | hwaits
    · rw [hunfinished] at hfin
      cases hfin
    · exact ⟨hrun, hstop, hwaits 0 (by decide +kernel), hwaits 1 (by decide +kernel)⟩
  · have hp : ([0, 1] : List Int) ≠ [] := by decide
    have hrun : choosy.Run [0, 0, 0, 0, 1, 1, 1, 1] u := by decide +kernel
    have hjs : u.Run [0] v := by decide +kernel
    have hunfinished : v.isFinished = false := by decide +kernel
    have hended : u.stages[0]?.any Stage.hasEnded = true := by decide +kernel
    have hblocked : u.ready 1 = false := by decide +kernel
    obtain ⟨s, hs, he⟩ := Option.any_eq_true .. |>.mp hended
    refine ⟨hrun, hblocked, hjs, hunfinished, ?_⟩
    rcases (hring _ _ _ _ u hp hrun).2 0 s hs he [0] v hjs with hfin | hready
    · rw [hunfinished] at hfin
      cases hfin
    · exact hready

end Network

end Intcode
