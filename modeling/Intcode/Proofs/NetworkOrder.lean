import Intcode.Network.Line
import Intcode.Network.Ring
import Intcode.Proofs.Interleaving
import Intcode.Proofs.Request

/-! # The order of steps in a network

Any stage that is ready may step next, and which one does cannot be seen in the end. Stages meet at
channels only, and at every channel one stage sends and one receives: a value that is already queued
is received alike before and after another one is sent behind it, and a stage that is ready stays so
until it steps. In a ring of one stage the two ends of a channel belong to the same stage, and two
different stages never meet. -/

namespace Intcode

namespace Network
variable {n m t u : Network} {i j : Nat} {s : Stage} {c : Channel} {is js : List Nat}

/-! ### Runs -/

/-- Stages that step when they are ready. -/
def interleaving : Interleaving Nat Network := ⟨fun n i => n.ready i = true, advance⟩

instance (n : Network) (i : Nat) : Decidable (interleaving.Ready n i) :=
  inferInstanceAs (Decidable (n.ready i = true))

/-- From `n` to `m` the stages of the schedule step in turn, each when it is ready. -/
abbrev Run (n : Network) (schedule : List Nat) (m : Network) : Prop := interleaving.Run n schedule m

/-- No stage is ready. -/
abbrev Stopped (n : Network) : Prop := interleaving.Stopped n

/-- 1 for a step that executes an instruction: a stage that receives, records a fault or closes its
channel executes none. -/
def executes (n : Network) (i : Nat) : Nat :=
  match n.stages[i]?.map Stage.status with
  | some (.running _) => 1
  | _ => 0

/-- The instructions that are executed along a schedule. -/
def instructions (n : Network) (schedule : List Nat) : Nat :=
  interleaving.total executes n schedule

/-! ### Well-formed networks -/

/-- Every stage has a channel to read, and end marks stand in closed channels only. -/
structure WellFormed (n : Network) : Prop where
  enough : n.stages.length ≤ n.channels.length
  ordered : ∀ c ∈ n.channels, c.Ordered

theorem sink_lt (h : 0 < n.channels.length) (i : Nat) : n.sink i < n.channels.length :=
  Nat.mod_lt _ h

theorem sink_inj (hi : i < n.channels.length) (hj : j < n.channels.length)
    (h : n.sink i = n.sink j) : i = j := by
  have wrap : ∀ k, k < n.channels.length →
      n.sink k = if k + 1 = n.channels.length then 0 else k + 1 := by
    intro k hk
    unfold sink
    split
    · rename_i hk'; rw [hk', Nat.mod_self]
    · exact Nat.mod_eq_of_lt (by omega)
  rw [wrap i hi, wrap j hj] at h
  split at h <;> split at h <;> omega

theorem WellFormed.lt_channels (h : n.WellFormed) (hs : n.stages[i]? = some s) :
    i < n.channels.length :=
  Nat.lt_of_lt_of_le (List.getElem?_eq_some_iff.mp hs).1 h.enough

theorem WellFormed.port_channel (h : n.WellFormed) (hs : n.stages[i]? = some s) (r : Request) :
    ∃ c, n.channels[n.port i r]? = some c := by
  have hi := h.lt_channels hs
  have hp : n.port i r < n.channels.length := by
    unfold port
    split
    · exact hi
    · exact sink_lt (by omega) i
  exact ⟨_, List.getElem?_eq_getElem hp⟩

theorem WellFormed.advance (h : n.WellFormed) (i : Nat) : (n.advance i).WellFormed := by
  cases hs : n.stages[i]? with
  | none => simpa only [Network.advance, hs] using h
  | some s =>
    obtain ⟨c, hc⟩ := h.port_channel hs s.request
    rw [advance_eq hs hc]
    refine ⟨by simpa using h.enough, fun d hd => ?_⟩
    rcases List.mem_or_eq_of_mem_set hd with hd | rfl
    · exact h.ordered d hd
    · exact s.request.ordered_serve (h.ordered c (List.mem_of_getElem? hc))

/-- What every step of a well-formed network keeps holds after every run. -/
theorem WellFormed.preserves {P : Network → Prop} (hn : n.WellFormed) (hrun : n.Run is m)
    (hstep : ∀ n i, n.WellFormed → P n → P (n.advance i)) (h : P n) : P m := by
  have hboth : ∀ n i, n.WellFormed ∧ P n → interleaving.Ready n i →
      (interleaving.step i n).WellFormed ∧ P (interleaving.step i n) :=
    fun n i hn _ => ⟨hn.1.advance i, hstep n i hn.1 hn.2⟩
  exact (hrun.preserves hboth ⟨hn, h⟩).2

/-- A stage is ready unless it has finished or finds nothing on its channel. -/
theorem ready_iff : n.ready i = true ↔ ∃ s, n.stages[i]? = some s ∧ s.isFinished = false ∧
    (s.request.side = .input → n.starved i = false) := by
  unfold ready
  cases hs : n.stages[i]? with
  | none => simp
  | some s =>
    obtain ⟨machine, status⟩ := s
    simp only [Option.map_some, Option.some.injEq, exists_eq_left', Stage.side_request_eq_input]
    cases status <;> simp [Stage.isFinished]

theorem queue_ne_nil_of_starved (hc : n.channels[i]? = some c) (h : n.starved i = false) :
    c.queue ≠ [] := by
  simpa [starved, hc] using h

theorem starved_of_queue_ne_nil (hc : n.channels[i]? = some c) (h : c.queue ≠ []) :
    n.starved i = false := by
  simpa [starved, hc] using h

theorem stages_advance_ne (h : n.WellFormed) (hij : i ≠ j) :
    (n.advance i).stages[j]? = n.stages[j]? := by
  cases hs : n.stages[i]? with
  | none => simp only [advance, hs]
  | some s =>
    obtain ⟨c, hc⟩ := h.port_channel hs s.request
    rw [advance_eq hs hc]
    exact List.getElem?_set_ne hij

/-- The step of another stage takes nothing from a channel. -/
theorem starved_advance (h : n.WellFormed) (hij : i ≠ j) (hj : j < n.channels.length)
    (hst : n.starved j = false) : (n.advance i).starved j = false := by
  cases hs : n.stages[i]? with
  | none => simpa only [advance, hs] using hst
  | some s =>
    obtain ⟨c, hc⟩ := h.port_channel hs s.request
    rw [advance_eq hs hc]
    by_cases hp : n.port i s.request = j
    · have hside : s.request.side = .output := by
        cases hs : s.request.side with
        | input => exact absurd (by simpa only [port, hs] using hp) hij
        | output => rfl
      subst hp
      exact starved_of_queue_ne_nil (List.getElem?_set_self hj)
        (Request.queue_serve_ne_nil hside (queue_ne_nil_of_starved hc hst))
    · have hd := List.getElem?_eq_getElem hj
      refine starved_of_queue_ne_nil (c := n.channels[j]) ?_ (queue_ne_nil_of_starved hd hst)
      rw [List.getElem?_set_ne hp]
      exact hd

theorem ready_advance (h : n.WellFormed) (hij : i ≠ j) (hj : n.ready j = true) :
    (n.advance i).ready j = true := by
  obtain ⟨s, hs, hf, hst⟩ := ready_iff.mp hj
  refine ready_iff.mpr ⟨s, (stages_advance_ne h hij).trans hs, hf, fun hside => ?_⟩
  exact starved_advance h hij (h.lt_channels hs) (hst hside)

/-! ### Networks that agree -/

/-- The same but for the order in which faults were recorded. -/
structure Agrees (n m : Network) : Prop where
  stages : m.stages = n.stages
  channels : m.channels = n.channels
  failures : m.failures.Perm n.failures

theorem agrees_equivalence : Equivalence Agrees where
  refl _ := ⟨rfl, rfl, .refl _⟩
  symm h := ⟨h.stages.symm, h.channels.symm, h.failures.symm⟩
  trans h h' := ⟨h'.stages.trans h.stages, h'.channels.trans h.channels,
    h'.failures.trans h.failures⟩

namespace Agrees

theorem wellFormed (h : Agrees n m) (hn : n.WellFormed) : m.WellFormed :=
  ⟨by rw [h.stages, h.channels]; exact hn.enough, by rw [h.channels]; exact hn.ordered⟩

theorem ready (h : Agrees n m) (hi : n.ready i = true) : m.ready i = true := by
  simpa only [Network.ready, starved, h.stages, h.channels] using hi

theorem executes (h : Agrees n m) (i : Nat) : n.executes i = m.executes i := by
  simp only [Network.executes, h.stages]

theorem advance (h : Agrees n m) (hn : n.WellFormed) (i : Nat) :
    Agrees (n.advance i) (m.advance i) := by
  cases hs : n.stages[i]? with
  | none =>
    have hs' : m.stages[i]? = none := by rw [h.stages, hs]
    simpa only [Network.advance, hs, hs'] using h
  | some s =>
    obtain ⟨c, hc⟩ := hn.port_channel hs s.request
    have hs' : m.stages[i]? = some s := by rw [h.stages, hs]
    have hp : m.port i s.request = n.port i s.request := by simp only [port, sink, h.channels]
    have hc' : m.channels[m.port i s.request]? = some c := by rw [h.channels, hp, hc]
    rw [advance_eq hs hc, advance_eq hs' hc', hp, h.stages, h.channels]
    exact ⟨rfl, rfl, h.failures.append_right _⟩

end Agrees

/-! ### Steps of different stages commute -/

/-- Two steps, the second at a channel as the first one leaves it. -/
theorem advance_advance {s t : Stage} {c d : Channel} (hij : i ≠ j) (hs : n.stages[i]? = some s)
    (ht : n.stages[j]? = some t) (hc : n.channels[n.port i s.request]? = some c)
    (hd : (n.channels.set (n.port i s.request)
      (s.request.serve c).2)[n.port j t.request]? = some d) :
    (n.advance i).advance j =
      { stages := (n.stages.set i (s.request.serve c).1).set j (t.request.serve d).1
        channels := (n.channels.set (n.port i s.request) (s.request.serve c).2).set
          (n.port j t.request) (t.request.serve d).2
        failures :=
          n.failures ++ s.failure?.toList.map (i, ·) ++ t.failure?.toList.map (j, ·) } := by
  have hport : ∀ stages failures, Network.port ⟨stages, n.channels.set (n.port i s.request)
      (s.request.serve c).2, failures⟩ j t.request = n.port j t.request := by
    intro stages failures
    simp only [port, sink, List.length_set]
  rw [advance_eq hs hc, advance_eq (s := t) (c := d), hport]
  · exact (List.getElem?_set_ne hij).trans ht
  · rw [hport]; exact hd

/-- At one channel, one of two stages sends and the other one receives. -/
theorem sides_ne (h : n.WellFormed) {s t : Stage} (hij : i ≠ j) (hs : n.stages[i]? = some s)
    (ht : n.stages[j]? = some t) {r q : Request} (hp : n.port i r = n.port j q) :
    r.side ≠ q.side := by
  intro hside
  unfold port at hp
  rw [← hside] at hp
  split at hp
  · exact hij hp
  · exact hij (sink_inj (h.lt_channels hs) (h.lt_channels ht) hp)

theorem advance_comm (h : n.WellFormed) (hij : i ≠ j) (hi : n.ready i = true)
    (hj : n.ready j = true) : Agrees ((n.advance i).advance j) ((n.advance j).advance i) := by
  obtain ⟨s, hs, -, hsi⟩ := ready_iff.mp hi
  obtain ⟨t, ht, -, htj⟩ := ready_iff.mp hj
  obtain ⟨c, hc⟩ := h.port_channel hs s.request
  obtain ⟨d, hd⟩ := h.port_channel ht t.request
  have hfail : ∀ fs gs : List (Nat × Fault),
      (n.failures ++ gs ++ fs).Perm (n.failures ++ fs ++ gs) := by
    intro fs gs
    rw [List.append_assoc, List.append_assoc]
    exact List.perm_append_comm.append_left _
  by_cases hp : n.port i s.request = n.port j t.request
  · have hcd : c = d := by rw [hp, hd] at hc; exact (Option.some.inj hc).symm
    subst hcd
    have hlt := (List.getElem?_eq_some_iff.mp hd).1
    have hord := h.ordered c (List.mem_of_getElem? hc)
    rw [advance_advance hij hs ht hc (d := (s.request.serve c).2)
        (by rw [hp]; exact List.getElem?_set_self hlt),
      advance_advance (Ne.symm hij) ht hs hd (d := (t.request.serve c).2)
        (by rw [hp]; exact List.getElem?_set_self hlt), hp]
    -- the receiver is ready, so there is something at the front of the queue
    have hcomm : (t.request.serve (s.request.serve c).2).1 = (t.request.serve c).1 ∧
        (s.request.serve (t.request.serve c).2).1 = (s.request.serve c).1 ∧
        (t.request.serve (s.request.serve c).2).2 = (s.request.serve (t.request.serve c).2).2 := by
      have hne := sides_ne h hij hs ht hp
      cases hside : s.request.side with
      | output =>
        have htside : t.request.side = .input := by
          cases hq : t.request.side with
          | input => rfl
          | output => exact absurd (hside.trans hq.symm) hne
        have hq : c.queue ≠ [] :=
          queue_ne_nil_of_starved (by simpa only [port, htside] using hd) (htj htside)
        exact Request.serve_comm hside htside hord hq
      | input =>
        have htside : t.request.side = .output := by
          cases hq : t.request.side with
          | input => exact absurd (hside.trans hq.symm) hne
          | output => rfl
        have hq : c.queue ≠ [] :=
          queue_ne_nil_of_starved (by simpa only [port, hside] using hc) (hsi hside)
        obtain ⟨h1, h2, h3⟩ := Request.serve_comm htside hside hord hq
        exact ⟨h2, h1, h3.symm⟩
    obtain ⟨h1, h2, h3⟩ := hcomm
    refine ⟨?_, ?_, hfail _ _⟩
    · simp only [h1, h2]
      exact List.set_comm _ _ (Ne.symm hij)
    · simp only [List.set_set, h3]
  · rw [advance_advance hij hs ht hc ((List.getElem?_set_ne hp).trans hd),
      advance_advance (Ne.symm hij) ht hs hd ((List.getElem?_set_ne (Ne.symm hp)).trans hc)]
    exact ⟨List.set_comm _ _ (Ne.symm hij), List.set_comm _ _ (Ne.symm hp), hfail _ _⟩

theorem commutes : interleaving.Commutes WellFormed Agrees executes where
  same := agrees_equivalence
  inv_step h _ := h.advance _
  inv_same h := h.wellFormed
  ready_same h := h.ready
  step_same hn _ h := h.advance hn _
  weight_same i h := h.executes i
  ready_step h hij _ hj := ready_advance h hij hj
  weight_step h hij _ := by
    show executes (Network.advance _ _) _ = _
    simp only [executes, stages_advance_ne h hij]
  swap h hij hi hj := advance_comm h hij hi hj

/-! ### Networks before their first step -/

/-- A line or a ring about to start. -/
inductive Initial : Network → Prop
  | line (machines : List Machine) (values : List Int) : Initial (line machines values)
  | ring (image phases : List Int) (signal : Int) (h : phases ≠ []) :
    Initial (ring image phases signal)

theorem wellFormed_line (machines : List Machine) (values : List Int) :
    (line machines values).WellFormed := by
  refine ⟨by simp [line], fun c hc => ?_⟩
  simp only [line, List.mem_cons, List.mem_map] at hc
  rcases hc with rfl | ⟨i, -, rfl⟩
  · exact Channel.ordered_close _
  · exact Channel.ordered_ofList _ []

theorem wellFormed_ring (image phases : List Int) (signal : Int) :
    (ring image phases signal).WellFormed := by
  refine ⟨by simp [ring], fun c hc => ?_⟩
  simp only [ring, List.mem_map] at hc
  obtain ⟨⟨phase, i⟩, -, rfl⟩ := hc
  exact Channel.ordered_ofList _ _

theorem Initial.wellFormed (h : Initial n) : n.WellFormed := by
  cases h with
  | line machines values => exact wellFormed_line machines values
  | ring image phases signal _ => exact wellFormed_ring image phases signal

theorem stopped_of_isFinished (h : n.isFinished = true) : n.Stopped := by
  intro i hi
  obtain ⟨s, hs, hf, -⟩ := ready_iff.mp hi
  have := List.all_eq_true.mp h s (List.mem_of_getElem? hs)
  rw [hf] at this
  cases this

theorem Agrees.isFinished (h : Agrees n m) (hn : n.isFinished = true) : m.isFinished = true := by
  rwa [Network.isFinished, h.stages]

theorem exists_ready_of_not_stopped (h : ¬ n.Stopped) : ∃ i, n.ready i = true := by
  apply Classical.byContradiction
  exact fun hn => h fun i hi => hn ⟨i, hi⟩

/-- A run that finishes decides about every other one: none is longer, one that has not finished yet
can go on, and one that cannot go on has finished, after the same steps in some order, in a network
that agrees. -/
theorem WellFormed.run_end (hwf : n.WellFormed) (hrun : n.Run is t) (ht : t.isFinished = true)
    (hjs : n.Run js u) :
    js.length ≤ is.length ∧ (u.isFinished = false → ∃ i, u.ready i = true) ∧
      (u.Stopped → u.isFinished = true ∧ n.instructions js = n.instructions is ∧ js.Perm is ∧
        Agrees t u) := by
  have hstop := stopped_of_isFinished ht
  have same : u.Stopped → js.Perm is ∧ Agrees t u ∧ n.instructions js = n.instructions is :=
    commutes.confluent hwf hrun hstop hjs
  refine ⟨commutes.length_le hwf hrun hstop hjs, fun hu => ?_, fun hu => ?_⟩
  · refine exists_ready_of_not_stopped fun hstop' => ?_
    rw [(same hstop').2.1.isFinished ht] at hu
    cases hu
  · obtain ⟨hperm, hagree, hinstr⟩ := same hu
    exact ⟨hagree.isFinished ht, hinstr, hperm, hagree⟩

/-- If a line or a ring finishes under some schedule, it does so under every one: no schedule is
longer, one that has not finished yet can go on, and one that cannot go on has finished, with the
same number of instructions, the same stages and channels, and the same faults in some order. -/
theorem schedule_unobservable (hn : Initial n) (hrun : n.Run is t) (ht : t.isFinished = true)
    (hjs : n.Run js u) :
    js.length ≤ is.length ∧ (u.isFinished = false → ∃ i, u.ready i = true) ∧
      (u.Stopped → u.isFinished = true ∧ n.instructions js = n.instructions is ∧ js.Perm is ∧
        u.stages = t.stages ∧ u.channels = t.channels ∧ u.failures.Perm t.failures) := by
  obtain ⟨hle, hgo, hend⟩ := hn.wellFormed.run_end hrun ht hjs
  refine ⟨hle, hgo, fun hu => ?_⟩
  obtain ⟨hfin, hinstr, hperm, hagree⟩ := hend hu
  exact ⟨hfin, hinstr, hperm, hagree.stages, hagree.channels, hagree.failures⟩

/-- Two stages that pass a value on, one after the other and interleaved. -/
theorem schedule_unobservable_pass :
    let pass : List Int := [3, 5, 4, 5, 99, 0]
    let n := line [.load pass, .load pass] [7]
    let is := [0, 0, 0, 0, 0, 1, 1, 1, 1, 1]
    let js := [1, 0, 0, 0, 1, 1, 0, 1, 0, 1]
    let t := is.foldl (fun n i => n.advance i) n
    let u := js.foldl (fun n i => n.advance i) n
    Initial n ∧ n.Run is t ∧ t.isFinished = true ∧ n.Run js u ∧ u.stages = t.stages := by
  intro pass n is js t u
  have hn : Initial n := .line _ _
  have hrun : n.Run is t := by decide
  have ht : t.isFinished = true := by decide
  have hjs : n.Run js u := by decide
  have hu : u.isFinished = true := by decide
  have := schedule_unobservable hn hrun ht hjs
  exact ⟨hn, hrun, ht, hjs, (this.2.2 (stopped_of_isFinished hu)).2.2.2.1⟩

end Network

end Intcode
