import Intcode.Proofs.LineSequence
import Intcode.Proofs.StageCourse
import Intcode.Relay

/-! # A ring and the relay of its stages

In a relay each machine has two values to read, its phase and the signal, and only the first value
that it writes is passed on. In a ring it finds the same two values in front of everything else that
its predecessor has written, so it goes the same path. If the last machine writes a single value,
then that value is the last one on the first channel, behind what the first stage has left unread;
so the ring comes to the signal of the relay, whatever the schedule. -/

namespace Intcode

namespace Relay

/-- All that the last machine of the relay writes; nothing if a machine does not halt within `fuel`
instructions, or has no signal to pass on. -/
def lastWritten (fuel : Nat) (image : List Int) : Int → List Int → Option (List Int)
  | _, [] => none
  | signal, [phase] => (Machine.alone fuel (.load image) [phase, signal]).map Prod.snd
  | signal, phase :: next :: phases =>
    match (pass fuel image signal phase).run with
    | some (.ok v) => lastWritten fuel image v (next :: phases)
    | _ => none

variable {fuel : Nat} {image phases : List Int} {phase next signal v : Int}

theorem firstWritten_channels {source sink : String} {vs ws : List Int}
    (h : firstWritten (.channels source sink vs ws) = .ok v) : ∃ sent, ws = v :: sent := by
  cases ws with
  | nil => cases h
  | cons u sent =>
    cases h
    exact ⟨sent, rfl⟩

/-- A machine that passes a signal on has written it first. -/
theorem alone_of_pass (h : (pass fuel image signal phase).run = some (.ok v)) :
    ∃ m sent, Machine.alone fuel (.load image) [phase, signal] = some (m, v :: sent) := by
  have hworld : devices phase signal = .channels "in" "out" [phase, signal] [] := rfl
  unfold pass at h
  rw [hworld] at h
  dsimp only at h
  split at h
  · rename_i s hs
    obtain ⟨es, a, m₁, m, rest, -, -, rfl, -⟩ := Session.run_channels hs
    obtain ⟨sent, hsent⟩ := firstWritten_channels (Option.some.inj h)
    refine ⟨m, sent, ?_⟩
    simp only [Machine.alone, hs, Devices.written_channels, hsent]
  · cases h
  · cases h

/-- A relay that passes a signal on does so at its first machine. -/
theorem pass_of_signal {s : Int}
    (h : (Relay.signal fuel image signal (phase :: phases)).run = some (.ok s)) :
    ∃ v, (pass fuel image signal phase).run = some (.ok v) ∧
      (Relay.signal fuel image v phases).run = some (.ok s) := by
  rw [Relay.signal, List.foldlM_cons, ExceptT.run_bind] at h
  cases hp : (pass fuel image signal phase).run with
  | none =>
    rw [hp] at h
    cases h
  | some r =>
    rw [hp] at h
    cases r with
    | error f => cases h
    | ok v => exact ⟨v, rfl, h⟩

end Relay

namespace Network
open Relay (lastWritten pass)
variable {fuel : Nat} {image phases : List Int} {phase next signal s v : Int} {n n' : Network}
  {ms : List Machine} {m : Machine} {sent : List Int} {js : List Nat} {u : Network}

/-- The first stages of a ring have halted. The next one finds its phase and the signal of the relay
on its channel, those behind it only their phases. -/
structure Midway (image : List Int) (ms : List Machine) (phase : Int) (phases : List Int)
    (signal : Int) (n : Network) : Prop where
  causal : n.Causal
  stages : n.stages = ms.map halted ++ (phase :: phases).map fun _ => .start (.load image)
  channels : n.channels.length = n.stages.length
  front : [phase, signal] <+: n.values ms.length
  fresh : ∀ {k p}, phases[k]? = some p → n.values (ms.length + 1 + k) = [p]

theorem midway_ring (image phases : List Int) (phase signal : Int) :
    Midway image [] phase phases signal (ring image (phase :: phases) signal) where
  causal := causal_ring image (phase :: phases) signal
  stages := rfl
  channels := by simp [ring]
  front := by
    have h : (ring image (phase :: phases) signal).values ([] : List Machine).length =
        [phase, signal] := values_ring image phases phase signal
    exact h ▸ List.prefix_refl _
  fresh := by
    intro k p hk
    have hzip : (phase :: phases).zipIdx[k + 1]? = some (p, k + 1) := by
      rw [List.getElem?_zipIdx, List.getElem?_cons_succ, hk, Nat.zero_add]
      rfl
    have hc : (ring image (phase :: phases) signal).channels[k + 1]? =
        some (phaseChannel p (k + 1) []) := by
      simp only [ring, List.getElem?_map, hzip]
      rfl
    have hindex : ([] : List Machine).length + 1 + k = k + 1 := by
      rw [List.length_nil]
      omega
    rw [hindex, values_eq hc]
    exact Channel.values_ofList _ [p]

namespace Midway

/-- The next stage halts as its machine does in the relay. -/
theorem course (h : Midway image ms phase phases signal n)
    (ha : Machine.alone fuel (.load image) [phase, signal] = some (m, sent)) :
    ∃ taken n', Course ms.length (halted m) taken sent n n' ∧
      n'.stages = (ms ++ [m]).map halted ++ phases.map fun _ => .start (.load image) := by
  obtain ⟨es, a, m₁, rest, hpath, he, hv, rfl⟩ := Machine.path_of_alone ha
  have hs : n.stages[ms.length]? = some (.start (.load image)) := by
    rw [h.stages, List.getElem?_append_right (by simp)]
    simp
  have hreceived : Event.received es <+: n.values ms.length := by
    refine List.IsPrefix.trans ?_ h.front
    rw [hv]
    exact List.prefix_append ..
  obtain ⟨n', hc⟩ := h.causal.course_of_halt hs hpath he hreceived
  refine ⟨_, n', hc, ?_⟩
  rw [hc.stages, h.stages]
  simp [halted]

theorem length_channels (h : Midway image ms phase phases signal n) :
    n.channels.length = ms.length + 1 + phases.length := by
  rw [h.channels, h.stages]
  simp only [List.length_append, List.length_map, List.length_cons]
  omega

theorem step (h : Midway image ms phase (next :: phases) signal n)
    (hp : (pass fuel image signal phase).run = some (.ok v)) :
    ∃ m js n', n.Run js n' ∧ Midway image (ms ++ [m]) next phases v n' := by
  obtain ⟨m, sent, ha⟩ := Relay.alone_of_pass hp
  obtain ⟨taken, n', hc, hstages⟩ := h.course ha
  obtain ⟨js, hrun⟩ := hc.run
  have hsink : n.sink ms.length = ms.length + 1 := by
    refine Nat.mod_eq_of_lt ?_
    rw [h.length_channels, List.length_cons]
    omega
  have hlength : (ms ++ [m]).length = ms.length + 1 := by simp
  refine ⟨m, js, n', hrun, hc.causal h.causal, hstages, ?_, ?_, fun {k p} hk => ?_⟩
  · rw [hc.channels, h.channels, hc.stages, List.length_set]
  · have hnext : n.values (ms.length + 1) = [next] := h.fresh (k := 0) rfl
    rw [hlength, hc.values, if_neg (Nat.succ_ne_self _), if_pos hsink, hnext]
    exact ⟨sent, rfl⟩
  · have hlater : n.values (ms.length + 1 + (k + 1)) = [p] := h.fresh hk
    have hindex : (ms ++ [m]).length + 1 + k = ms.length + 1 + (k + 1) := by
      rw [hlength]
      omega
    have hne : n.sink ms.length ≠ ms.length + 1 + (k + 1) := by
      rw [hsink]
      omega
    rw [hindex, hc.values, if_neg (by omega), if_neg hne, List.append_nil, hlater]

/-- The last stage writes to the first channel. -/
theorem last (h : Midway image ms phase [] signal n)
    (ha : Machine.alone fuel (.load image) [phase, signal] = some (m, [v])) :
    ∃ js n', n.Run js n' ∧ n'.Causal ∧ (∀ s ∈ n'.stages, s.status = .finished none) ∧
      (n'.values 0).getLast? = some v := by
  obtain ⟨taken, n', hc, hstages⟩ := h.course ha
  obtain ⟨js, hrun⟩ := hc.run
  refine ⟨js, n', hrun, hc.causal h.causal, fun s hs => ?_, ?_⟩
  · rw [hstages, List.map_nil, List.append_nil] at hs
    obtain ⟨m, -, rfl⟩ := List.mem_map.mp hs
    rfl
  · have hsink : n.sink ms.length = 0 := by
      rw [sink, h.length_channels]
      exact Nat.mod_self _
    rw [hc.values, if_pos hsink, List.getLast?_append]
    rfl

/-- The sequential schedule of a ring, from the stage on in front of which all have halted. -/
theorem run (h : Midway image ms phase phases signal n)
    (hsignal : (Relay.signal fuel image signal (phase :: phases)).run = some (.ok s))
    (hlast : lastWritten fuel image signal (phase :: phases) = some [v]) :
    s = v ∧ ∃ js n', n.Run js n' ∧ n'.Causal ∧ (∀ t ∈ n'.stages, t.status = .finished none) ∧
      (n'.values 0).getLast? = some v := by
  induction phases generalizing ms phase signal n with
  | nil =>
    obtain ⟨w, hp, hs⟩ := Relay.pass_of_signal hsignal
    obtain ⟨m, sent, ha⟩ := Relay.alone_of_pass hp
    rw [lastWritten, ha] at hlast
    cases hlast
    cases hs
    exact ⟨rfl, h.last ha⟩
  | cons next phases ih =>
    obtain ⟨w, hp, hs⟩ := Relay.pass_of_signal hsignal
    simp only [lastWritten, hp] at hlast
    obtain ⟨m, js, n₁, hrun, h₁⟩ := h.step hp
    obtain ⟨hsv, ks, n', hrun', hend⟩ := ih h₁ hs hlast
    exact ⟨hsv, js ++ ks, n', hrun.append hrun', hend⟩

end Midway

/-! ### Every schedule -/

/-- To settle is one of the schedules. -/
theorem run_settle (fuel : Nat) (n : Network) :
    ∃ js, n.Run js (n.settle fuel) ∧ (js.length = fuel ∨ (n.settle fuel).Stopped) := by
  induction fuel generalizing n with
  | zero => exact ⟨[], rfl, .inl rfl⟩
  | succ fuel ih =>
    rw [settle]
    cases hf : n.firstReady? with
    | none =>
      refine ⟨[], rfl, .inr fun i hi => ?_⟩
      obtain ⟨t, ht, -⟩ := ready_iff.mp hi
      have hlt : i < n.stages.length := (List.getElem?_eq_some_iff.mp ht).1
      exact List.find?_eq_none.mp hf i (List.mem_range.mpr hlt) hi
    | some i =>
      obtain ⟨js, hrun, hend⟩ := ih (n.advance i)
      refine ⟨i :: js, ⟨List.find?_some hf, hrun⟩, ?_⟩
      rcases hend with hlen | hstop
      · exact .inl (congrArg (· + 1) hlen)
      · exact .inr hstop

theorem ringResult?_of_last (h : n.Causal) (hhalted : ∀ t ∈ n.stages, t.status = .finished none)
    (hlast : (n.values 0).getLast? = some v) : n.ringResult? = some (.ok v) := by
  rw [ringResult?, result_of_halted h hhalted]
  simp only [Option.map_some, hlast]

/-- If a relay passes a signal on and its last machine has written that value only, then no schedule
of the ring is longer than a certain one, a schedule that has not finished can go on, and where a
schedule cannot go on the ring has finished with the signal of the relay, without a fault. -/
theorem ring_eq_relay
    (hsignal : (Relay.signal fuel image signal phases).run = some (.ok s))
    (hlast : ∃ v, lastWritten fuel image signal phases = some [v]) :
    ∃ bound, (∀ js u, (ring image phases signal).Run js u → js.length ≤ bound ∧
        (u.isFinished = false → ∃ i, u.ready i = true) ∧
        (u.Stopped → u.isFinished = true ∧ u.failures = [] ∧ u.ringResult? = some (.ok s))) ∧
      ∀ enough, bound ≤ enough →
        (feedback enough image signal phases).run = some (.ok s) := by
  obtain ⟨v, hlast⟩ := hlast
  obtain ⟨phase, phases, rfl⟩ : ∃ phase rest, phases = phase :: rest := by
    cases phases with
    | nil => cases hlast
    | cons phase rest => exact ⟨phase, rest, rfl⟩
  obtain ⟨rfl, is, t, hrun, hcausal, hhalted, hvalue⟩ :=
    (midway_ring image phases phase signal).run hsignal hlast
  have hfinished : t.isFinished = true := by
    refine List.all_eq_true.mpr fun s hs => ?_
    rw [Stage.isFinished, hhalted s hs]
  have hend : ∀ js u, (ring image (phase :: phases) signal).Run js u → js.length ≤ is.length ∧
      (u.isFinished = false → ∃ i, u.ready i = true) ∧
      (u.Stopped → u.isFinished = true ∧ u.failures = [] ∧ u.ringResult? = some (.ok s)) := by
    intro js u hjs
    obtain ⟨hle, hgo, hu⟩ :=
      (wellFormed_ring image (phase :: phases) signal).run_end hrun hfinished hjs
    refine ⟨hle, hgo, fun hstop => ?_⟩
    obtain ⟨hfin, -, -, hagree⟩ := hu hstop
    have hn : Initial (ring image (phase :: phases) signal) := .ring _ _ _ (List.cons_ne_nil _ _)
    have hcausal' : u.Causal := (hn.follows hjs).causal
    have hhalted' : ∀ t ∈ u.stages, t.status = .finished none := by
      rw [hagree.stages]
      exact hhalted
    have hvalue' : (u.values 0).getLast? = some s := by
      rw [values, hagree.channels]
      exact hvalue
    exact ⟨hfin, failures_of_halted hcausal' hhalted', ringResult?_of_last hcausal' hhalted' hvalue'⟩
  refine ⟨is.length, hend, fun enough hle => ?_⟩
  obtain ⟨js, hjs, hlength⟩ := run_settle enough (ring image (phase :: phases) signal)
  have hstop : ((ring image (phase :: phases) signal).settle enough).Stopped := by
    rcases hlength with hlength | hstop
    · -- a step more would be one too many
      intro i hi
      have hmore := (hend (js ++ [i]) _ (hjs.append ⟨hi, rfl⟩)).1
      rw [List.length_append, List.length_singleton] at hmore
      omega
    · exact hstop
  exact ((hend js _ hjs).2.2 hstop).2.2

/-- Two stages. The first one writes two values and leaves the signal on its channel unread; the
second one writes the first of the two values. -/
theorem ring_eq_relay_unread :
    let image : List Int := [3, 20, 1005, 20, 10, 104, 7, 104, 8, 99, 3, 21, 4, 21, 99]
    (Relay.signal 10 image 3 [0, 1]).run = some (.ok 7) ∧
      lastWritten 10 image 3 [0, 1] = some [7] ∧
      ∃ bound, ∀ js u, (ring image [0, 1] 3).Run js u → js.length ≤ bound ∧
        (u.Stopped → u.isFinished = true ∧ u.failures = [] ∧ u.ringResult? = some (.ok 7)) := by
  intro image
  have hsignal : (Relay.signal 10 image 3 [0, 1]).run = some (.ok 7) := by
    have htoOption : (Relay.signal 10 image 3 [0, 1]).run.map Except.toOption = some (some 7) := by
      decide +kernel
    obtain ⟨r, hr, hv⟩ := Option.map_eq_some_iff.mp htoOption
    cases r with
    | error f => cases hv
    | ok v =>
      cases hv
      exact hr
  have hlast : lastWritten 10 image 3 [0, 1] = some [7] := by decide +kernel
  obtain ⟨bound, hrun, -⟩ := ring_eq_relay hsignal ⟨7, hlast⟩
  exact ⟨hsignal, hlast, bound, fun js u hjs => ⟨(hrun js u hjs).1, (hrun js u hjs).2.2⟩⟩

end Network

end Intcode
