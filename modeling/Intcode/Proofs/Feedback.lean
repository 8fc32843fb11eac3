import Intcode.Proofs.FailureOrder

/-! # What is fed back in a ring

Between its writer and its reader a channel loses nothing: what the reader has taken and what is
left for it are, in this order, what was there at the start and what the writer has put behind it.
So what is left on the first channel of a ring ends with the last value that the last stage has
written, if it is not the first stage that has taken everything. But the phase and the signal that
the ring was given stand on that channel too: where the last stage has written nothing and the
first one has not taken both, the given signal is what is left last. -/

namespace Intcode

namespace Stage

/-- The value that the stage writes in its next step. -/
def written? (s : Stage) : Option Int :=
  match s.status with
  | .running a =>
    match Machine.execute a s.machine with
    | .ok (.write v _) _ => some v
    | _ => none
  | _ => none

/-- The value that the stage takes off its channel in its next step. -/
def taken? (s : Stage) (c : Channel) : Option Int :=
  match s.status, c.recv.1 with
  | .reading .., .value v => some v
  | _, _ => none

variable {s : Stage} {c : Channel}

theorem written?_of_input (h : s.request.side = .input) : s.written? = none := by
  obtain ⟨t, b, hs⟩ := side_request_eq_input.mp h
  simp only [written?, hs]

theorem taken?_of_output (h : s.request.side = .output) (c : Channel) : s.taken? c = none := by
  unfold taken?
  split
  · rename_i t b v hs hr
    have hinput : s.request.side = .input := side_request_eq_input.mpr ⟨t, b, hs⟩
    rw [h] at hinput
    cases hinput
  · rfl

/-- A stage that has not finished finds its sink open, and puts there what it writes. -/
theorem values_serve_output (h : s.request.side = .output) (hc : c.Regular)
    (hcl : c.closed = true ↔ s.isFinished = true) :
    (s.request.serve c).2.values = c.values ++ s.written?.toList := by
  obtain ⟨m, status⟩ := s
  cases status with
  | reading t b => cases h
  | running a =>
    simp only [request, written?]
    cases he : Machine.execute a m with
    | error f m' => exact (List.append_nil c.values).symm
    | ok e m' =>
      cases e with
      | next b | halt | read t b => exact (List.append_nil c.values).symm
      | write v b =>
        have hopen : c.closed = false := Bool.eq_false_iff.mpr fun h => by cases hcl.mp h
        have hsend := Channel.send_of_open hopen v
        simp only [Request.serve, hsend]
        exact (hc.send hsend).2.1
  | raised f => exact (List.append_nil c.values).symm
  | closing outcome =>
    rw [written?, Option.toList_none, List.append_nil]
    exact hc.close.2
  | finished outcome => exact (List.append_nil c.values).symm

theorem values_serve_input (h : s.request.side = .input) (hc : c.Regular) :
    (s.taken? c).toList ++ (s.request.serve c).2.values = c.values := by
  obtain ⟨m, status⟩ := s
  obtain ⟨t, b, hst⟩ := side_request_eq_input.mp h
  obtain rfl : status = .reading t b := hst
  have hserve : ((Stage.mk m (.reading t b)).request.serve c).2 = c.recv.2 :=
    Request.serve_receive_snd ..
  rw [hserve, taken?]
  rcases hc.recv_cases with ⟨hr, -⟩ | ⟨v, d, hr, -, hv, -⟩ | ⟨hr, -⟩
  · simp only [hr, Option.toList_none, List.nil_append]
  · simp only [hr, hv, Option.toList_some, List.singleton_append]
  · simp only [hr, Option.toList_none, List.nil_append]

end Stage

namespace Network
variable {n m : Network} {i j k : Nat} {s : Stage} {c : Channel} {is : List Nat}

/-- The value that stage `i` writes in its next step. -/
def written? (i : Nat) (n : Network) : Option Int := n.stages[i]?.bind Stage.written?

/-- The value that stage `i` takes off its channel in its next step. -/
def taken? (i : Nat) (n : Network) : Option Int := do
  let s ← n.stages[i]?
  let c ← n.channels[i]?
  s.taken? c

/-- The values that the steps of stage `i` in a schedule come with. -/
def collect (value? : Network → Option Int) (i : Nat) : Network → List Nat → List Int
  | _, [] => []
  | n, j :: js => (if j = i then value? n else none).toList ++ collect value? i (n.advance j) js

/-- The values that stage `i` writes along a schedule. -/
def writtenBy (i : Nat) : Network → List Nat → List Int := collect (written? i) i

/-- The values that stage `i` takes along a schedule. -/
def takenBy (i : Nat) : Network → List Nat → List Int := collect (taken? i) i

theorem values_eq (hc : n.channels[k]? = some c) : n.values k = c.values := by
  rw [values, hc]
  rfl

theorem values_advance_port (hs : n.stages[i]? = some s)
    (hc : n.channels[n.port i s.request]? = some c) :
    (n.advance i).values (n.port i s.request) = (s.request.serve c).2.values := by
  refine values_eq ?_
  rw [advance_eq hs hc]
  exact List.getElem?_set_self (List.getElem?_eq_some_iff.mp hc).1

theorem values_advance_ne (hs : n.stages[i]? = some s)
    (hc : n.channels[n.port i s.request]? = some c) (hk : n.port i s.request ≠ k) :
    (n.advance i).values k = n.values k := by
  have hsame : (n.advance i).channels[k]? = n.channels[k]? := by
    rw [advance_eq hs hc]
    exact List.getElem?_set_ne hk
  rw [values, values, hsame]

/-- A stage that asks for a value takes one off its own channel, or none. -/
theorem Causal.values_advance_input (h : n.Causal) (hs : n.stages[i]? = some s)
    (hside : s.request.side = .input) (k : Nat) :
    (if i = k then n.taken? k else none).toList ++ (n.advance i).values k = n.values k := by
  have hport : n.port i s.request = i := by simp only [port, hside]
  obtain ⟨c, hc⟩ := h.wellFormed.port_channel hs s.request
  by_cases hik : i = k
  · subst hik
    have hafter := values_advance_port hs hc
    rw [hport] at hc hafter
    have htaken : n.taken? i = s.taken? c := by
      rw [taken?, hs, hc]
      rfl
    rw [if_pos rfl, htaken, hafter, values_eq hc]
    exact Stage.values_serve_input hside (h.regular_of hc)
  · rw [if_neg hik, values_advance_ne hs hc (by rwa [hport])]
    rfl

/-- Any other stage puts a value on its sink, or none. -/
theorem Causal.values_advance_output (h : n.Causal) (hs : n.stages[i]? = some s)
    (hside : s.request.side = .output) (hj : j < n.channels.length) :
    (n.advance i).values (n.sink j) =
      n.values (n.sink j) ++ (if i = j then n.written? j else none).toList := by
  have hport : n.port i s.request = n.sink i := by simp only [port, hside]
  obtain ⟨c, hc⟩ := h.wellFormed.port_channel hs s.request
  by_cases hij : i = j
  · subst hij
    have hafter := values_advance_port hs hc
    rw [hport] at hc hafter
    have hwritten : n.written? i = s.written? := by
      rw [written?, hs]
      rfl
    rw [if_pos rfl, hwritten, hafter, values_eq hc]
    exact Stage.values_serve_output hside (h.regular_of hc) (h.closed hs hc)
  · have hne : n.sink i ≠ n.sink j :=
      fun he => hij (sink_inj (h.wellFormed.lt_channels hs) hj he)
    rw [if_neg hij, values_advance_ne hs hc (by rwa [hport])]
    exact (List.append_nil _).symm

/-- In one step what is taken off a channel and left on it is what was there and what is written to
it. -/
theorem Causal.values_advance (h : n.Causal) (hj : j < n.stages.length) (hjk : n.sink j = k)
    (hk : k < n.stages.length) (i : Nat) :
    (if i = k then n.taken? k else none).toList ++ (n.advance i).values k =
      n.values k ++ (if i = j then n.written? j else none).toList := by
  cases hs : n.stages[i]? with
  | none =>
    have hi : n.stages.length ≤ i := List.getElem?_eq_none_iff.mp hs
    rw [if_neg (by omega), if_neg (by omega)]
    simp only [Network.advance, hs, Option.toList_none, List.nil_append, List.append_nil]
  | some s =>
    cases hside : s.request.side with
    | input =>
      have hwritten : (if i = j then n.written? j else none) = none := by
        split
        · rename_i hij
          subst hij
          rw [written?, hs]
          exact Stage.written?_of_input hside
        · rfl
      rw [h.values_advance_input hs hside k, hwritten]
      exact (List.append_nil _).symm
    | output =>
      have htaken : (if i = k then n.taken? k else none) = none := by
        split
        · rename_i hik
          subst hik
          rw [taken?, hs]
          simp only [Option.bind_eq_bind, Option.bind_some, Stage.taken?_of_output hside]
          cases n.channels[i]? <;> rfl
        · rfl
      have hjc : j < n.channels.length := Nat.lt_of_lt_of_le hj h.wellFormed.enough
      subst hjk
      rw [htaken, h.values_advance_output hs hside hjc]
      rfl

/-- Between writer and reader a channel loses nothing. -/
theorem Causal.values_run (h : n.Causal) (hj : j < n.stages.length) (hjk : n.sink j = k)
    (hk : k < n.stages.length) (hrun : n.Run is m) :
    takenBy k n is ++ m.values k = n.values k ++ writtenBy j n is := by
  induction is generalizing n with
  | nil =>
    cases hrun
    exact (List.append_nil _).symm
  | cons i is ih =>
    obtain ⟨hstages, hchannels⟩ := length_advance h.wellFormed i
    have hstep := h.values_advance hj hjk hk i
    have hsink : (n.advance i).sink j = k := by
      rw [sink, hchannels]
      exact hjk
    have hrest := ih (h.advance i) (by rwa [hstages]) hsink (by rwa [hstages]) hrun.2
    calc takenBy k n (i :: is) ++ m.values k
        = (if i = k then n.taken? k else none).toList ++
            (takenBy k (n.advance i) is ++ m.values k) := by
          rw [← List.append_assoc]
          rfl
      _ = (if i = k then n.taken? k else none).toList ++ (n.advance i).values k ++
            writtenBy j (n.advance i) is := by rw [hrest, List.append_assoc]
      _ = n.values k ++ writtenBy j n (i :: is) := by
          rw [hstep, List.append_assoc]
          rfl

/-! ### The ring -/

variable {image phases : List Int} {phase signal : Int}

theorem values_ring (image phases : List Int) (phase signal : Int) :
    (ring image (phase :: phases) signal).values 0 = [phase, signal] :=
  Channel.values_ofList _ [phase, signal]

theorem sink_ring (image phases : List Int) (phase signal : Int) :
    (ring image (phase :: phases) signal).sink phases.length = 0 := by
  rw [sink, length_channels_ring, List.length_cons, Nat.mod_self]

/-- What the first stage has taken and what is left for it are what the ring was given and what the
last stage has written. -/
theorem values_of_ring (hrun : (ring image (phase :: phases) signal).Run is m) :
    takenBy 0 (ring image (phase :: phases) signal) is ++ m.values 0 =
      phase :: signal :: writtenBy phases.length (ring image (phase :: phases) signal) is := by
  have hlen : (ring image (phase :: phases) signal).stages.length = phases.length + 1 := by
    simp [ring]
  have hlast : phases.length < (ring image (phase :: phases) signal).stages.length := by omega
  have hfirst : 0 < (ring image (phase :: phases) signal).stages.length := by omega
  have h := (causal_ring image (phase :: phases) signal).values_run hlast
    (sink_ring image phases phase signal) hfirst hrun
  rw [h, values_ring]
  rfl

theorem failures_of_halted (h : n.Causal) (hhalted : ∀ t ∈ n.stages, t.status = .finished none) :
    n.failures = [] := by
  refine List.eq_nil_iff_forall_not_mem.mpr ?_
  rintro ⟨i, f⟩ hf
  obtain ⟨s, hs, hrec⟩ := h.recorded.mp hf
  rw [Stage.recorded?, hhalted s (List.mem_of_getElem? hs)] at hrec
  cases hrec

theorem result_of_halted (h : m.Causal) (hhalted : ∀ s ∈ m.stages, s.status = .finished none) :
    m.result? k = some (.ok (m.values k)) := by
  have hfinished : m.isFinished = true := by
    refine List.all_eq_true.mpr fun s hs => ?_
    rw [Stage.isFinished, hhalted s hs]
  rw [result?, if_pos hfinished, failures_of_halted h hhalted]

/-- The result that goes with what the first stage has taken and the last one has written. -/
def fedBack (signal : Int) (taken fed : List Int) : Except SignalFault Int :=
  if taken.length = fed.length + 2 then .error .noSignal else .ok (fed.getLast?.getD signal)

theorem fedBack_of_append {taken left fed : List Int} (h : taken ++ left = phase :: signal :: fed) :
    fedBack signal taken fed = match left.getLast? with
      | some v => .ok v
      | none => .error .noSignal := by
  have hlength : taken.length + left.length = fed.length + 2 := by
    have := congrArg List.length h
    simpa using this
  by_cases htaken : taken.length = fed.length + 2
  · have hleft : left = [] := List.length_eq_zero_iff.mp (by omega)
    rw [fedBack, if_pos htaken, hleft]
    rfl
  · have hleft : left ≠ [] := by
      intro hnil
      rw [hnil, List.length_nil] at hlength
      omega
    have hlast : left.getLast? = (taken ++ left).getLast? := by
      rw [List.getLast?_append, List.getLast?_eq_some_getLast hleft]
      rfl
    rw [fedBack, if_neg htaken, hlast, h, List.getLast?_cons_cons, List.getLast?_cons]

theorem ringResult?_of_halted (hrun : (ring image (phase :: phases) signal).Run is m)
    (hhalted : ∀ s ∈ m.stages, s.status = .finished none) :
    m.ringResult? = some (fedBack signal (takenBy 0 (ring image (phase :: phases) signal) is)
      (writtenBy phases.length (ring image (phase :: phases) signal) is)) := by
  have hn : Initial (ring image (phase :: phases) signal) := .ring _ _ _ (List.cons_ne_nil _ _)
  rw [ringResult?, result_of_halted (hn.follows hrun).causal hhalted,
    fedBack_of_append (values_of_ring hrun)]
  rfl

/-- The result is a value that was fed back, or there is none because none was fed back, unless
none was and the first stage has left the signal where it was. -/
theorem fedBack_iff {taken fed : List Int} :
    ((∀ v, fedBack signal taken fed = .ok v → fed.getLast? = some v) ∧
        (fed = [] → fedBack signal taken fed = .error .noSignal)) ↔
      fed ≠ [] ∨ taken.length = 2 := by
  unfold fedBack
  cases fed with
  | nil =>
    by_cases htaken : taken.length = 2
    · simp [htaken]
    · simp [htaken]
  | cons u us =>
    have hlast : (u :: us).getLast? = some ((u :: us).getLast (List.cons_ne_nil u us)) :=
      List.getLast?_eq_some_getLast _
    rw [hlast]
    refine iff_of_true ⟨?_, fun h => by cases h⟩ (.inl (List.cons_ne_nil u us))
    intro v hv
    split at hv
    · cases hv
    · exact congrArg some (Except.ok.inj hv)

/-- When all stages of a ring have halted, its result is the last value that the last stage has
written, unless the first one has taken all that was sent to it; then there is no result. But the
given signal counts as sent: if the last stage has written nothing, the signal is the result as long
as the first one has not taken both it and the phase in front of it. So the result is one that was
fed back, and missing where nothing was, exactly if the last stage has written something or the
first one has taken both. -/
theorem result_of_ring (hrun : (ring image (phase :: phases) signal).Run is m)
    (hhalted : ∀ s ∈ m.stages, s.status = .finished none) :
    let taken := takenBy 0 (ring image (phase :: phases) signal) is
    let fed := writtenBy phases.length (ring image (phase :: phases) signal) is
    taken ++ m.values 0 = phase :: signal :: fed ∧
      m.ringResult? = some (if taken.length = fed.length + 2 then .error .noSignal
        else .ok (fed.getLast?.getD signal)) ∧
      (((∀ v, m.ringResult? = some (.ok v) → fed.getLast? = some v) ∧
          (fed = [] → m.ringResult? = some (.error .noSignal))) ↔
        (fed ≠ [] ∨ taken.length = 2)) := by
  intro taken fed
  have hresult : m.ringResult? = some (fedBack signal taken fed) :=
    ringResult?_of_halted hrun hhalted
  refine ⟨values_of_ring hrun, hresult, ?_⟩
  simpa only [hresult, Option.some.injEq] using fedBack_iff

/-- Two stages that add their phase to what they get. -/
theorem result_of_ring_adding :
    let n := ring [3, 13, 3, 14, 1, 13, 14, 15, 4, 15, 99] [5, 6] 7
    let is := List.replicate 8 0 ++ List.replicate 8 1
    let m := is.foldl (fun n i => n.advance i) n
    n.Run is m ∧ (∀ s ∈ m.stages, s.status = .finished none) ∧ takenBy 0 n is = [5, 7] ∧
      writtenBy 1 n is = [18] ∧ m.ringResult? = some (.ok 18) := by
  intro n is m
  have hrun : n.Run is m := by decide +kernel
  have hhalted : ∀ s ∈ m.stages, s.status = .finished none := by decide +kernel
  have htaken : takenBy 0 n is = [5, 7] := by decide +kernel
  have hwritten : writtenBy 1 n is = [18] := by decide +kernel
  obtain ⟨-, hresult, -⟩ := result_of_ring hrun hhalted
  have hresult : m.ringResult? = some (if (takenBy 0 n is).length = (writtenBy 1 n is).length + 2
    then .error .noSignal else .ok ((writtenBy 1 n is).getLast?.getD 7)) := hresult
  rw [htaken, hwritten] at hresult
  exact ⟨hrun, hhalted, htaken, hwritten, hresult⟩

/-- One stage that halts at once. It has written nothing, and the ring gives the signal that it was
given. -/
theorem result_of_ring_unread :
    let n := ring [99] [5] 7
    let m := [0, 0].foldl (fun n i => n.advance i) n
    n.Run [0, 0] m ∧ (∀ s ∈ m.stages, s.status = .finished none) ∧
      writtenBy 0 n [0, 0] = [] ∧ m.ringResult? = some (.ok 7) ∧
      feedback 2 [99] 7 [5] = ExceptT.mk (some (.ok 7)) := by
  intro n m
  have hrun : n.Run [0, 0] m := by decide
  have hhalted : ∀ s ∈ m.stages, s.status = .finished none := by decide
  have hresult : m.ringResult? = some (.ok 7) := ringResult?_of_halted hrun hhalted
  have hsettle : n.settle 2 = m := by decide
  refine ⟨hrun, hhalted, by decide, hresult, ?_⟩
  rw [← hsettle] at hresult
  rw [feedback, if_neg (by decide)]
  exact congrArg ExceptT.mk hresult

end Network

end Intcode
