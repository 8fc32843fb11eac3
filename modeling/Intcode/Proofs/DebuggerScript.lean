import Intcode.Proofs.DebuggerStep

/-! # A debugger that is given all values

A script lets a debugger run on until a value is asked for, gives it and lets it run on again. With
the values that a machine consumes in a batch run, the debugger comes to the same end as the batch
run, with the same machine and the same outputs. There is one exception: a fault that cannot be told
is not caught, and the last command of the script passes it on. -/

namespace Intcode

namespace Machine

/-- How the run of a machine ends at `a`: it halts, or an instruction that does not read fails. -/
inductive Ends (a : Int) (m : Machine) : Option Fault → Machine → Prop
  | halt {m' : Machine} (h : execute a m = .ok .halt m') : Ends a m none m'
  | fail {f : Fault} {m' : Machine} (h : execute a m = .error f m') (hr : ¬ ReadsAt a m) :
    Ends a m (some f) m'

end Machine

namespace Debugger
open Machine (ReadsAt Ends)

/-- Gives each value when it is asked for. -/
def answers (values : List Int) : List String :=
  values.flatMap fun v => ["i " ++ Numeral.render v, "r"]

/-- The commands of a session that consumes the values. -/
def script (values : List Int) : List String := "r" :: answers values

/-- Obeys one command after the other. -/
def obey (fuel : Nat) : List String → DebuggerM Unit
  | [] => return
  | line :: lines => do
    let _ ← command fuel line
    obey fuel lines

/-- No fault, or one that can be told. -/
def Told (outcome : Option Fault) : Prop := ∀ f ∈ outcome, f.Tellable

/-- The status that shows how a run has ended. -/
def closing : Option Fault → String
  | none => "Halted"
  | some f => "Error: " ++ f.message

/-- What a session comes to if the run of its machine has ended: a fault that cannot be told is
passed on. -/
def verdict (outcome : Option Fault) (d : Debugger) : EStateM.Result Fault Debugger Unit :=
  match outcome with
  | none => .ok () d
  | some f => if f.Tellable then .ok () d else .error f d

variable {d : Debugger} {a b : Int} {m m' : Machine} {outs : List Int} {fuel : Nat}
  {lines : List String} {v : Int}

/-! ### The commands of a script -/

theorem words_run : (Text.words "r".toList).map String.ofList = ["r"] := by
  have hr : ∀ c ∈ ['r'], Text.isBlank c = false := by
    intro c hc
    obtain rfl := List.mem_singleton.mp hc
    rfl
  have h : Text.words ['r'] = [['r']] := Text.words_of_forall hr (List.cons_ne_nil _ _)
  show (Text.words ['r']).map String.ofList = _
  rw [h]
  rfl

/-- A letter and an integer behind it are two words. -/
theorem words_letter {letter : Char} (h : Text.isBlank letter = false) (v : Int) :
    (Text.words (letter :: ' ' :: Numeral.digits v)).map String.ofList =
      [String.ofList [letter], Numeral.render v] := by
  have hdigits : Text.words (Numeral.digits v) = [Numeral.digits v] :=
    Text.words_of_forall (fun c hc => Numeral.isBlank_of_mem_digits hc) (Numeral.digits_ne_nil v)
  have hletter : ∀ c ∈ [letter], Text.isBlank c = false := by
    intro c hc
    rwa [List.mem_singleton.mp hc]
  have hwords : Text.words ([letter] ++ ' ' :: Numeral.digits v) = [[letter], Numeral.digits v] := by
    rw [Text.words_append_blank hletter (List.cons_ne_nil _ _) rfl, hdigits]
  exact congrArg (List.map String.ofList) hwords

theorem words_give (v : Int) :
    (Text.words ("i " ++ Numeral.render v).toList).map String.ofList = ["i", Numeral.render v] := by
  have hlist : ("i " ++ Numeral.render v).toList = 'i' :: ' ' :: Numeral.digits v := by
    rw [String.toList_append, Numeral.render, String.toList_ofList, String.toList_ofList]
    rfl
  rw [hlist, words_letter rfl]

theorem command_run : command fuel "r" = (run fuel >>= fun _ => pure true) := by
  rw [command, words_run]
  rfl

theorem command_give : command fuel ("i " ++ Numeral.render v) =
    (step (some (Numeral.render v)) >>= fun _ => pure true) := by
  rw [command, words_give]
  exact discard_bind _ _

theorem obey_run : obey fuel ("r" :: lines) = (run fuel >>= fun _ => obey fuel lines) := by
  rw [obey, command_run, bind_assoc]
  rfl

theorem obey_give : obey fuel (("i " ++ Numeral.render v) :: lines) =
    (step (some (Numeral.render v)) >>= fun _ => obey fuel lines) := by
  rw [obey, command_give, bind_assoc]
  rfl

/-! ### Along the path of the machine -/

theorem run_of_moves {e : Event} (h : Stands d a m outs) (hm : m.Moves a e b m')
    (he : ∀ v, e ≠ .receive v) :
    ∃ d', Stands d' b m' (outs ++ Event.sent [e]) ∧ ∀ fuel, run (fuel + 1) d = run fuel d' := by
  obtain ⟨e', m₁, hexec, hno⟩ : ∃ e' m₁, Machine.execute a m = .ok e' m₁ ∧
      ¬ ∃ t b, e' = .read t b := by
    cases hm with
    | next hx => exact ⟨_, _, hx, by simp⟩
    | write hx => exact ⟨_, _, hx, by simp⟩
    | read hx hp => exact absurd rfl (he _)
  have hr : ¬ ReadsAt a m := fun hr => hno (Machine.reads_of_readsAt hexec hr)
  rcases run_of_not_reads h hr with ⟨d₁, h₁, hrun⟩ | ⟨f, m₂, -, -, hfail, -⟩
  · obtain ⟨d₂, hd₂, h₂⟩ := execute_of_moves none h₁ hm fun v hv => absurd hv (he v)
    exact ⟨d₂, h₂, fun fuel => by rw [hrun fuel, bind_of_ok hd₂]⟩
  · rw [hexec] at hfail
    cases hfail

/-- A run stops in front of an instruction that reads, and the next command gives the value. -/
theorem run_of_receive (h : Stands d a m outs) (hm : m.Moves a (.receive v) b m')
    (hv : Word.InRange v) :
    ∃ d₁ d', (∀ fuel, run (fuel + 1) d = .ok () d₁) ∧
      step (some (Numeral.render v)) d₁ = .ok true d' ∧ Stands d' b m' outs := by
  have hr : ReadsAt a m := by
    cases hm with
    | read hx hp => exact Machine.readsAt_of_reads hx
  have h₁ := h.look hr.1 .inputRequired
  have h₂ := h₁.look hr.1 .inputRequired
  obtain ⟨d', hd', hstands⟩ := execute_of_moves (some (Numeral.render v)) h₂ hm
    fun w hw => by cases hw; exact ⟨hv, rfl⟩
  rw [Event.sent_receive, List.append_nil] at hstands
  refine ⟨_, d', fun fuel => run_of_waiting h.halted (waiting_of_reads h hr), ?_, hstands⟩
  rw [step_of_waiting h₁.halted (waiting_of_reads h₁ hr)]
  exact hd'

/-- Along a path the answers are the values that it receives. The fuel only has to be larger than
the path is long. -/
theorem obey_of_path {es : List Event} (hp : m.Path a es b m') (h : Stands d a m outs)
    (hvs : ∀ v ∈ Event.received es, Word.InRange v) :
    ∃ d', Stands d' b m' (outs ++ Event.sent es) ∧
      ∀ fuel k, es.length < fuel → es.length < k → ∃ k',
        (run k >>= fun _ => obey fuel (answers (Event.received es))) d = run (k' + 1) d' := by
  induction hp generalizing d outs with
  | refl a m =>
    refine ⟨d, by rwa [Event.sent_nil, List.append_nil], fun fuel k _ hk => ?_⟩
    obtain ⟨j, rfl⟩ := Nat.exists_eq_add_one.mpr hk
    exact ⟨j, congrFun (bind_pure (run (j + 1))) d⟩
  | @step a b c m m₁ m₂ e es hm _ ih =>
    rw [Event.received_cons e es] at hvs ⊢
    have hrest : ∀ v ∈ Event.received es, Word.InRange v :=
      fun v hv => hvs v (List.mem_append_right _ hv)
    rw [Event.sent_cons e es, ← List.append_assoc]
    by_cases he : ∃ v, e = .receive v
    · obtain ⟨v, rfl⟩ := he
      have hv : Word.InRange v := hvs v (List.mem_append_left _ (List.mem_singleton.mpr rfl))
      obtain ⟨d₁, d₂, hrun, hgive, h₂⟩ := run_of_receive h hm hv
      rw [Event.sent_receive, List.append_nil]
      obtain ⟨d', h', hpath⟩ := ih h₂ hrest
      refine ⟨d', h', fun fuel k hfuel hk => ?_⟩
      rw [List.length_cons] at hfuel hk
      obtain ⟨j, rfl⟩ := Nat.exists_eq_add_one.mpr (Nat.zero_lt_of_lt hk)
      obtain ⟨k', hk'⟩ := hpath fuel fuel (by omega) (by omega)
      refine ⟨k', ?_⟩
      rw [bind_of_ok (hrun j)]
      show obey fuel (("i " ++ Numeral.render v) :: "r" :: answers (Event.received es)) d₁ = _
      rw [obey_give, bind_of_ok hgive, obey_run]
      exact hk'
    · have he : ∀ v, e ≠ .receive v := fun v hv => he ⟨v, hv⟩
      obtain ⟨d₁, h₁, hrun⟩ := run_of_moves h hm he
      obtain ⟨d', h', hpath⟩ := ih h₁ hrest
      refine ⟨d', h', fun fuel k hfuel hk => ?_⟩
      rw [List.length_cons] at hfuel hk
      obtain ⟨j, rfl⟩ := Nat.exists_eq_add_one.mpr (Nat.zero_lt_of_lt hk)
      obtain ⟨k', hk'⟩ := hpath fuel j (by omega) (by omega)
      refine ⟨k', ?_⟩
      rw [Event.received_of_ne he, List.nil_append, ← hk']
      show EStateM.bind (run (j + 1)) _ d = EStateM.bind (run j) _ d₁
      simp only [EStateM.bind, hrun j]

/-! ### At the end -/

theorem told_none : Told none := fun f hf => by cases hf

theorem told_some {f : Fault} : Told (some f) ↔ f.Tellable :=
  ⟨fun h => h f rfl, fun h _ hf => by cases hf; exact h⟩

theorem verdict_of_told {f : Fault} (h : f.Tellable) : verdict (some f) d = .ok () d := by
  rw [verdict, if_pos h]

theorem verdict_of_untold {f : Fault} (h : ¬ f.Tellable) : verdict (some f) d = .error f d := by
  rw [verdict, if_neg h]

/-- The session has come to the end of its machine, and shows it if the outcome can be told. -/
structure Shows (d : Debugger) (outcome : Option Fault) (m : Machine) (outs : List Int) : Prop where
  machine : d.machine = m
  outputs : d.outputs.toList = outs
  halted : d.halted = true ↔ Told outcome
  status : Told outcome → d.status.message = closing outcome

theorem Shows.of_told {outcome : Option Fault} (hm : d.machine = m) (ho : d.outputs.toList = outs)
    (hd : d.halted = true) (hs : d.status.message = closing outcome) (ht : Told outcome) :
    Shows d outcome m outs :=
  ⟨hm, ho, ⟨fun _ => ht, fun _ => hd⟩, fun _ => hs⟩

theorem Shows.of_untold {f : Fault} (hm : d.machine = m) (ho : d.outputs.toList = outs)
    (hd : d.halted = false) (hf : ¬ f.Tellable) : Shows d (some f) m outs := by
  have hno : ¬ Told (some f) := fun h => hf (told_some.mp h)
  refine ⟨hm, ho, ⟨fun hh => ?_, fun ht => absurd ht hno⟩, fun ht => absurd ht hno⟩
  rw [hd] at hh
  cases hh

theorem run_of_halt (h : Stands d a m outs) (he : Machine.execute a m = .ok .halt m') :
    ∃ d', Shows d' none m' outs ∧ ∀ fuel, run (fuel + 1) d = .ok () d' := by
  have hr : ¬ ReadsAt a m := fun hr => by
    obtain ⟨t, b, ht⟩ := Machine.reads_of_readsAt he hr
    cases ht
  rcases run_of_not_reads h hr with ⟨d₁, h₁, hrun⟩ | ⟨f, m₂, -, -, hfail, -⟩
  · obtain rfl := h₁.ip
    have hstep := Session.step_of_halt (w := wiring none) (s := ⟨d₁.machine, d₁.capture, ""⟩)
      (h₁.execute_machine.trans he)
    have hd₁ := execute_of_halted hstep h₁.capture
    refine ⟨{ d₁ with
      machine := m', halted := true, status := .halted, outputs := d₁.outputs ++ ([] : List Int),
      capture := .ofList "capture" [] },
      .of_told rfl h₁.outputs_append_nil rfl rfl told_none, fun fuel => ?_⟩
    rw [hrun fuel, bind_of_ok hd₁]
    exact run_of_halted rfl
  · rw [he] at hfail
    cases hfail

theorem run_of_fail {f : Fault} (h : Stands d a m outs) (he : Machine.execute a m = .error f m')
    (hr : ¬ ReadsAt a m) :
    ∃ d', Shows d' (some f) m' outs ∧ ∀ fuel, run (fuel + 1) d = verdict (some f) d' := by
  rcases run_of_not_reads h hr with ⟨d₁, h₁, hrun⟩ | ⟨g, m₂, d', hg, hfail, hm, hd, ho, hrun⟩
  · obtain rfl := h₁.ip
    have hstep := Session.step_of_error (w := wiring none) (s := ⟨d₁.machine, d₁.capture, ""⟩)
      (h₁.execute_machine.trans he)
    by_cases hf : f.Tellable
    · have hd₁ := execute_of_told hstep h₁.capture hf
      refine ⟨{ d₁ with
        machine := m', halted := true, status := .failed f,
        outputs := d₁.outputs ++ ([] : List Int), capture := .ofList "capture" [] },
        .of_told rfl h₁.outputs_append_nil rfl rfl (told_some.mpr hf), fun fuel => ?_⟩
      rw [hrun fuel, bind_of_ok hd₁, verdict_of_told hf]
      exact run_of_halted rfl
    · have hd₁ := execute_of_untold hstep h₁.capture hf
      refine ⟨{ d₁ with
        machine := m', outputs := d₁.outputs ++ ([] : List Int), capture := .ofList "capture" [] },
        .of_untold rfl h₁.outputs_append_nil h₁.halted hf, fun fuel => ?_⟩
      rw [hrun fuel, bind_of_error hd₁, verdict_of_untold hf]
  · rw [he] at hfail
    cases hfail
    refine ⟨d', .of_untold hm ho hd hg, fun fuel => ?_⟩
    rw [hrun fuel, verdict_of_untold hg]

theorem run_of_ends {outcome : Option Fault} (h : Stands d a m outs) (hend : Ends a m outcome m') :
    ∃ d', Shows d' outcome m' outs ∧ ∀ fuel, run (fuel + 1) d = verdict outcome d' := by
  cases hend with
  | halt he => exact run_of_halt h he
  | fail he hr => exact run_of_fail h he hr

/-- A debugger that takes over a machine. -/
def start (m : Machine) (a : Int) : Debugger := { machine := m, ip := a }

theorem obey_script {es : List Event} {outcome : Option Fault} {m₁ : Machine}
    (hp : m.Path a es b m₁) (hend : Ends b m₁ outcome m')
    (hvs : ∀ v ∈ Event.received es, Word.InRange v) :
    ∃ d, Shows d outcome m' (Event.sent es) ∧ ∀ fuel, es.length < fuel →
      obey fuel (script (Event.received es)) (start m a) = verdict outcome d := by
  have hstart : Stands (start m a) a m [] := ⟨rfl, rfl, rfl, .inl rfl, rfl⟩
  obtain ⟨d₁, h₁, hpath⟩ := obey_of_path hp hstart hvs
  obtain ⟨d, hd, hrun⟩ := run_of_ends h₁ hend
  refine ⟨d, hd, fun fuel hfuel => ?_⟩
  obtain ⟨k, hk⟩ := hpath fuel fuel hfuel hfuel
  rw [script, obey_run, hk, hrun]

/-! ### Batch runs -/

/-- How the run of a session from `a` on ends: it halts, or fails at an instruction that does not
read. -/
inductive BatchEnds (a : Int) (s : Session Devices) : Option Fault → Session Devices → Prop
  | halt {fuel : Nat} {t : Session Devices}
    (h : Session.run Devices.wiring false fuel a s = .ok .halted t) : BatchEnds a s none t
  | fail {fuel : Nat} {b : Int} {f : Fault} {s₁ t : Session Devices}
    (h : Session.run Devices.wiring false fuel a s = .ok (.running b) s₁)
    (hf : Session.step Devices.wiring false b s₁ = .error f t) (hr : ¬ ReadsAt b s₁.machine) :
    BatchEnds a s (some f) t

/-- The machine of a batch run has gone a path, and ended behind it. -/
theorem path_of_batchEnds {source sink : String} {vs : List Int} {outcome : Option Fault}
    {t : Session Devices} (h : BatchEnds a ⟨m, .channels source sink vs [], ""⟩ outcome t) :
    ∃ es b m₁ rest, m.Path a es b m₁ ∧ Ends b m₁ outcome t.machine ∧
      vs = Event.received es ++ rest ∧ t.world = .channels source sink rest (Event.sent es) := by
  cases h with
  | halt h =>
    obtain ⟨es, b, m₁, m', rest, hp, hv, rfl, ⟨hc, -⟩ | ⟨-, he⟩⟩ := Session.run_channels h
    · cases hc
    · exact ⟨es, b, m₁, rest, hp, .halt he, hv, rfl⟩
  | @fail fuel b f s₁ t h hf hr =>
    obtain ⟨es, c, m₁, m', rest, hp, hv, rfl, ⟨hc, rfl⟩ | ⟨hc, -⟩⟩ := Session.run_channels h
    · cases hc
      have hstep := Session.step_ends source sink rest ([] ++ Event.sent es) "" b m'
      rw [hf] at hstep
      rcases hstep with ⟨m₂, he, rfl⟩ | ⟨t, c, m₂, he⟩
      · exact ⟨es, b, m', rest, hp, .fail he hr, hv, rfl⟩
      · exact absurd (Machine.readsAt_of_reads he) hr
    · cases hc

/-- A batch run on a closed channel with the values `vs` and an open one for what is sent, and the
session with the script of the values that the run consumes. With enough fuel the session comes to
the same machine and has the sent values as its outputs; and it shows how the run has ended, unless
that is a fault that cannot be told, which is then passed on. -/
theorem script_agrees_with_batch {source sink : String} {vs : List Int} {outcome : Option Fault}
    {t : Session Devices} (hvs : ∀ v ∈ vs, Word.InRange v)
    (hend : BatchEnds a ⟨m, .channels source sink vs [], ""⟩ outcome t) :
    ∃ k sent, k ≤ vs.length ∧ t.world = .channels source sink (vs.drop k) sent ∧
      ∃ d enough, Shows d outcome t.machine sent ∧ ∀ fuel, enough ≤ fuel →
        obey fuel (script (vs.take k)) (start m a) = verdict outcome d := by
  obtain ⟨es, b, m₁, rest, hp, hends, rfl, hw⟩ := path_of_batchEnds hend
  have hrange : ∀ v ∈ Event.received es, Word.InRange v :=
    fun v hv => hvs v (List.mem_append_left _ hv)
  obtain ⟨d, hd, hobey⟩ := obey_script hp hends hrange
  refine ⟨(Event.received es).length, Event.sent es, ?_, ?_, d, es.length + 1, hd, ?_⟩
  · rw [List.length_append]
    exact Nat.le_add_right _ _
  · rw [List.drop_left, hw]
  · intro fuel hfuel
    rw [List.take_left]
    exact hobey fuel hfuel

/-- Two of three values are consumed. -/
theorem script_agrees_with_batch_echo :
    let m := Machine.load [3, 7, 4, 7, 3, 7, 99, 0]
    let vs := [5, -2, 8]
    let t : Session Devices :=
      { machine := { m with
          memory := .ofList [3, 7, 4, 7, 3, 7, 99, -2]
          trace := #[⟨0, 3⟩, ⟨2, 4⟩, ⟨4, 3⟩, ⟨6, 99⟩] }
        world := .channels "in" "out" [8] [5] }
    (∀ v ∈ vs, Word.InRange v) ∧ BatchEnds 0 ⟨m, .channels "in" "out" vs [], ""⟩ none t ∧
      ∃ k sent, k ≤ vs.length ∧ t.world = .channels "in" "out" (vs.drop k) sent ∧
        ∃ d enough, Shows d none t.machine sent ∧ ∀ fuel, enough ≤ fuel →
          obey fuel (script (vs.take k)) (start m 0) = .ok () d := by
  intro m vs t
  have hvs : ∀ v ∈ vs, Word.InRange v := by decide
  have hend : BatchEnds 0 ⟨m, .channels "in" "out" vs [], ""⟩ none t :=
    @BatchEnds.halt 0 _ 4 t (by decide)
  exact ⟨hvs, hend, script_agrees_with_batch hvs hend⟩

/-! ### A fault that is passed on -/

/-- Moves the base by `n`, and then writes the cell at `n` relative to the base. -/
def twice (n : Int) : List Int := [109, n, 204, n]

/-- The machine of `twice` with the base and the trace that it has come to. -/
def twiceAt (n base : Int) (trace : Array Entry) : Machine :=
  { Machine.load (twice n) with base, trace }

variable {n base : Int} {trace : Array Entry}

theorem enter_twiceAt (a : Nat) (h : a < 4) : (twiceAt n base trace).enter a =
    twiceAt n base (trace.push ⟨a, (Memory.ofList (twice n)).get a⟩) :=
  Machine.enter_of_lt h

theorem peek_twiceAt (a : Nat) (h : a < 4) : Machine.peek a (twiceAt n base trace) =
    .ok ((Memory.ofList (twice n)).get a) (twiceAt n base trace) :=
  Machine.peek_of_lt (Int.natCast_nonneg a) h

theorem execute_twice (n : Int) :
    Machine.execute 0 (.load (twice n)) = .ok (.next 2) (twiceAt n (0 + n) #[⟨0, 109⟩]) := by
  have hd : (Machine.load (twice n)).decodeAt 0 =
      .ok ⟨.adjustBase, .value, .pointer, .pointer⟩ := by
    show Instruction.decode (some 0) 109 = _
    rfl
  have henter : (Machine.load (twice n)).enter 0 = twiceAt n 0 #[⟨0, 109⟩] :=
    enter_twiceAt 0 (by decide)
  have hp : Machine.peek (0 + 1) (twiceAt n 0 #[⟨0, 109⟩]) = .ok n (twiceAt n 0 #[⟨0, 109⟩]) :=
    peek_twiceAt 1 (by decide)
  have harg : Machine.argument .value (0 + 1) (twiceAt n 0 #[⟨0, 109⟩]) =
      .ok n (twiceAt n 0 #[⟨0, 109⟩]) := (bind_of_ok hp).trans rfl
  rw [Machine.execute_of_decoded (by decide) hd, henter, Machine.perform]
  exact bind_of_ok harg

theorem decodeAt_twiceAt :
    (twiceAt n base trace).decodeAt 2 = .ok ⟨.output, .relative, .pointer, .pointer⟩ := by
  show Instruction.decode (some 2) 204 = _
  rfl

theorem execute_twiceAt (h : n + base < 0) :
    Machine.execute 2 (twiceAt n base trace) =
      .error (.negativeAddress (n + base)) (twiceAt n base (trace.push ⟨2, 204⟩)) := by
  have henter : (twiceAt n base trace).enter 2 = twiceAt n base (trace.push ⟨2, 204⟩) :=
    enter_twiceAt 2 (by decide)
  have hp : Machine.peek (2 + 1) (twiceAt n base (trace.push ⟨2, 204⟩)) =
      .ok n (twiceAt n base (trace.push ⟨2, 204⟩)) := peek_twiceAt 3 (by decide)
  have harg : Machine.argument .relative (2 + 1) (twiceAt n base (trace.push ⟨2, 204⟩)) =
      .error (.negativeAddress (n + base)) (twiceAt n base (trace.push ⟨2, 204⟩)) :=
    (bind_of_ok hp).trans (Machine.peek_of_neg _ h)
  rw [Machine.execute_of_decoded (by decide) decodeAt_twiceAt, henter, Machine.perform]
  exact bind_of_error harg

theorem not_readsAt_twiceAt : ¬ ReadsAt 2 (twiceAt n base trace) := by
  rintro ⟨-, i, hi, hop⟩
  rw [decodeAt_twiceAt] at hi
  cases hi
  cases hop

/-- The batch run of `twice` fails at its second instruction. -/
theorem batchEnds_twice (h : n + (0 + n) < 0) :
    BatchEnds 0 ⟨.load (twice n), .channels "in" "out" [] [], ""⟩
      (some (.negativeAddress (n + (0 + n))))
      ⟨twiceAt n (0 + n) #[⟨0, 109⟩, ⟨2, 204⟩], .channels "in" "out" [] [], ""⟩ := by
  have hstep : Session.step Devices.wiring false 0
      ⟨.load (twice n), .channels "in" "out" [] [], ""⟩ =
        .ok (.running 2) ⟨twiceAt n (0 + n) #[⟨0, 109⟩], .channels "in" "out" [] [], ""⟩ :=
    Session.step_of_next (execute_twice n)
  have hrun : Session.run Devices.wiring false 1 0
      ⟨.load (twice n), .channels "in" "out" [] [], ""⟩ =
        .ok (.running 2) ⟨twiceAt n (0 + n) #[⟨0, 109⟩], .channels "in" "out" [] [], ""⟩ := by
    rw [Session.run, bind_of_ok hstep]
    rfl
  exact .fail hrun (Session.step_of_error (execute_twiceAt h)) not_readsAt_twiceAt

/-- All cells of `twice` can be written, but not the address that its second instruction names. -/
theorem twice_untold (hn : n = 1 - (Nat.pow 10 Numeral.digitLimit : Nat)) :
    (∀ v ∈ twice n, Numeral.Writable v) ∧ n + (0 + n) < 0 ∧
      ¬ (Fault.negativeAddress (n + (0 + n))).Tellable := by
  -- the power is too large to be computed, so it only has a name
  obtain ⟨p, hp⟩ : ∃ p, Nat.pow 10 Numeral.digitLimit = p := ⟨_, rfl⟩
  have hpow : ∀ k, k < Nat.pow 10 k := fun _ => Nat.lt_pow_self (by decide)
  have hlt := hpow Numeral.digitLimit
  rw [hp] at hlt hn
  have hlimit : 4300 ≤ Numeral.digitLimit := Nat.le_refl _
  refine ⟨fun v hv => ?_, by omega, fun h => ?_⟩
  · show v.natAbs < Nat.pow 10 Numeral.digitLimit
    rw [hp]
    simp only [twice, List.mem_cons, List.not_mem_nil, or_false] at hv
    rcases hv with rfl | rfl | rfl | rfl <;> omega
  · have hlt' : (n + (0 + n)).natAbs < Nat.pow 10 Numeral.digitLimit :=
      h.2 _ (List.mem_singleton.mpr rfl)
    rw [hp] at hlt'
    omega

/-- The session of a program whose cells can all be written, and which fails, at an instruction that
does not read, with an integer that cannot. However much fuel there is, it passes the fault on and
does not halt. -/
theorem script_passes_fault_on :
    let n : Int := 1 - (Nat.pow 10 Numeral.digitLimit : Nat)
    let m := Machine.load (twice n)
    (∀ v ∈ twice n, Numeral.Writable v) ∧ ∃ f t,
      BatchEnds 0 ⟨m, .channels "in" "out" [] [], ""⟩ (some f) t ∧
      t.world = .channels "in" "out" ([].drop 0) [] ∧
      ∀ fuel, 2 ≤ fuel → ∃ d, d.halted = false ∧
        obey fuel (script ([].take 0)) (start m 0) = .error f d := by
  intro n m
  obtain ⟨hwritable, hn, hf⟩ := twice_untold (n := n) rfl
  clear_value n
  have hpath := Machine.Path.step (.next (execute_twice n)) (.refl _ _)
  have hr : ¬ ReadsAt 2 (twiceAt n (0 + n) #[⟨0, 109⟩]) := not_readsAt_twiceAt
  have hends := Ends.fail (execute_twiceAt hn) hr
  obtain ⟨d, hd, hobey⟩ := obey_script hpath hends (fun v hv => by cases hv)
  refine ⟨hwritable, _, _, batchEnds_twice hn, rfl, fun fuel hfuel => ⟨d, ?_, ?_⟩⟩
  · exact Bool.eq_false_iff.mpr fun hh => hf (told_some.mp (hd.halted.mp hh))
  · exact (hobey fuel hfuel).trans (verdict_of_untold hf)

end Debugger

end Intcode
