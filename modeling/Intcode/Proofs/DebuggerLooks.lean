import Intcode.Proofs.DebuggerSession

/-! # Looks are not observed

Two sessions that obey the same requests, the first of which is looked at in between, stay alike:
they are equal, but for one look at the current instruction. Whatever looks at the current
instruction itself, a step, a run, an unknown command or the screen, makes them equal again; and a
session that has ended cannot be told from one that was looked at. -/

namespace Intcode.Debugger
variable {d d' : Debugger} {α β : Type} {fuel : Nat}

/-- The ways to look at a session. -/
inductive Look
  | current
  | waiting
  | render

/-- The session after a look, whether it has failed or not. -/
def look (d : Debugger) : Look → Debugger
  | .current => finalState (current d)
  | .waiting => finalState (waiting d)
  | .render => finalState (render d)

/-- What happens to a session that is looked at. -/
inductive Act
  | look (l : Look)
  | request (r : Request)

def act (d : Debugger) : Act → Debugger
  | .look l => d.look l
  | .request r => d.after r

def Act.request? : Act → Option Request
  | look _ => none
  | request r => some r

/-- The requests without the looks in between. -/
def requests (acts : List Act) : List Request := acts.filterMap Act.request?

/-! ### Sessions that are alike -/

/-- The first session may have been looked at once more. -/
def Alike (d d' : Debugger) : Prop := d'.Orderly ∧ (d = d' ∨ d = d'.looked)

/-- What two sessions that are alike have in common: everything but cells that hold 0 behind the
memory of the second one, up to the current instruction. -/
structure SameSession (d d' : Debugger) : Prop where
  ip : d.ip = d'.ip
  halted : d.halted = d'.halted
  status : d.status = d'.status
  view : d.view = d'.view
  outputs : d.outputs = d'.outputs
  capture : d.capture = d'.capture
  image : d.machine.image = d'.machine.image
  base : d.machine.base = d'.machine.base
  trace : d.machine.trace = d'.machine.trace
  memory : ∃ k, d.machine.memory.toList = d'.machine.memory.toList ++ List.replicate k 0 ∧
    (k ≠ 0 → ((d'.machine.memory.size + k : Nat) : Int) ≤ d.ip + 1)
  ended : d'.halted = true → d = d'

theorem SameSession.refl (d : Debugger) : SameSession d d :=
  ⟨rfl, rfl, rfl, rfl, rfl, rfl, rfl, rfl, rfl, ⟨0, (List.append_nil _).symm, fun h => absurd rfl h⟩,
    fun _ => rfl⟩

theorem Alike.same (h : Alike d d') : SameSession d d' := by
  obtain ⟨ho, rfl | rfl⟩ := h
  · exact .refl d
  · exact {
      ip := rfl, halted := rfl, status := rfl, view := rfl, outputs := rfl, capture := rfl
      image := Machine.image_glance _ _
      base := Machine.base_glance _ _
      trace := Machine.trace_glance _ _
      memory := Machine.memory_glance d'.ip d'.machine
      ended := ho.looked_of_halted }

/-- Two sessions that are alike cannot be told apart by the action, and stay alike. -/
def Blind (x : DebuggerM α) : Prop := ∀ d d', Alike d d' → Relates Alike Eq (x d) (x d')

theorem Blind.ret (a : α) : Blind (pure a : DebuggerM α) := fun _ _ h => ⟨rfl, h⟩

theorem Blind.bind {x : DebuggerM α} {f : α → DebuggerM β} (h : Blind x) (hf : ∀ a, Blind (f a)) :
    Blind (x >>= f) := by
  intro d d' hd
  refine (h d d' hd).bind fun a b s t _ hab hs => ?_
  obtain rfl : a = b := hab
  exact hf a s t hs

/-- An action that is the same after a look. -/
theorem blind_of_looked {x : DebuggerM α} {E : Fault → Prop}
    (hx : Ensures Orderly (fun _ => True) E x)
    (h : ∀ d, d.Orderly → x d.looked = x d) : Blind x := by
  rintro d d' ⟨ho, hd⟩
  have heq : x d = x d' := by
    rcases hd with rfl | rfl
    · rfl
    · exact h d' ho
  have hfinal := (hx d' ho).1
  rw [heq]
  cases hr : x d' with
  | ok a t | error f t =>
    rw [hr] at hfinal
    exact ⟨rfl, hfinal, .inl rfl⟩

/-- A change that has nothing to do with the machine. -/
theorem blind_modify {g : Debugger → Debugger} (hg : ∀ d, d.Orderly → (g d).Orderly)
    (h : ∀ d, g d.looked = (g d).looked) : Blind (modify g) := by
  rintro d d' ⟨ho, hd⟩
  refine ⟨rfl, hg d' ho, ?_⟩
  rcases hd with rfl | rfl
  · exact .inl rfl
  · exact .inr (h d')

/-! ### The parts of a command -/

theorem bind_looked {x : DebuggerM α} (h : x d.looked = x d) (f : α → DebuggerM β) :
    (x >>= f) d.looked = (x >>= f) d := by
  show EStateM.bind x f d.looked = EStateM.bind x f d
  simp only [EStateM.bind, h]

theorem step_looked (line : Option String) (ho : d.Orderly) : step line d.looked = step line d := by
  cases hh : d.halted with
  | true => rw [ho.looked_of_halted hh]
  | false =>
    show (if d.halted then _ else waiting >>= _) d.looked = (if d.halted then _ else waiting >>= _) d
    rw [hh]
    exact bind_looked (waiting_looked d) _

theorem run_looked (ho : d.Orderly) : run (fuel + 1) d.looked = run (fuel + 1) d := by
  cases hh : d.halted with
  | true => rw [ho.looked_of_halted hh]
  | false =>
    show (if d.halted then _ else waiting >>= _) d.looked = (if d.halted then _ else waiting >>= _) d
    rw [hh]
    exact bind_looked (waiting_looked d) _

theorem render_looked (d : Debugger) : render d.looked = render d :=
  bind_looked (current_looked d) _

theorem blind_waiting : Blind waiting :=
  blind_of_looked stays_orderly.kept.waiting fun d _ => waiting_looked d

theorem blind_step (line : Option String) : Blind (step line) :=
  blind_of_looked (stays_orderly.kept.step line) fun _ ho => step_looked line ho

/-- A run without fuel does not look. -/
theorem blind_run (fuel : Nat) : Blind (run fuel) := by
  cases fuel with
  | zero => exact .ret ()
  | succ fuel => exact blind_of_looked (stays_orderly.kept.run _) fun _ ho => run_looked ho

theorem blind_render : Blind render :=
  blind_of_looked (stays_orderly.kept.render not_tellable_unwritable) fun d _ => render_looked d

theorem covers_blind : Covers fun _ x => Blind x where
  stop := .ret false
  goesOn h := h.bind fun _ => .ret true
  afterLook h := blind_waiting.bind h
  step := blind_step
  run := blind_run
  status _ _ := blind_modify (fun _ ho => ⟨ho.capture, ho.glanced⟩) fun _ => rfl
  view _ := blind_modify (fun _ ho => ⟨ho.capture, ho.glanced⟩) fun _ => rfl

theorem blind_command (fuel : Nat) (line : String) : Blind (command fuel line) :=
  covers_blind.command fuel line

theorem blind_dialogue (fuel : Nat) (lines : List (List Char)) : Blind (dialogue fuel lines) :=
  dialogue_of_parts (R := fun _ x => Blind x) .ret .bind blind_render (blind_command fuel) lines

/-! ### Whole sessions -/

/-- Every way to look comes to the same. -/
theorem look_eq_looked (d : Debugger) (l : Look) : d.look l = d.looked := by
  cases l with
  | current => exact finalState_current d
  | waiting => exact finalState_waiting d
  | render =>
    have hd := finalState_current d
    show finalState ((current >>= _) d) = d.looked
    cases h : current d with
    | ok i d₁ =>
      rw [h] at hd
      rw [bind_of_ok h, get_bind]
      split
      · exact hd
      · exact hd
    | error f d₁ =>
      rw [h] at hd
      rw [bind_of_error h]
      exact hd

theorem Alike.look (h : Alike d d') (l : Look) : Alike (d.look l) d' := by
  obtain ⟨ho, hd⟩ := h
  refine ⟨ho, .inr ?_⟩
  rw [look_eq_looked]
  rcases hd with rfl | rfl
  · rfl
  · exact looked_looked d'

theorem Alike.after (h : Alike d d') (r : Request) : Alike (d.after r) (d'.after r) := by
  cases r with
  | look =>
    have hcurrent : Blind current :=
      blind_of_looked stays_orderly.kept.look fun d _ => current_looked d
    exact (hcurrent d d' h).final
  | render => exact (blind_render d d' h).final
  | step line => exact (blind_step line d d' h).final
  | run fuel => exact (blind_run fuel d d' h).final
  | command fuel line => exact (blind_command fuel line d d' h).final
  | dialogue fuel lines => exact (blind_dialogue fuel lines d d' h).final

theorem Alike.acts (h : Alike d d') (acts : List Act) :
    Alike (acts.foldl act d) ((requests acts).foldl Debugger.after d') := by
  induction acts generalizing d d' with
  | nil => exact h
  | cons a acts ih =>
    cases a with
    | look l => exact ih (h.look l)
    | request r => exact ih (h.after r)

/-- However often a session is looked at in between, whether the looks fail or not, it goes on as if
it had not been looked at: after every request the two sessions are the same but for zeros at the
end of the memory, and the next command comes to the same. A second screen is the same as the
first. -/
theorem looks_unobserved (m : Machine) (a : Int) (acts : List Act) :
    let d := acts.foldl act (start m a)
    let d' := (requests acts).foldl after (start m a)
    SameSession d d' ∧ render (d.look .render) = render d ∧
      ∀ fuel line, Relates SameSession Eq (command fuel line d) (command fuel line d') := by
  intro d d'
  have hd : Alike d d' := Alike.acts ⟨orderly_start m a, .inl rfl⟩ acts
  refine ⟨hd.same, ?_, fun fuel line => ?_⟩
  · rw [look_eq_looked]
    exact render_looked d
  · exact (blind_command fuel line d d' hd).mono fun _ _ h => h.same

end Intcode.Debugger
