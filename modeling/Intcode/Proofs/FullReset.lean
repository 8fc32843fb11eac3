import Intcode.Proofs.CompletedInstruction
import Intcode.Proofs.FailedStep
import Intcode.Proofs.MachineGrowth

/-! # A full reset makes a machine as good as new

Nothing that is done to a machine touches its image: an instruction changes cells, the base and the
trace, whether it is completed, fails or waits. So after any calls, in any order, a full reset gives
the machine that was loaded first, a copy is that machine too, and a soft reset differs from it in
the base and the trace only, which it leaves alone. -/

namespace Intcode

namespace Machine
variable {a b : Int} {m m' : Machine} {i : Instruction} {e : Effect} {event : Event}

theorem Performs.image (h : Performs a i m e m') : m'.image = m.image := by
  cases h with
  | combine _ hm | jump _ hm | read _ hm | write _ hm | adjust _ hm => exact hm.grown.image
  | halt => rfl

theorem image_of_execute (h : execute a m = .ok e m') : m'.image = m.image := by
  obtain ⟨-, i, -, hperforms⟩ := performs_of_execute h
  exact hperforms.image

theorem image_of_poke (t v : Int) (m : Machine) : (finalState (poke t v m)).image = m.image := by
  by_cases ht : t < 0
  · rw [poke_of_neg m ht]
    rfl
  · rw [poke_of_nonneg m (Int.not_lt.mp ht)]
    rfl

theorem Moves.image (h : m.Moves a event b m') : m'.image = m.image := by
  cases h with
  | next h | write h => exact image_of_execute h
  | read h hp =>
    obtain ⟨-, -, rfl⟩ := poke_ok hp
    have himage := image_of_execute h
    exact himage

end Machine

namespace Session
variable {σ : Type} {w : Wiring σ} {image : List Int}

/-- The machine was loaded with `image`. -/
def LoadedWith (image : List Int) (s : Session σ) : Prop := s.machine.image = image

theorem loadedWith_step (traced : Bool) (a : Int) :
    Ensures (LoadedWith image) (fun _ => True) (fun _ => True) (step w traced a) := by
  rintro s rfl
  by_cases ha : a < 0
  · rw [step_of_neg ha]
    exact ⟨rfl, trivial⟩
  have ha : 0 ≤ a := Int.not_lt.mp ha
  cases hd : s.machine.decodeAt a with
  | error g =>
    rw [step_of_undecoded ha hd]
    exact ⟨rfl, trivial⟩
  | ok i =>
    cases h : step w traced a s with
    | error f s' => exact ⟨(step_error ha hd h).grown.image, trivial⟩
    | ok p s' =>
      refine ⟨?_, trivial⟩
      cases p with
      | running b =>
        obtain ⟨e, hmoves⟩ := moves_of_step h
        exact hmoves.image
      | reading t b =>
        obtain ⟨-, j, m, -, hm, rfl, -⟩ := step_waiting h
        exact (Machine.grown_of_perform_ok hm nofun).image
      | halted => exact Machine.image_of_execute (execute_of_halted_step h)

theorem loadedWith_complete (t b : Int) :
    Ensures (LoadedWith image) (fun _ => True) (fun _ => True) (complete w t b) := by
  refine Ensures.bind (Q := fun _ => True) (fun s hs => ?_) fun v _ => ?_
  · rw [onWorld_eq]
    cases w.read s.world <;> exact ⟨hs, trivial⟩
  · cases v with
    | none => exact .ret trivial
    | some v =>
      refine Ensures.bind (Q := fun _ => True) (fun s hs => ?_) fun _ _ => .ret trivial
      have himage := Machine.image_of_poke t v s.machine
      rw [onMachine_eq]
      cases hp : Machine.poke t v s.machine with
      | ok old m | error f m =>
        rw [hp] at himage
        exact ⟨himage.trans hs, trivial⟩

theorem loadedWith_run (traced : Bool) (fuel : Nat) (a : Int) :
    Ensures (LoadedWith image) (fun _ => True) (fun _ => True) (run w traced fuel a) := by
  induction fuel generalizing a with
  | zero => exact .ret trivial
  | succ fuel ih =>
    refine (loadedWith_step traced a).bind fun p _ => ?_
    cases p with
    | running b => exact ih b
    | reading t b | halted => exact .ret trivial

end Session

namespace Machine
variable {image : List Int}

/-- What may be done to a machine. Every step and every run has surroundings of its own, and a read
that had to wait is completed in others again. -/
inductive Call : Type 1
  | peek (a : Int)
  | poke (a v : Int)
  | value (mode : Mode) (operand : Int)
  | target (mode : Mode) (operand : Int)
  | instructionAt (a : Int)
  | step {σ : Type} (w : Wiring σ) (traced : Bool) (a : Int) (world : σ) (log : String)
  | complete {σ : Type} (w : Wiring σ) (t b : Int) (world : σ) (log : String)
  | run {σ : Type} (w : Wiring σ) (traced : Bool) (fuel : Nat) (a : Int) (world : σ) (log : String)
  | setBase (base : Int)
  | reset (full : Bool)
  | copy

/-- The machine after a call, whether it has failed or not; after a copy it is the copy. -/
def call (m : Machine) : Call → Machine
  | .peek a => finalState (Machine.peek a m)
  | .poke a v => finalState (Machine.poke a v m)
  | .value mode operand => finalState (Machine.value mode operand m)
  | .target mode operand => finalState (Machine.target mode operand m)
  | .instructionAt a => finalState (Machine.instructionAt a m)
  | .step w traced a world log => (finalState (Session.step w traced a ⟨m, world, log⟩)).machine
  | .complete w t b world log => (finalState (Session.complete w t b ⟨m, world, log⟩)).machine
  | .run w traced fuel a world log =>
    (finalState (Session.run w traced fuel a ⟨m, world, log⟩)).machine
  | .setBase base => { m with base }
  | .reset full => m.reset full
  | .copy => m.fresh

theorem image_call (c : Call) (m : Machine) : (m.call c).image = m.image := by
  cases c with
  | peek a => exact (grown_peek a m (.refl m)).1.image
  | poke a v => exact image_of_poke a v m
  | value mode operand =>
    cases mode with
    | pointer => exact (grown_peek operand m (.refl m)).1.image
    | value => rfl
    | relative => exact (grown_peek (operand + m.base) m (.refl m)).1.image
  | target mode operand => cases mode <;> rfl
  | instructionAt a =>
    rw [call, finalState_instructionAt]
    exact image_glance a m
  | step w traced a world log =>
    exact (Session.loadedWith_step traced a ⟨m, world, log⟩ rfl).1
  | complete w t b world log => exact (Session.loadedWith_complete t b ⟨m, world, log⟩ rfl).1
  | run w traced fuel a world log =>
    exact (Session.loadedWith_run traced fuel a ⟨m, world, log⟩ rfl).1
  | setBase base => rfl
  | reset full => cases full <;> rfl
  | copy => rfl

theorem image_calls (calls : List Call) (m : Machine) : (calls.foldl call m).image = m.image := by
  induction calls generalizing m with
  | nil => rfl
  | cons c calls ih => rw [List.foldl_cons, ih, image_call]

/-- Whatever has been done to a machine, a full reset and a copy give the machine as it was loaded,
so every later run goes as on a new one; a soft reset gives the memory as it was loaded, cell by
cell, and leaves the base and the trace. -/
theorem full_reset_is_load (image : List Int) (calls : List Call) :
    let m := calls.foldl call (load image)
    m.reset true = load image ∧ m.fresh = load image ∧
    ((m.reset false).memory.toList = image ∧ (m.reset false).base = m.base ∧
      (m.reset false).trace = m.trace) ∧
    ∀ {σ : Type} (w : Wiring σ) (traced : Bool) (fuel : Nat) (a : Int) (world : σ) (log : String),
      Session.run w traced fuel a ⟨m.reset true, world, log⟩ =
        Session.run w traced fuel a ⟨load image, world, log⟩ ∧
      Session.run w traced fuel a ⟨m.fresh, world, log⟩ =
        Session.run w traced fuel a ⟨load image, world, log⟩ := by
  intro m
  have himage : m.image = image := image_calls calls (load image)
  have hreset : m.reset true = load image := by rw [reset_true, himage]
  have hfresh : m.fresh = load image := by rw [fresh, himage]
  refine ⟨hreset, hfresh, ⟨?_, rfl, rfl⟩, fun w traced fuel a world log => ?_⟩
  · rw [reset_false, himage]
    simp [Memory.toList, Memory.ofList]
  · rw [hreset, hfresh]
    exact ⟨rfl, rfl⟩

end Machine

end Intcode
