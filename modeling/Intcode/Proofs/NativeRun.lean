import Intcode.Proofs.NativeRules
import Intcode.Proofs.SessionValues
import Intcode.Proofs.TapeView

/-! # A machine of words inside its address space

Only sums and products of cells are wrapped by a machine; its base and all addresses are integers
without bounds. As long as every address it accesses is one that signed words can name, no run of it
can be told from that of a native machine on the same wiring: the two have the same traffic, the
same trace, the same cells and the same outcome, and the native base is what is left of the base in
a word. -/

namespace Intcode
open Word (InRange bits Addressable)

def Progress.native : Progress → NativeProgress
  | running b => .running (bits b)
  | reading t b => .reading (bits t) (bits b)
  | halted => .halted

abbrev Progress.Matches (p : Progress) (q : NativeProgress) : Prop := q = p.native

namespace TapeSession
variable {σ α β : Type} {w : Wiring σ} {s : TapeSession σ} {a t b : Int}

def native (s : TapeSession σ) : NativeSession σ := ⟨s.machine.native, s.world⟩

/-- The native session is this one on words, and the trace loses nothing by that. -/
def Matches (s : TapeSession σ) (n : NativeSession σ) : Prop := n = s.native ∧ s.machine.Traced

/-! ### Actions -/

theorem onTape_native {x : TapeMachine → Except Fault (α × TapeMachine)}
    {y : NativeMachine → Except Fault (β × NativeMachine)} {Q : α → β → Prop}
    (ht : s.machine.Traced) (h : TapeMachine.Matches Q (x s.machine) (y s.machine.native)) :
    Relates Matches Q (onTape x s) (NativeSession.onMachine y s.native) := by
  simp only [onTape, NativeSession.onMachine, native]
  cases hx : x s.machine with
  | ok r =>
    cases hy : y s.machine.native with
    | ok u =>
      rw [hx, hy] at h
      obtain ⟨hQ, hn, ht'⟩ := h
      exact ⟨hQ, congrArg (NativeSession.mk · s.world) hn, ht'⟩
    | error e =>
      rw [hx, hy] at h
      exact h.elim
  | error e =>
    cases hy : y s.machine.native with
    | ok u =>
      rw [hx, hy] at h
      exact h.elim
    | error f =>
      rw [hx, hy] at h
      exact ⟨h, rfl, ht⟩

theorem onWorld_native (x : EStateM Fault σ α) (ht : s.machine.Traced) :
    Relates Matches Eq (onWorld x s) (NativeSession.onWorld x s.native) := by
  simp only [onWorld, NativeSession.onWorld, native]
  cases x s.world <;> exact ⟨rfl, rfl, ht⟩

theorem onWorld_eq_ok {x : EStateM Fault σ α} {r : α} {s' : TapeSession σ}
    (h : onWorld x s = .ok r s') : x s.world = .ok r s'.world := by
  unfold onWorld at h
  cases hx : x s.world with
  | ok r' world =>
    rw [hx] at h
    cases h
    rfl
  | error f world =>
    rw [hx] at h
    cases h

theorem conclude_native {e : Effect} {f : NativeEffect} (he : e.Matches f)
    (ht : s.machine.Traced) :
    Relates Matches Progress.Matches (conclude w e s) (NativeSession.conclude w f s.native) := by
  obtain ⟨rfl, he⟩ := he
  cases e with
  | next b | halt | read t b => exact ⟨rfl, rfl, ht⟩
  | write v b =>
    have hv : (bits v).toInt = v := Word.toInt_bits he
    simp only [Effect.native, NativeSession.conclude, conclude, hv]
    exact (onWorld_native (w.write v) ht).bind fun _ _ _ _ _ _ hs => ⟨rfl, hs⟩

theorem issue_native (hm : ∀ b, InRange (s.machine.tape b)) (ht : s.machine.Traced)
    (h : ∀ x ∈ s.machine.accesses a, Addressable x) :
    Relates Matches Progress.Matches (issue w false a s)
      (NativeSession.issue w (bits a) s.native) := by
  obtain ⟨ha, hfits⟩ := TapeMachine.fits_of_accesses h
  rcases TapeMachine.fetch_native hm ha with ⟨i, hd, hf, hfn⟩ | ⟨f, hf, hfn⟩
  · let s₁ : TapeSession σ := { s with machine := s.machine.enter a }
    have ht₁ : s₁.machine.Traced := ht.enter hm ha
    have hfetch : onTape (TapeMachine.fetch a) s = .ok (s.machine.tape a.toNat, i) s₁ := by
      simp only [onTape, hf, s₁]
    have hfetchn : NativeSession.onMachine (NativeMachine.fetch (bits a)) s.native =
        .ok i s₁.native := by
      simp only [NativeSession.onMachine, native, hfn, s₁]
    rw [NativeSession.issue, issue, bind_of_ok hfetch, bind_of_ok hfetchn]
    simp only [logWhen, Bool.false_eq_true, if_false, pure_bind]
    have hperform := TapeMachine.perform_native (m := s₁.machine) hm ht₁ (hfits i hd)
    refine (onTape_native (x := TapeMachine.perform a i) ht₁ hperform).bind ?_
    rintro e f s₂ _ - he ⟨rfl, ht₂⟩
    exact conclude_native he ht₂
  · have hfetch : onTape (σ := σ) (TapeMachine.fetch a) s = .error (.decode f) s := by
      simp only [onTape, hf]
    have hfetchn : NativeSession.onMachine (NativeMachine.fetch (bits a)) s.native =
        .error (.decode f) s.native := by
      simp only [NativeSession.onMachine, native, hfn]
    rw [NativeSession.issue, issue, bind_of_error hfetch, bind_of_error hfetchn]
    exact ⟨rfl, rfl, ht⟩

theorem complete_native (ht : s.machine.Traced)
    (h : ∀ v world, w.read s.world = .ok (some v) world → Addressable t) :
    Relates Matches Progress.Matches (complete w t b s)
      (NativeSession.complete w (bits t) (bits b) s.native) := by
  refine (onWorld_native w.read ht).bind ?_
  rintro v _ s₁ _ hread rfl ⟨rfl, ht₁⟩
  cases v with
  | none => exact ⟨rfl, rfl, ht₁⟩
  | some v =>
    have htarget : Addressable t := h v s₁.world (onWorld_eq_ok hread)
    obtain ⟨m', hstore, hnative, htrace⟩ :=
      TapeMachine.store_native (m := s₁.machine) htarget v
    have hstored : TapeMachine.Matches Progress.Matches
        (do return (.running b, ← s₁.machine.store t v))
        (.ok (.running (bits b), s₁.machine.native.store (bits t) (bits v))) := by
      simp only [hstore, bind, Except.bind]
      exact ⟨rfl, hnative, ht₁.of_eq htrace⟩
    exact onTape_native (x := fun m => do return (Progress.running b, ← m.store t v))
      (y := fun n => .ok (NativeProgress.running (bits b), n.store (bits t) (bits v))) ht₁ hstored

end TapeSession

/-! ### Runs -/

namespace Session
variable {σ : Type} {w : Wiring σ} {Good : σ → Prop} {s : Session σ} {a : Int}

/-- The addresses that one step accesses. -/
def stepAccesses (w : Wiring σ) (a : Int) (s : Session σ) : List Int :=
  s.machine.tape.accesses a ++
    match issue w false a s with
    | .ok (.reading t _) s =>
      match w.read s.world with
      | .ok (some _) _ => [t]
      | _ => []
    | _ => []

/-- The addresses that a run accesses. -/
def accesses (w : Wiring σ) : Nat → Int → Session σ → List Int
  | 0, _, _ => []
  | fuel + 1, a, s =>
    stepAccesses w a s ++
      match step w false a s with
      | .ok (.running b) s => accesses w fuel b s
      | _ => []

def native (s : Session σ) : NativeSession σ := s.tape.native

abbrev Matches (s : Session σ) (n : NativeSession σ) : Prop := s.tape.Matches n

theorem step_native (hs : s.machine.Within InRange) (ht : s.machine.tape.Traced)
    (h : ∀ x ∈ stepAccesses w a s, Addressable x) :
    Relates Matches Progress.Matches (step w false a s)
      (NativeSession.step w (bits a) s.native) := by
  have hissue : Relates Matches Progress.Matches (issue w false a s)
      (NativeSession.issue w (bits a) s.native) := by
    refine (obeys_issue w false a).relates (TapeSession.issue_native (fun b => ?_) ht ?_)
    · exact Memory.Within.get hs (by decide) b
    · exact fun x hx => h x (List.mem_append_left _ hx)
  refine hissue.bind ?_
  rintro p _ s₁ _ hr rfl ⟨rfl, ht₁⟩
  cases p with
  | running b | halted => exact ⟨rfl, rfl, ht₁⟩
  | reading t b =>
    refine (obeys_complete w t b).relates (TapeSession.complete_native ht₁ fun v world hread => ?_)
    have hread : w.read s₁.world = .ok (some v) world := hread
    refine h t (List.mem_append_right _ ?_)
    rw [hr]
    simp only [hread, List.mem_singleton]

theorem run_native (hw : w.Keeps Good) (hs : s.Within Good) (ht : s.machine.tape.Traced)
    (fuel : Nat) (h : ∀ x ∈ accesses w fuel a s, Addressable x) :
    Relates Matches Progress.Matches (run w false fuel a s)
      (NativeSession.run w fuel (bits a) s.native) := by
  induction fuel generalizing a s with
  | zero => exact ⟨rfl, rfl, ht⟩
  | succ fuel ih =>
    refine (step_native hs.1 ht fun x hx => h x (List.mem_append_left _ hx)).bind ?_
    rintro p _ s₁ _ hr rfl ⟨rfl, ht₁⟩
    cases p with
    | reading t b | halted => exact ⟨rfl, rfl, ht₁⟩
    | running b =>
      -- the wiring keeps the range, so the next step starts in it again
      have hs₁ := ((ensures_step hw false a).of_ok hs hr).1
      refine ih hs₁ ht₁ fun x hx => h x (List.mem_append_right _ ?_)
      rwa [hr]

/-- The outcome `n` on words is the outcome `r`: the same next address, end or fault, the same cells
inside the address space, the same base modulo the words, the same trace and the same traffic. -/
structure Agrees (r : EStateM.Result Fault (Session σ) Progress)
    (n : EStateM.Result Fault (NativeSession σ) NativeProgress) : Prop where
  outcome : match r, n with
    | .ok p _, .ok q _ => q = p.native
    | .error f _, .error g _ => g = f
    | .ok .., .error .. | .error .., .ok .. => False
  cells : ∀ a, Addressable a →
    ((finalState n).machine.cells (bits a)).toInt = (finalState r).machine.memory.get a.toNat
  base : (finalState n).machine.base.toInt = Word.wrap (finalState r).machine.base
  trace : (finalState n).machine.trace.map (fun e => Entry.mk e.1.toInt e.2.toInt) =
    (finalState r).machine.trace
  world : (finalState n).world = (finalState r).world

theorem agrees_of_relates {r : EStateM.Result Fault (Session σ) Progress}
    {n : EStateM.Result Fault (NativeSession σ) NativeProgress}
    (h : Relates Matches Progress.Matches r n) (hr : (finalState r).machine.Within InRange) :
    Agrees r n := by
  obtain ⟨hfinal, ht⟩ : (finalState r).Matches (finalState n) := h.final
  constructor
  case outcome =>
    cases r <;> cases n
    case ok.ok => exact h.1
    case error.error => exact h.1.symm
    case ok.error | error.ok => exact h.elim
  case cells =>
    intro a ha
    rw [hfinal]
    show ((finalState r).machine.tape.native.cells (bits a)).toInt = _
    rw [TapeMachine.cells_native ha]
    exact Word.toInt_bits (Memory.Within.get hr (by decide) a.toNat)
  case base =>
    rw [hfinal]
    rfl
  case trace =>
    rw [hfinal]
    exact TapeMachine.trace_native ht
  case world =>
    rw [hfinal]
    rfl

/-- A longer run accesses more. -/
theorem accesses_subset (w : Wiring σ) {k fuel : Nat} (h : k ≤ fuel) (a : Int) (s : Session σ) :
    accesses w k a s ⊆ accesses w fuel a s := by
  induction fuel generalizing k a s with
  | zero =>
    rw [Nat.le_zero.mp h]
    exact List.Subset.refl _
  | succ fuel ih =>
    cases k with
    | zero => exact List.nil_subset _
    | succ k =>
      intro x hx
      rcases List.mem_append.mp hx with hx | hx
      · exact List.mem_append_left _ hx
      · refine List.mem_append_right _ ?_
        split at hx
        · exact ih (Nat.le_of_succ_le_succ h) _ _ hx
        · exact absurd hx List.not_mem_nil

/-- A run whose accesses all stay inside the address space of signed words is step by step the run
of a native machine on the same words, as long as what it reads is in the range. Only sums and
products are wrapped; the base and the sums with it may go beyond all words and come back. -/
theorem run_agrees_native (hw : w.Keeps Good) {image : List Int} (hi : ∀ v ∈ image, InRange v)
    {world : σ} (hg : Good world) (fuel : Nat) (start base : Int) (log : String)
    (h : ∀ x ∈ accesses w fuel start ⟨{ Machine.load image with base }, world, log⟩,
      Addressable x) (k : Nat) (hk : k ≤ fuel) :
    Agrees (run w false k start ⟨{ Machine.load image with base }, world, log⟩)
      (NativeSession.run w k (bits start) ⟨.load image base, world⟩) := by
  let s : Session σ := ⟨{ Machine.load image with base }, world, log⟩
  have hs : s.Within Good := ⟨Memory.within_ofList hi, hg⟩
  have ht : s.machine.tape.Traced := fun e he => absurd he (Array.not_mem_empty e)
  have hnative : s.native = ⟨NativeMachine.load image base, world⟩ := by
    show NativeSession.mk s.machine.tape.native world = _
    rw [Machine.tape_load, TapeMachine.native_load]
  rw [← hnative]
  have hrun := run_native hw hs ht k fun x hx => h x (accesses_subset w hk start s hx)
  exact agrees_of_relates hrun (ensures_run hw false k start s hs).1.1

/-- A program that reads 7 into its second `adjustBase`. The base goes beyond all words; the target
of a sum beyond all words, and the cell that is then written out, are back in the program. -/
theorem run_agrees_native_drift :
    let image : List Int := [109, 0x7fffffffffffffff, 3, 5, 109, 0,
      21101, 0x7fffffffffffffff, 0x7fffffffffffffff, -0x8000000000000000,
      204, -0x8000000000000000, 99]
    let devices : Devices := ⟨.channel ⟨"", [.value 7], false⟩, .channel {}⟩
    let s : Session Devices := { machine := Machine.load image, world := devices }
    let r := run Devices.wiring false 6 0 s
    (∀ x ∈ accesses Devices.wiring 6 0 s, Addressable x) ∧
      (finalState r).machine.base = 0x8000000000000006 ∧
      (finalState r).world = ⟨.channel ⟨"", [], false⟩, .channel ⟨"", [.value (-2)], false⟩⟩ ∧
      Agrees r (NativeSession.run Devices.wiring 6 (bits 0) ⟨.load image 0, devices⟩) := by
  intro image devices s r
  have ha : ∀ x ∈ accesses Devices.wiring 6 0 s, Addressable x := by decide +kernel
  have hbase : (finalState r).machine.base = 0x8000000000000006 := by decide +kernel
  have hworld : (finalState r).world =
      ⟨.channel ⟨"", [], false⟩, .channel ⟨"", [.value (-2)], false⟩⟩ := by
    decide +kernel
  have hd : devices.Within := by
    constructor
    · rintro _ ⟨⟩ v hv
      obtain ⟨⟩ := List.mem_singleton.mp hv
      decide
    · rintro _ ⟨⟩ v hv
      exact absurd hv List.not_mem_nil
  exact ⟨ha, hbase, hworld,
    run_agrees_native Devices.keeps (by decide) hd 6 0 0 "" ha 6 (Nat.le_refl 6)⟩

end Session

end Intcode
