import Intcode.Network.Ring
import Intcode.Proofs.ControlFlow
import Intcode.Proofs.NetworkOrder
import Intcode.Relay

/-! # Enough fuel

What a relay or a ring comes to does not depend on the fuel, as soon as there is enough of it: a run
that has ended, and a network that has finished, are not changed by more. -/

namespace Intcode

section
variable {ε α β : Type} {x : Nat → ExceptT ε Option α} {f : Nat → α → ExceptT ε Option β}
  {a : α} {e : ε} {r : Except ε β}

/-- With enough fuel, and with any more, the action comes to `r`. -/
def Comes (x : Nat → ExceptT ε Option α) (r : Except ε α) : Prop :=
  ∃ enough, ∀ fuel, enough ≤ fuel → (x fuel).run = some r

theorem comes_pure (a : α) : Comes (fun _ => (pure a : ExceptT ε Option α)) (.ok a) :=
  ⟨0, fun _ _ => rfl⟩

theorem Comes.bind (hx : Comes x (.ok a)) (hf : Comes (fun fuel => f fuel a) r) :
    Comes (fun fuel => x fuel >>= f fuel) r := by
  obtain ⟨j, hj⟩ := hx
  obtain ⟨k, hk⟩ := hf
  refine ⟨max j k, fun fuel hfuel => ?_⟩
  rw [ExceptT.run_bind, hj fuel (by omega)]
  exact hk fuel (by omega)

theorem Comes.bind_error (hx : Comes x (.error e)) :
    Comes (fun fuel => x fuel >>= f fuel) (.error e) := by
  obtain ⟨j, hj⟩ := hx
  refine ⟨j, fun fuel hfuel => ?_⟩
  rw [ExceptT.run_bind, hj fuel hfuel]
  rfl

/-- Nothing else is come to. -/
theorem Comes.unique {r r' : Except ε α} (h : Comes x r) (h' : Comes x r') : r = r' := by
  obtain ⟨j, hj⟩ := h
  obtain ⟨k, hk⟩ := h'
  have hboth := (hj (max j k) (by omega)).symm.trans (hk (max j k) (by omega))
  exact Option.some.inj hboth

end

/-! ### Relays and rings -/

/-- A run that does not stop for lack of fuel is not changed by more. -/
theorem Session.run_of_le {σ : Type} {w : Wiring σ} {traced : Bool} {a : Int} {s : Session σ}
    {r : EStateM.Result Fault (Session σ) Progress} {fuel enough : Nat}
    (h : run w traced enough a s = r) (hr : ∀ b s', r ≠ .ok (.running b) s')
    (hle : enough ≤ fuel) : run w traced fuel a s = r := by
  induction enough generalizing a s fuel with
  | zero => exact absurd h.symm (hr a s)
  | succ enough ih =>
    obtain ⟨k, rfl⟩ := Nat.exists_eq_add_of_lt hle
    by_cases hstep : ∃ b s', step w traced a s = .ok (.running b) s'
    · obtain ⟨b, s', hstep⟩ := hstep
      rw [run_of_running hstep] at h ⊢
      exact ih h (by omega)
    · have hlast : ∀ b s', step w traced a s ≠ .ok (.running b) s' :=
        fun b s' h => hstep ⟨b, s', h⟩
      rw [run_of_not_running hlast] at h ⊢
      exact h

namespace Relay
variable {fuel : Nat} {image phases : List Int} {signal phase : Int} {r : Except Fault Int}

theorem comes_of_pass (h : (pass fuel image signal phase).run = some r) :
    Comes (fun fuel => pass fuel image signal phase) r := by
  refine ⟨fuel, fun more hle => ?_⟩
  show (pass more image signal phase).run = some r
  rw [pass] at h ⊢
  cases hrun : Session.run Devices.wiring false fuel 0
      { machine := .load image, world := devices phase signal } with
  | error f s =>
    simp only [hrun] at h
    simp only [Session.run_of_le hrun (fun _ _ => nofun) hle]
    exact h
  | ok p s =>
    simp only [hrun] at h
    cases p with
    | halted =>
      simp only [Session.run_of_le hrun (fun _ _ => nofun) hle]
      exact h
    | running b | reading t b => cases h

theorem comes_of_signal (h : (Relay.signal fuel image signal phases).run = some r) :
    Comes (fun fuel => Relay.signal fuel image signal phases) r := by
  induction phases generalizing signal with
  | nil =>
    cases h
    exact comes_pure signal
  | cons phase phases ih =>
    simp only [Relay.signal, List.foldlM_cons] at h ⊢
    rw [ExceptT.run_bind] at h
    cases hp : (pass fuel image signal phase).run with
    | none =>
      rw [hp] at h
      cases h
    | some q =>
      rw [hp] at h
      have hpass := comes_of_pass hp
      cases q with
      | error f =>
        cases h
        exact hpass.bind_error
      | ok v => exact hpass.bind (ih h)

end Relay

namespace Network
variable {fuel enough : Nat} {image phases : List Int} {signal : Int} {n : Network}
  {r : Except SignalFault Int}

theorem firstReady?_of_stopped (h : n.Stopped) : n.firstReady? = none :=
  List.find?_eq_none.mpr fun i _ => h i

theorem settle_of_stopped (h : (n.settle enough).Stopped) (hle : enough ≤ fuel) :
    n.settle fuel = n.settle enough := by
  induction enough generalizing n fuel with
  | zero =>
    cases fuel with
    | zero => rfl
    | succ fuel =>
      have hnone : n.firstReady? = none := firstReady?_of_stopped h
      show n.settle (fuel + 1) = n
      rw [settle, hnone]
  | succ enough ih =>
    obtain ⟨k, rfl⟩ := Nat.exists_eq_add_of_lt hle
    rw [settle] at h
    rw [settle, settle]
    cases hf : n.firstReady? with
    | none => rfl
    | some i =>
      rw [hf] at h
      exact ih h (by omega)

theorem isFinished_of_ringResult? (h : n.ringResult? = some r) : n.isFinished = true := by
  cases hf : n.isFinished with
  | true => rfl
  | false =>
    simp [ringResult?, result?, hf] at h

theorem comes_of_feedback (h : (feedback fuel image signal phases).run = some r) :
    Comes (fun fuel => feedback fuel image signal phases) r := by
  refine ⟨fuel, fun more hle => ?_⟩
  show (feedback more image signal phases).run = some r
  unfold feedback at h ⊢
  by_cases hempty : phases.isEmpty = true
  · rw [if_pos hempty] at h ⊢
    exact h
  · rw [if_neg hempty] at h ⊢
    have hstop := stopped_of_isFinished (isFinished_of_ringResult? h)
    rw [settle_of_stopped hstop hle]
    exact h

end Network

end Intcode
