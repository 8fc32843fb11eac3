import Intcode.Proofs.DeviceExchange
import Intcode.Proofs.StepCases

/-! # The target of an input

An input works out the address of its target before it reads. So a parameter in value mode, which is
no target at all, fails before anything is asked of the input device. That the address is negative
is noticed only when the value is stored: then the value has been read, and the prompt for it has
been written. -/

namespace Intcode

/-- The reports of bad addresses tell of these two causes only. -/
theorem Fault.cause_of_address {f : Fault} (h : f.report.category = .address) :
    (∃ t, f = .negativeAddress t) ∨ ∃ v, f = .valueTarget v := by
  unfold report at h
  split at h
  · cases f with
    | negativeAddress t => exact .inl ⟨t, rfl⟩
    | valueTarget v => exact .inr ⟨v, rfl⟩
    | decode g => cases g <;> cases h
    | channel g => cases g <;> cases h
    | device | unwritable => cases h
  · cases h

theorem Fault.OfInput.category_ne {f : Fault} (h : f.OfInput) : f.report.category ≠ .address := by
  obtain ⟨cause, rfl⟩ := h
  intro h
  rcases cause_of_address h with ⟨t, h⟩ | ⟨v, h⟩ <;> cases h

namespace Machine
variable {a t : Int} {m : Machine} {i : Instruction}

theorem perform_input (ha : 0 ≤ a) (hop : i.operation = .input) :
    perform a i m = match m.reference i.first (a + 1) with
      | none => .error (.valueTarget (m.memory.get (a + 1).toNat)) (m.look (a + 1))
      | some t => .ok (.read t (a + 2)) (m.look (a + 1)) := by
  have hdest := destination_eq (by omega : 0 ≤ a + 1) i.first m
  unfold perform
  rw [hop]
  cases hr : m.reference i.first (a + 1) with
  | none =>
    rw [hr] at hdest
    exact bind_of_error hdest
  | some t =>
    rw [hr] at hdest
    exact bind_of_ok hdest

end Machine

/-- An input that fails at a bad address does so before its read, in value mode, or else after it. -/
theorem Breaks.input {a : Int} {i : Instruction} {m m' : Machine} {d d' : Devices} {f : Fault}
    (h : Breaks Devices.wiring a i (m.enter a) d f m' d') (ha : 0 ≤ a)
    (hop : i.operation = .input) (hf : f.report.category = .address) :
    (i.first = .value ∧ f = .valueTarget (m.memory.get (a + 1).toNat) ∧ d' = d) ∨
      ∃ t v, m.reference i.first (a + 1) = some t ∧ t < 0 ∧ f = .negativeAddress t ∧
        Devices.read d = .ok (some v) d' := by
  have hperform := Machine.perform_input (m := m.enter a) ha hop
  rw [Machine.reference_enter, Machine.get_enter] at hperform
  cases h with
  | line => cases hf
  | alone h =>
    rw [hperform] at h
    cases hr : m.reference i.first (a + 1) with
    | none =>
      rw [hr] at h
      cases h
      exact .inl ⟨Machine.reference_eq_none_iff.mp hr, rfl, rfl⟩
    | some t =>
      rw [hr] at h
      cases h
  | write h hw =>
    obtain ⟨t, b, he⟩ := (Machine.effect_read_iff h).mpr hop
    cases he
  | read h hr => exact absurd hf (Devices.ofInput_read.of_error trivial hr).2.category_ne
  | @target t b v _ _ h hread ht =>
    rw [hperform] at h
    cases hr : m.reference i.first (a + 1) with
    | none =>
      rw [hr] at h
      cases h
    | some t' =>
      rw [hr] at h
      cases h
      exact .inr ⟨t, v, rfl, ht, rfl, hread⟩

namespace Session
variable {a : Int} {i : Instruction} {s : Session Devices} {traced : Bool}

section
variable (hline : traced = true →
    ∀ v ∈ [a, s.machine.memory.get a.toNat, s.machine.base], Numeral.Writable v)
include hline

theorem step_of_value_target (ha : 0 ≤ a) (hi : s.machine.decodeAt a = .ok i)
    (hop : i.operation = .input) (hmode : i.first = .value) :
    ∃ s', step Devices.wiring traced a s =
        .error (.valueTarget (s.machine.memory.get (a + 1).toNat)) s' ∧ s'.world = s.world := by
  have hperform := Machine.perform_input (m := s.machine.enter a) ha hop
  rw [Machine.reference_enter, Machine.get_enter, Machine.reference_eq_none_iff.mpr hmode] at hperform
  obtain ⟨log, hstep⟩ := step_of_perform_error (w := Devices.wiring) hline ha hi hperform
  exact ⟨_, hstep, rfl⟩

theorem step_of_negative_target {t v : Int} {d : Devices} (ha : 0 ≤ a)
    (hi : s.machine.decodeAt a = .ok i) (hop : i.operation = .input)
    (hr : s.machine.reference i.first (a + 1) = some t) (ht : t < 0)
    (hread : Devices.read s.world = .ok (some v) d) :
    ∃ s', step Devices.wiring traced a s = .error (.negativeAddress t) s' ∧ s'.world = d := by
  have hperform := Machine.perform_input (m := s.machine.enter a) ha hop
  rw [Machine.reference_enter, hr] at hperform
  obtain ⟨log, hstep⟩ := step_of_performed_read (w := Devices.wiring) hline ha hi hperform
  rw [hstep]
  exact ⟨_, complete_of_some_error hread (Machine.poke_of_neg _ ht v), rfl⟩

end

/-- An input with a bad target fails for it in one of two ways. In value mode nothing has been read
and no prompt written. At a negative address the value has been read before and is lost, with the
prompt for it written: the devices are as before only if the value was a literal. That a read had to
wait and others have changed the devices meanwhile makes no difference. Both failures do occur,
whenever the target is so and, for the second one, there is a value to read. -/
theorem bad_input_target (traced : Bool) (ha : 0 ≤ a) (hi : s.machine.decodeAt a = .ok i)
    (hop : i.operation = .input) :
    (∀ f s', step Devices.wiring traced a s = .error f s' → f.report.category = .address →
      (i.first = .value ∧ f = .valueTarget (s.machine.memory.get (a + 1).toNat) ∧
        s'.world = s.world) ∨
      ∃ t v, s.machine.reference i.first (a + 1) = some t ∧ t < 0 ∧ f = .negativeAddress t ∧
        Devices.read s.world = .ok (some v) s'.world ∧
        (s'.world = s.world ↔ ∃ text, s.world.input = .literal text)) ∧
    (∀ t b s₁ d f s', step Devices.wiring traced a s = .ok (.reading t b) s₁ →
      complete Devices.wiring t b { s₁ with world := d } = .error f s' →
      f.report.category = .address →
      s.machine.reference i.first (a + 1) = some t ∧ t < 0 ∧ f = .negativeAddress t ∧
        ∃ v, Devices.read d = .ok (some v) s'.world ∧
          (s'.world = d ↔ ∃ text, d.input = .literal text)) ∧
    ((traced = true →
        ∀ v ∈ [a, s.machine.memory.get a.toNat, s.machine.base], Numeral.Writable v) →
      (i.first = .value → ∃ s', step Devices.wiring traced a s =
        .error (.valueTarget (s.machine.memory.get (a + 1).toNat)) s') ∧
      ∀ t v d, s.machine.reference i.first (a + 1) = some t → t < 0 →
        Devices.read s.world = .ok (some v) d →
        ∃ s', step Devices.wiring traced a s = .error (.negativeAddress t) s') := by
  refine ⟨fun f s' h hf => ?_, fun t b s₁ d f s' hwait h hf => ?_, fun hline => ⟨fun hmode => ?_, ?_⟩⟩
  · rcases (step_error ha hi h).input ha hop hf with hvalue | ⟨t, v, hr, ht, rfl, hread⟩
    · exact .inl hvalue
    · exact .inr ⟨t, v, hr, ht, rfl, hread, Devices.unchanged_iff_literal hread⟩
  · obtain ⟨-, j, m, hj, hm, -⟩ := step_waiting hwait
    rw [hi] at hj
    cases hj
    have hr : s.machine.reference i.first (a + 1) = some t := by
      rw [Machine.perform_input ha hop, Machine.reference_enter] at hm
      cases hr : s.machine.reference i.first (a + 1) <;> rw [hr] at hm <;> cases hm
      rfl
    obtain ⟨world, rfl, hread | ⟨v, hread, ht, rfl⟩⟩ := complete_error h
    · exact absurd hf (Devices.ofInput_read.of_error trivial hread).2.category_ne
    · exact ⟨hr, ht, rfl, v, hread, Devices.unchanged_iff_literal hread⟩
  · obtain ⟨s', h, -⟩ := step_of_value_target hline ha hi hop hmode
    exact ⟨s', h⟩
  · intro t v d hr ht hread
    obtain ⟨s', h, -⟩ := step_of_negative_target hline ha hi hop hr ht hread
    exact ⟨s', h⟩

/-- A line that has been asked for is lost at a negative address. -/
theorem bad_input_target_prompted :
    let s : Session Devices :=
      { machine := .load [203, -1, 99]
        world := { input := .reader (.text ['7', '\n']), output := .writer {} } }
    let i : Instruction := ⟨.input, .relative, .pointer, .pointer⟩
    s.machine.decodeAt 0 = .ok i ∧ i.operation = .input ∧
      ∃ s', step Devices.wiring false 0 s = .error (.negativeAddress (-1)) s' ∧
        (Fault.negativeAddress (-1)).report.category = .address ∧
        ∃ t v, s.machine.reference i.first (0 + 1) = some t ∧ t < 0 ∧
          Fault.negativeAddress (-1) = .negativeAddress t ∧
          Devices.read s.world = .ok (some v) s'.world ∧
          (s'.world = s.world ↔ ∃ text, s.world.input = .literal text) := by
  intro s i
  have hi : (Machine.load [203, -1, 99]).decodeAt 0 =
    .ok ⟨.input, .relative, .pointer, .pointer⟩ := by rfl
  have htarget := bad_input_target (s := s) (a := 0) false (by decide) hi rfl
  have hcategory : (Fault.negativeAddress (-1)).report.category = .address := by decide +kernel
  obtain ⟨s', hstep⟩ := (htarget.2.2 nofun).2 (-1) 7 _ rfl (by decide) rfl
  refine ⟨hi, rfl, s', hstep, hcategory, ?_⟩
  rcases htarget.1 _ s' hstep hcategory with ⟨hmode, -⟩ | h
  · cases hmode
  · exact h

/-- The value that was queued is gone after the input has failed for its target. -/
theorem value_lost_at_negative_target :
    let s : Session Devices :=
      { machine := .load [3, -1, 99], world := { input := .channel (.ofList "in" [7]) } }
    s.machine.decodeAt 0 = .ok ⟨.input, .pointer, .pointer, .pointer⟩ ∧
      ∃ s', step Devices.wiring false 0 s = .error (.negativeAddress (-1)) s' ∧
        (Fault.negativeAddress (-1)).report.category = .address ∧
        s'.world.input = .channel (.ofList "in" []) ∧ s'.world ≠ s.world := by
  intro s
  have hi : (Machine.load [3, -1, 99]).decodeAt 0 =
    .ok ⟨.input, .pointer, .pointer, .pointer⟩ := by rfl
  refine ⟨hi, _, rfl, by decide +kernel, rfl, ?_⟩
  decide +kernel

end Session

end Intcode
