import Intcode.Proofs.StepCases

/-! # Jumps that are not taken

Both arguments of a jump are read before its condition is tested. So a jump that is not taken goes
on behind its three cells, and changes nothing on its way, exactly if its second argument can be
read; if that refers to a negative address, the jump fails, although it would not have gone there. -/

namespace Intcode

/-- The jump on a first argument `x` is not taken. -/
def Operation.Declines (o : Operation) (x : Int) : Prop :=
  o = .jumpIfNonzero ∧ x = 0 ∨ o = .jumpIfZero ∧ x ≠ 0

namespace Machine
variable {a x t : Int} {m m₁ : Machine} {i : Instruction}

theorem perform_of_declines (h : i.operation.Declines x)
    (hx : argument i.first (a + 1) m = .ok x m₁) :
    perform a i m = (argument i.second (a + 2) >>= fun _ => pure (.next (a + 3))) m₁ := by
  unfold perform
  rcases h with ⟨hop, rfl⟩ | ⟨hop, hne⟩
  · rw [hop]
    exact bind_of_ok hx
  · have htest : (x == 0) = false := beq_eq_false_iff_ne.mpr hne
    rw [hop]
    refine (bind_of_ok hx).trans ?_
    simp only [htest, jump, Bool.false_eq_true, if_false]

theorem perform_of_readable (ha : 0 ≤ a) (h : i.operation.Declines x)
    (hx : argument i.first (a + 1) m = .ok x m₁)
    (hr : ∀ t, m.reference i.second (a + 2) = some t → 0 ≤ t) :
    ∃ m', m.Grown m' ∧ perform a i m = .ok (.next (a + 3)) m' := by
  have hm₁ := ((grown_argument i.first (a + 1)).of_ok (.refl m) hx).1
  rw [← hm₁.reference] at hr
  obtain ⟨y, m₂, hy⟩ := argument_of_readable (by omega) hr
  refine ⟨m₂, ((grown_argument i.second (a + 2)).of_ok hm₁ hy).1, ?_⟩
  rw [perform_of_declines h hx, bind_of_ok hy]
  rfl

theorem perform_of_unreadable (ha : 0 ≤ a) (h : i.operation.Declines x)
    (hx : argument i.first (a + 1) m = .ok x m₁) (hr : m.reference i.second (a + 2) = some t)
    (ht : t < 0) : ∃ m', perform a i m = .error (.negativeAddress t) m' := by
  have hm₁ := ((grown_argument i.first (a + 1)).of_ok (.refl m) hx).1
  rw [← hm₁.reference] at hr
  refine ⟨m₁.look (a + 2), ?_⟩
  rw [perform_of_declines h hx, bind_of_error (argument_of_neg (by omega) hr ht)]

end Machine

namespace Session
variable {σ : Type} {w : Wiring σ} {a x : Int} {i : Instruction} {s : Session σ} {m : Machine}
  {traced : Bool}

/-- A jump whose first argument can be read, and does not make it jump, goes on to the instruction
behind it exactly if its second argument can be read too, that is if it refers to no negative
address; otherwise it fails there. If it goes on, only zeros have been added to the memory. -/
theorem untaken_jump (ha : 0 ≤ a) (hi : s.machine.decodeAt a = .ok i)
    (hx : Machine.argument i.first (a + 1) s.machine = .ok x m) (h : i.operation.Declines x)
    (hline : traced = true →
      ∀ v ∈ [a, s.machine.memory.get a.toNat, s.machine.base], Numeral.Writable v) :
    ((∃ s', step w traced a s = .ok (.running (a + 3)) s') ↔
      ∀ t, s.machine.reference i.second (a + 2) = some t → 0 ≤ t) ∧
    (∀ p s', step w traced a s = .ok p s' → p = .running (a + 3) ∧ s'.world = s.world ∧
      (s.machine.enter a).Grown s'.machine) ∧
    ∀ t, s.machine.reference i.second (a + 2) = some t → t < 0 →
      ∃ s', step w traced a s = .error (.negativeAddress t) s' := by
  obtain ⟨m₁, hx⟩ : ∃ m₁, Machine.argument i.first (a + 1) (s.machine.enter a) = .ok x m₁ := by
    have hargument := (Machine.argument_ok_iff (by omega)).mp ⟨m, hx⟩
    refine (Machine.argument_ok_iff (by omega)).mpr ?_
    simpa only [Machine.reference_enter, Machine.get_enter] using hargument
  have hfails : ∀ t, s.machine.reference i.second (a + 2) = some t → t < 0 →
      ∃ s', step w traced a s = .error (.negativeAddress t) s' := by
    intro t hr ht
    rw [← Machine.reference_enter i.second (a + 2) a] at hr
    obtain ⟨m', hm'⟩ := Machine.perform_of_unreadable ha h hx hr ht
    obtain ⟨log, hstep⟩ := step_of_perform_error (w := w) hline ha hi hm'
    exact ⟨_, hstep⟩
  have hpasses : (∀ t, s.machine.reference i.second (a + 2) = some t → 0 ≤ t) →
      ∃ m' log, (s.machine.enter a).Grown m' ∧
        step w traced a s = .ok (.running (a + 3)) ⟨m', s.world, log⟩ := by
    intro hr
    rw [← Machine.reference_enter i.second (a + 2) a] at hr
    obtain ⟨m', hgrown, hm'⟩ := Machine.perform_of_readable ha h hx hr
    obtain ⟨log, hstep⟩ := step_of_performed (w := w) hline ha hi hm'
    exact ⟨m', log, hgrown, hstep⟩
  have hreadable : ∀ p s', step w traced a s = .ok p s' →
      ∀ t, s.machine.reference i.second (a + 2) = some t → 0 ≤ t := by
    intro p s' hstep t hr
    refine Int.not_lt.mp fun ht => ?_
    obtain ⟨s₁, herror⟩ := hfails t hr ht
    rw [herror] at hstep
    cases hstep
  refine ⟨⟨fun ⟨s', hstep⟩ => hreadable _ s' hstep, fun hr => ?_⟩, fun p s' hstep => ?_, hfails⟩
  · obtain ⟨m', log, -, hstep⟩ := hpasses hr
    exact ⟨_, hstep⟩
  · obtain ⟨m', log, hgrown, hpass⟩ := hpasses (hreadable p s' hstep)
    rw [hpass] at hstep
    cases hstep
    exact ⟨rfl, rfl, hgrown⟩

/-- A jump on a cell behind the end of the memory; its second argument lies in front of the base. -/
theorem untaken_jump_relative :
    let s : Session Devices :=
      { machine := { Machine.load [2205, 4, -7] with base := 8 }, world := {} }
    let i : Instruction := ⟨.jumpIfNonzero, .relative, .relative, .pointer⟩
    s.machine.decodeAt 0 = .ok i ∧ (∃ m, Machine.argument i.first (0 + 1) s.machine = .ok 0 m) ∧
      i.operation.Declines 0 ∧
      ∃ s', step Devices.wiring false 0 s = .ok (.running (0 + 3)) s' ∧ s'.world = s.world ∧
        (s.machine.enter 0).Grown s'.machine := by
  intro s i
  have hi : { Machine.load [2205, 4, -7] with base := 8 }.decodeAt 0 =
    .ok ⟨.jumpIfNonzero, .relative, .relative, .pointer⟩ := by rfl
  obtain ⟨m, hx⟩ : ∃ m, Machine.argument .relative (0 + 1)
    { Machine.load [2205, 4, -7] with base := 8 } = .ok 0 m := ⟨_, by rfl⟩
  have hr : { Machine.load [2205, 4, -7] with base := 8 }.reference .relative (0 + 2) =
    some 1 := by rfl
  have hdeclines : i.operation.Declines 0 := .inl ⟨rfl, rfl⟩
  have hjump := untaken_jump (w := Devices.wiring) (s := s) (a := 0) (by decide) hi hx hdeclines
    (fun h : false = true => nomatch h)
  obtain ⟨s', hstep⟩ := hjump.1.mpr fun t ht => by
    cases hr.symm.trans ht
    decide
  exact ⟨hi, ⟨m, hx⟩, hdeclines, s', hstep, (hjump.2.1 _ s' hstep).2⟩

/-- A jump on 0 that fails because it cannot read where it would have gone. -/
theorem untaken_jump_fails :
    let s : Session Devices := { machine := .load [105, 0, -1], world := {} }
    s.machine.decodeAt 0 = .ok ⟨.jumpIfNonzero, .value, .pointer, .pointer⟩ ∧
      (∃ m, Machine.argument .value (0 + 1) s.machine = .ok 0 m) ∧
      ∃ s', step Devices.wiring false 0 s = .error (.negativeAddress (-1)) s' := by
  intro s
  have hi : (Machine.load [105, 0, -1]).decodeAt 0 =
    .ok ⟨.jumpIfNonzero, .value, .pointer, .pointer⟩ := by rfl
  have hx : ∃ m, Machine.argument .value (0 + 1) (Machine.load [105, 0, -1]) = .ok 0 m := ⟨_, rfl⟩
  exact ⟨hi, hx, _, rfl⟩

end Session

end Intcode
