import Intcode.Devices
import Intcode.Proofs.Action

/-! # What a writer has been given

A write hands over its whole text or, if it fails, nothing. A flush passes on what has been handed
over before and hands over nothing itself, whether it fails or not. So a text that has been put on a
writer in vain has been handed over all the same if only its flush has failed. What an action costs,
in writes and in flushes, says when it succeeds. -/

namespace Intcode.Writer
variable {text reason : String} {n k j k' j' : Nat} {w w' w'' : Writer}

/-! ### What is handed over -/

theorem write_ok (h : write text w = .ok () w') :
    w'.written = w.written ++ text ∧ w'.flushes = w.flushes := by
  unfold write at h
  split at h <;> cases h <;> exact ⟨(String.append_assoc).symm, rfl⟩

theorem write_error (h : write text w = .error reason w') : w' = w ∧ reason = w.reason := by
  unfold write at h
  split at h <;> cases h
  exact ⟨rfl, rfl⟩

theorem flush_ok (h : flush w = .ok () w') : w'.passed = w.written ∧ w'.held = "" := by
  unfold flush at h
  split at h <;> cases h <;> exact ⟨rfl, rfl⟩

theorem flush_error (h : flush w = .error reason w') :
    w'.written = w.written ∧ ∃ f, some f ∈ w.flushes.head? ∧ reason = f.reason := by
  unfold flush at h
  split at h
  · cases h
  · cases h
  · rename_i f flushes hflushes
    cases h
    refine ⟨?_, f, by rw [hflushes]; rfl, rfl⟩
    rw [written, String.append_assoc, ← String.ofList_append, List.take_append_drop,
      String.ofList_toList]
    rfl

/-- A text that has been put on a writer has been passed on, with all that was held back before. -/
theorem put_ok (h : put text w = .ok () w') :
    w'.written = w.written ++ text ∧ w'.held = "" := by
  obtain ⟨⟨⟩, w₁, hwrite, hflush⟩ := bind_eq_ok h
  obtain ⟨hpassed, hheld⟩ := flush_ok hflush
  refine ⟨?_, hheld⟩
  rw [written, hpassed, hheld, String.append_empty, (write_ok hwrite).1]

/-- A text that has been put on a writer in vain has not been handed over, or not been passed on. -/
theorem put_error (h : put text w = .error reason w') :
    w' = w ∨ w'.written = w.written ++ text ∧
      ∃ f, some f ∈ w.flushes.head? ∧ reason = f.reason := by
  rcases bind_eq_error h with hwrite | ⟨⟨⟩, w₁, hwrite, hflush⟩
  · exact .inl (write_error hwrite).1
  · obtain ⟨hwritten, hflushes⟩ := write_ok hwrite
    obtain ⟨hheld, f, hf, hreason⟩ := flush_error hflush
    rw [hwritten] at hheld
    rw [hflushes] at hf
    exact .inr ⟨hheld, f, hf, hreason⟩

/-! ### Writers that never fail -/

/-- Neither a write nor a flush fails. -/
structure Unfailing (w : Writer) : Prop where
  unlimited : w.remaining = none
  unfaulted : w.flushes = []

theorem put_of_unfailing (h : w.Unfailing) (text : String) :
    ∃ w', put text w = .ok () w' ∧ w'.Unfailing ∧ w'.written = w.written ++ text := by
  obtain ⟨passed, held, remaining, reason, flushes⟩ := w
  obtain ⟨hremaining, hflushes⟩ := h
  simp only at hremaining hflushes
  subst hremaining hflushes
  have hput : put text ⟨passed, held, none, reason, []⟩ =
      .ok () ⟨passed ++ (held ++ text), "", none, reason, []⟩ := rfl
  exact ⟨_, hput, ⟨rfl, rfl⟩, (put_ok hput).1⟩

/-! ### What actions cost -/

/-- The next `n` writes succeed. -/
def Writes (n : Nat) (w : Writer) : Prop := ∀ k ∈ w.remaining, n ≤ k

/-- The next `n` flushes succeed. -/
def Flushes (n : Nat) (w : Writer) : Prop := ∀ f ∈ w.flushes.take n, f = none

theorem Writes.mono (h : w.Writes n) (hk : k ≤ n) : w.Writes k :=
  fun m hm => Nat.le_trans hk (h m hm)

theorem Flushes.mono (h : w.Flushes n) (hk : k ≤ n) : w.Flushes k :=
  fun f hf => h f (List.take_subset_take_left w.flushes hk hf)

theorem writes_zero (w : Writer) : w.Writes 0 := fun m _ => Nat.zero_le m

theorem writes_of_unlimited (h : w.remaining = none) (n : Nat) : w.Writes n := by
  rw [Writes, h]
  exact nofun

theorem flushes_of_unfaulted (h : w.flushes = []) (n : Nat) : w.Flushes n := by
  rw [Flushes, h, List.take_nil]
  exact nofun

/-- With `k` writes and `j` flushes a text has been handed over. -/
structure Spends (k j : Nat) (text : String) (w w' : Writer) : Prop where
  written : w'.written = w.written ++ text
  writes : ∀ n, w'.Writes n ↔ w.Writes (k + n)
  flushes : ∀ n, w'.Flushes n ↔ w.Flushes (j + n)

/-- An action hands over a text if `k` writes and `j` flushes succeed, and fails otherwise. -/
def Costs (k j : Nat) (text : String) (x : WriterM Unit) : Prop :=
  ∀ w, (w.Writes k ∧ w.Flushes j ∧ ∃ w', x w = .ok () w' ∧ Spends k j text w w') ∨
    ¬ (w.Writes k ∧ w.Flushes j) ∧ ∃ reason w', x w = .error reason w'

theorem Spends.trans {text' : String} (h : Spends k j text w w')
    (h' : Spends k' j' text' w' w'') : Spends (k + k') (j + j') (text ++ text') w w'' where
  written := by rw [h'.written, h.written, String.append_assoc]
  writes n := by rw [h'.writes, h.writes, Nat.add_assoc]
  flushes n := by rw [h'.flushes, h.flushes, Nat.add_assoc]

theorem costs_write (text : String) : Costs 1 0 text (write text) := by
  intro w
  obtain ⟨passed, held, remaining, reason, flushes⟩ := w
  have hflushes : ∀ n (w : Writer), w.Flushes n ↔ w.Flushes (0 + n) := by
    intro n w
    rw [Nat.zero_add]
  match remaining with
  | none =>
    refine .inl ⟨writes_of_unlimited rfl 1, nofun, _, rfl, (write_ok rfl).1, fun n => ?_,
      fun n => hflushes n _⟩
    exact iff_of_true (writes_of_unlimited rfl n) (writes_of_unlimited rfl (1 + n))
  | some 0 =>
    refine .inr ⟨fun h => ?_, _, _, rfl⟩
    exact absurd (h.1 0 rfl) (by decide)
  | some (m + 1) =>
    refine .inl ⟨?_, nofun, _, rfl, (write_ok rfl).1, fun n => ?_, fun n => hflushes n _⟩
    · rintro _ ⟨⟩
      exact Nat.le_add_left 1 m
    · constructor
      · rintro h _ ⟨⟩
        have := h m rfl
        omega
      · rintro h _ ⟨⟩
        have := h (m + 1) rfl
        omega

theorem costs_flush : Costs 0 1 "" flush := by
  intro w
  obtain ⟨passed, held, remaining, reason, flushes⟩ := w
  have hwritten : ∀ flushes flushes',
      (Writer.mk (passed ++ held) "" remaining reason flushes).written =
        (Writer.mk passed held remaining reason flushes').written ++ "" := by
    intro flushes flushes'
    rw [String.append_empty]
    exact String.append_empty
  have hwrites : ∀ n (w : Writer), w.Writes n ↔ w.Writes (0 + n) := by
    intro n w
    rw [Nat.zero_add]
  match flushes with
  | [] =>
    refine .inl ⟨writes_zero _, flushes_of_unfaulted rfl 1, _, rfl, hwritten _ _,
      fun n => hwrites n _, fun n => ?_⟩
    exact iff_of_true (flushes_of_unfaulted rfl n) (flushes_of_unfaulted rfl (1 + n))
  | none :: flushes =>
    refine .inl ⟨writes_zero _, List.forall_mem_singleton.mpr rfl, _, rfl, hwritten _ _,
      fun n => hwrites n _, fun n => ?_⟩
    rw [Flushes, Flushes, Nat.add_comm 1 n, List.take_succ_cons, List.forall_mem_cons]
    exact (and_iff_right rfl).symm
  | some f :: flushes =>
    refine .inr ⟨fun h => ?_, _, _, rfl⟩
    exact absurd (h.2 (some f) List.mem_cons_self) nofun

theorem Costs.bind {text' : String} {x y : WriterM Unit} (hx : Costs k j text x)
    (hy : Costs k' j' text' y) :
    Costs (k + k') (j + j') (text ++ text') (x >>= fun _ => y) := by
  intro w
  rcases hx w with ⟨hk, hj, w₁, hx, hspent⟩ | ⟨hnot, reason, w₁, hx⟩
  · rw [bind_of_ok hx]
    rcases hy w₁ with ⟨hk', hj', w₂, hy, hspent'⟩ | ⟨hnot, reason, w₂, hy⟩
    · exact .inl ⟨(hspent.writes k').mp hk', (hspent.flushes j').mp hj', w₂, hy,
        hspent.trans hspent'⟩
    · refine .inr ⟨fun h => hnot ⟨?_, ?_⟩, reason, w₂, hy⟩
      · exact (hspent.writes k').mpr h.1
      · exact (hspent.flushes j').mpr h.2
  · rw [bind_of_error hx]
    refine .inr ⟨fun h => hnot ⟨?_, ?_⟩, reason, w₁, rfl⟩
    · exact h.1.mono (Nat.le_add_right k k')
    · exact h.2.mono (Nat.le_add_right j j')

theorem costs_print (text ending : String) : Costs 2 0 (text ++ ending) (print text ending) :=
  (costs_write text).bind (costs_write ending)

end Intcode.Writer
