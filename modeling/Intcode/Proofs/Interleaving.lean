/-! # Interleavings of parties that commute

Several parties take steps on a common state, one at a time, in any order. Where the steps of
different parties commute, as far as `Same` can tell, and no party stops another one, all schedules
amount to the same: a run that stops cannot be avoided, only reordered. The key is
`Commutes.moveToFront`: a party that is ready takes its next step in every run that stops, and might
as well take it first. -/

namespace Intcode

/-- Who can take a step, and what the step does. -/
structure Interleaving (ι σ : Type) where
  Ready : σ → ι → Prop
  step : ι → σ → σ

namespace Interleaving
variable {ι σ : Type}

/-- From the first state to the last one the parties of the schedule step in turn, each when it is
ready. -/
def Run (S : Interleaving ι σ) : σ → List ι → σ → Prop
  | s, [], t => s = t
  | s, i :: is, t => S.Ready s i ∧ S.Run (S.step i s) is t

instance instDecidableRun (S : Interleaving ι σ) [∀ s i, Decidable (S.Ready s i)] [DecidableEq σ] :
    ∀ s is t, Decidable (S.Run s is t)
  | s, [], t => inferInstanceAs (Decidable (s = t))
  | s, i :: is, t =>
    have := instDecidableRun S (S.step i s) is t
    inferInstanceAs (Decidable (S.Ready s i ∧ S.Run (S.step i s) is t))

def Stopped (S : Interleaving ι σ) (s : σ) : Prop := ∀ i, ¬ S.Ready s i

/-- What the steps of a schedule weigh together. -/
def total (S : Interleaving ι σ) (weight : σ → ι → Nat) : σ → List ι → Nat
  | _, [] => 0
  | s, i :: is => weight s i + S.total weight (S.step i s) is

variable {S : Interleaving ι σ}

theorem Run.append {s t u : σ} {is js : List ι} (h : S.Run s is t) (h' : S.Run t js u) :
    S.Run s (is ++ js) u := by
  induction is generalizing s with
  | nil => cases h; exact h'
  | cons i is ih => exact ⟨h.1, ih h.2⟩

/-- What every step keeps holds after every run. -/
theorem Run.preserves {Inv : σ → Prop} (hstep : ∀ s i, Inv s → S.Ready s i → Inv (S.step i s))
    {s t : σ} {is : List ι} (hs : Inv s) (h : S.Run s is t) : Inv t := by
  induction is generalizing s with
  | nil => cases h; exact hs
  | cons i is ih => exact ih (hstep s i hs h.1) h.2

/-- On states that satisfy `Inv` the steps of different parties commute up to `Same`, and the step
of one party leaves another one as ready, with a step of the same weight. -/
structure Commutes (S : Interleaving ι σ) (Inv : σ → Prop) (Same : σ → σ → Prop)
    (weight : σ → ι → Nat) : Prop where
  same : Equivalence Same
  inv_step : ∀ {s i}, Inv s → S.Ready s i → Inv (S.step i s)
  inv_same : ∀ {s t}, Same s t → Inv s → Inv t
  ready_same : ∀ {s t i}, Same s t → S.Ready s i → S.Ready t i
  step_same : ∀ {s t i}, Inv s → S.Ready s i → Same s t → Same (S.step i s) (S.step i t)
  weight_same : ∀ {s t} i, Same s t → weight s i = weight t i
  ready_step : ∀ {s i j}, Inv s → i ≠ j → S.Ready s i → S.Ready s j → S.Ready (S.step i s) j
  weight_step : ∀ {s i j}, Inv s → i ≠ j → S.Ready s i → weight (S.step i s) j = weight s j
  swap : ∀ {s i j}, Inv s → i ≠ j → S.Ready s i → S.Ready s j →
    Same (S.step j (S.step i s)) (S.step i (S.step j s))

namespace Commutes
variable {Inv : σ → Prop} {Same : σ → σ → Prop} {weight : σ → ι → Nat} {s s' t u : σ}
  {is js : List ι} {i j : ι}

theorem run_same (h : Commutes S Inv Same weight) (hs : Inv s) (hss : Same s s')
    (hrun : S.Run s is t) :
    ∃ t', S.Run s' is t' ∧ Same t t' ∧ S.total weight s' is = S.total weight s is := by
  induction is generalizing s s' with
  | nil => cases hrun; exact ⟨s', rfl, hss, rfl⟩
  | cons i is ih =>
    obtain ⟨hi, hrest⟩ := hrun
    obtain ⟨t', hrun', ht, hw⟩ := ih (h.inv_step hs hi) (h.step_same hs hi hss) hrest
    refine ⟨t', ⟨h.ready_same hss hi, hrun'⟩, ht, ?_⟩
    show weight s' i + _ = weight s i + _
    rw [hw, h.weight_same i hss]

/-- A party that is ready steps in every run that stops; its first step can be taken first. -/
theorem moveToFront (h : Commutes S Inv Same weight) (hs : Inv s) (hrun : S.Run s is t)
    (hstop : S.Stopped t) (hj : S.Ready s j) :
    ∃ is' t', (j :: is').Perm is ∧ S.Run (S.step j s) is' t' ∧ Same t t' ∧
      weight s j + S.total weight (S.step j s) is' = S.total weight s is := by
  induction is generalizing s with
  | nil => cases hrun; exact absurd hj (hstop j)
  | cons i is ih =>
    obtain ⟨hi, hrest⟩ := hrun
    by_cases hij : i = j
    · subst hij
      exact ⟨is, t, .refl _, hrest, h.same.refl t, rfl⟩
    have hj' := h.ready_step hs hij hi hj
    obtain ⟨is', t', hperm, hrun', ht, hw⟩ := ih (h.inv_step hs hi) hrest hj'
    -- the run goes on behind both steps, so it also does when they are swapped
    obtain ⟨t'', hrun'', ht', hw'⟩ := h.run_same (h.inv_step (h.inv_step hs hi) hj')
      (h.swap hs hij hi hj) hrun'
    refine ⟨i :: is', t'', ?_, ⟨h.ready_step hs (Ne.symm hij) hj hi, hrun''⟩,
      h.same.trans ht ht', ?_⟩
    · exact (List.Perm.swap i j is').trans (hperm.cons i)
    · have h1 := h.weight_step hs hij hi
      have h2 := h.weight_step hs (Ne.symm hij) hj
      show weight s j + (weight (S.step j s) i + _) = weight s i + _
      omega

/-- Whatever schedule is followed for a while, it can be completed to a reordering of a run that
stops, and then ends in the same state. -/
theorem completes (h : Commutes S Inv Same weight) (hs : Inv s) (hrun : S.Run s is t)
    (hstop : S.Stopped t) (hjs : S.Run s js u) :
    ∃ rest t', (js ++ rest).Perm is ∧ S.Run u rest t' ∧ Same t t' ∧
      S.total weight s js + S.total weight u rest = S.total weight s is := by
  induction js generalizing s is t with
  | nil => cases hjs; exact ⟨is, t, .refl _, hrun, h.same.refl t, Nat.zero_add _⟩
  | cons j js ih =>
    obtain ⟨hj, hjs⟩ := hjs
    obtain ⟨is', t₁, hperm, hrun₁, ht, hw⟩ := h.moveToFront hs hrun hstop hj
    have hstop₁ : S.Stopped t₁ := fun i hi => hstop i (h.ready_same (h.same.symm ht) hi)
    obtain ⟨rest, t', hperm', hrun', ht', hw'⟩ := ih (h.inv_step hs hj) hrun₁ hstop₁ hjs
    refine ⟨rest, t', (hperm'.cons j).trans hperm, hrun', h.same.trans ht ht', ?_⟩
    show weight s j + S.total weight (S.step j s) js + _ = _
    omega

/-- A schedule that has stopped too has taken the same steps in another order. -/
theorem confluent (h : Commutes S Inv Same weight) (hs : Inv s) (hrun : S.Run s is t)
    (hstop : S.Stopped t) (hjs : S.Run s js u) (hstop' : S.Stopped u) :
    js.Perm is ∧ Same t u ∧ S.total weight s js = S.total weight s is := by
  obtain ⟨rest, t', hperm, hrun', ht, hw⟩ := h.completes hs hrun hstop hjs
  cases rest with
  | nil =>
    cases hrun'
    exact ⟨by simpa using hperm, ht, hw⟩
  | cons i rest => exact absurd hrun'.1 (hstop' i)

/-- No schedule takes more steps than one that stops, and one that has not stopped can go on. -/
theorem length_le (h : Commutes S Inv Same weight) (hs : Inv s) (hrun : S.Run s is t)
    (hstop : S.Stopped t) (hjs : S.Run s js u) : js.length ≤ is.length := by
  obtain ⟨rest, t', hperm, -⟩ := h.completes hs hrun hstop hjs
  have := hperm.length_eq
  rw [List.length_append] at this
  omega

end Commutes

end Interleaving

end Intcode
