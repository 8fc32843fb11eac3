/-! # Actions that can fail

How a sequence of two actions ends, and three properties that go through `bind`, so that it is enough
to show them of the smallest actions. Simulation through a view, `Simulates view x y`: whatever the
action `x` does on a state, `y` does on the view of that state. The two end alike, with the same
value or the same fault, and again the state of `y` is the view of the state of `x`. And invariance,
`Ensures P Q E x`: if `P` holds of the state before `x`, it holds of the state afterwards too, even
if `x` fails, and then the value satisfies `Q` or the fault satisfies `E`. And `Relates R Q r u`: of
two runs from related states, both end with values that `Q` relates, or both with the same fault,
and `R` relates the states afterwards. -/

namespace Intcode

section
variable {ε σ τ α β γ δ : Type}

instance decidableEqResult [DecidableEq ε] [DecidableEq σ] [DecidableEq α] :
    DecidableEq (EStateM.Result ε σ α)
  | .ok a s, .ok b t => decidable_of_iff (a = b ∧ s = t) (by simp)
  | .error e s, .error f t => decidable_of_iff (e = f ∧ s = t) (by simp)
  | .ok .., .error .. => .isFalse nofun
  | .error .., .ok .. => .isFalse nofun

section
variable {x : EStateM ε σ α} {f : α → EStateM ε σ β} {s s' : σ}

theorem bind_of_ok {a : α} (h : x s = .ok a s') : (x >>= f) s = f a s' := by
  change EStateM.bind x f s = _
  simp only [EStateM.bind, h]

theorem bind_of_error {e : ε} (h : x s = .error e s') : (x >>= f) s = .error e s' := by
  change EStateM.bind x f s = _
  simp only [EStateM.bind, h]

theorem bind_eq_ok {b : β} (h : (x >>= f) s = .ok b s') :
    ∃ a s₁, x s = .ok a s₁ ∧ f a s₁ = .ok b s' := by
  cases hx : x s with
  | ok a s₁ => exact ⟨a, s₁, rfl, (bind_of_ok hx).symm.trans h⟩
  | error e s₁ => rw [bind_of_error hx] at h; cases h

theorem bind_eq_error {e : ε} (h : (x >>= f) s = .error e s') :
    x s = .error e s' ∨ ∃ a s₁, x s = .ok a s₁ ∧ f a s₁ = .error e s' := by
  cases hx : x s with
  | ok a s₁ => exact .inr ⟨a, s₁, rfl, (bind_of_ok hx).symm.trans h⟩
  | error e' s₁ =>
    rw [bind_of_error hx] at h
    cases h
    exact .inl rfl

/-- The rest of an action gets the state twice: as a value and to go on from. -/
theorem get_bind (g : σ → EStateM ε σ β) (s : σ) : (get >>= g) s = g s s := rfl

theorem discard_bind (x : EStateM ε σ α) (f : PUnit → EStateM ε σ β) :
    (discard x >>= f) = x >>= fun _ => f ⟨⟩ :=
  bind_map_left _ _ _

end

/-- A result with its state replaced by the view of it. -/
def viewResult (view : σ → τ) : EStateM.Result ε σ α → EStateM.Result ε τ α
  | .ok a s => .ok a (view s)
  | .error e s => .error e (view s)

def Simulates (view : σ → τ) (x : EStateM ε σ α) (y : EStateM ε τ α) : Prop :=
  ∀ s, viewResult view (x s) = y (view s)

namespace Simulates
variable {view : σ → τ}

theorem ret (a : α) : Simulates view (pure a : EStateM ε σ α) (pure a) := fun _ => rfl

theorem fail (e : ε) : Simulates view (throw e : EStateM ε σ α) (throw e) := fun _ => rfl

theorem bind {x : EStateM ε σ α} {y : EStateM ε τ α} {f : α → EStateM ε σ β} {g : α → EStateM ε τ β}
    (h : Simulates view x y) (hf : ∀ a, Simulates view (f a) (g a)) :
    Simulates view (x >>= f) (y >>= g) := by
  intro s
  have hs := h s
  cases hx : x s with
  | ok a s' =>
    rw [hx] at hs
    rw [bind_of_ok hx, bind_of_ok hs.symm]
    exact hf a s'
  | error e s' =>
    rw [hx] at hs
    rw [bind_of_error hx, bind_of_error hs.symm]
    rfl

end Simulates

/-- The state afterwards, whether the action has failed or not. -/
def finalState : EStateM.Result ε σ α → σ
  | .ok _ s => s
  | .error _ s => s

/-- What an action gives, by its value or its fault. -/
def Yields (Q : α → Prop) (E : ε → Prop) : EStateM.Result ε σ α → Prop
  | .ok a _ => Q a
  | .error e _ => E e

def Ensures (P : σ → Prop) (Q : α → Prop) (E : ε → Prop) (x : EStateM ε σ α) : Prop :=
  ∀ s, P s → P (finalState (x s)) ∧ Yields Q E (x s)

namespace Ensures
variable {P : σ → Prop} {Q Q' : α → Prop} {R : β → Prop} {E E' : ε → Prop}

theorem ret {a : α} (h : Q a) : Ensures P Q E (pure a : EStateM ε σ α) := fun _ hs => ⟨hs, h⟩

theorem fail {e : ε} (h : E e) : Ensures P Q E (throw e : EStateM ε σ α) := fun _ hs => ⟨hs, h⟩

theorem mono {x : EStateM ε σ α} (h : Ensures P Q E x) (hQ : ∀ a, Q a → Q' a)
    (hE : ∀ e, E e → E' e) : Ensures P Q' E' x := by
  intro s hs
  obtain ⟨hP, hY⟩ := h s hs
  refine ⟨hP, ?_⟩
  cases hx : x s with
  | ok a s' => rw [hx] at hY; exact hQ a hY
  | error e s' => rw [hx] at hY; exact hE e hY

theorem bind {x : EStateM ε σ α} {f : α → EStateM ε σ β} (h : Ensures P Q E x)
    (hf : ∀ a, Q a → Ensures P R E (f a)) : Ensures P R E (x >>= f) := by
  intro s hs
  obtain ⟨hP, hY⟩ := h s hs
  cases hx : x s with
  | ok a s' =>
    rw [hx] at hP hY
    rw [bind_of_ok hx]
    exact hf a hY s' hP
  | error e s' =>
    rw [hx] at hP hY
    rw [bind_of_error hx]
    exact ⟨hP, hY⟩

/-- An action on a part of a state, which `put` puts back. -/
theorem part {S : τ → Prop} {x : EStateM ε σ α} {s : σ} {put : σ → τ} (h : Ensures P Q E x)
    (hs : P s) (hput : ∀ s, P s → S (put s)) :
    S (finalState (viewResult put (x s))) ∧ Yields Q E (viewResult put (x s)) := by
  obtain ⟨hP, hY⟩ := h s hs
  cases hx : x s with
  | ok a s' | error e s' =>
    rw [hx] at hP hY
    exact ⟨hput s' hP, hY⟩

/-- What the action reads of the state may be used in the rest of it. -/
theorem get_bind {f : σ → EStateM ε σ β} (h : ∀ s, P s → Ensures P R E (f s)) :
    Ensures P R E (get >>= f) := fun s hs => h s hs s hs

theorem modify_bind {g : σ → σ} {f : PUnit → EStateM ε σ β} (hg : ∀ s, P s → P (g s))
    (hf : Ensures P R E (f ⟨⟩)) : Ensures P R E (modify g >>= f) := fun s hs => hf (g s) (hg s hs)

theorem of_ok {x : EStateM ε σ α} {s s' : σ} {a : α} (h : Ensures P Q E x) (hs : P s)
    (hx : x s = .ok a s') : P s' ∧ Q a := by
  have := h s hs
  rwa [hx] at this

theorem of_error {x : EStateM ε σ α} {s s' : σ} {e : ε} (h : Ensures P Q E x) (hs : P s)
    (hx : x s = .error e s') : P s' ∧ E e := by
  have := h s hs
  rwa [hx] at this

end Ensures

def Relates (R : σ → τ → Prop) (Q : α → β → Prop) :
    EStateM.Result ε σ α → EStateM.Result ε τ β → Prop
  | .ok a s, .ok b t => Q a b ∧ R s t
  | .error e s, .error f t => e = f ∧ R s t
  | .ok .., .error .. | .error .., .ok .. => False

namespace Relates
variable {R : σ → τ → Prop} {Q : α → β → Prop} {Q' : γ → δ → Prop} {r : EStateM.Result ε σ α}
  {u : EStateM.Result ε τ β}

theorem final (h : Relates R Q r u) : R (finalState r) (finalState u) := by
  cases r <;> cases u
  case ok.ok | error.error => exact h.2
  case ok.error | error.ok => exact h.elim

theorem mono {S : σ → τ → Prop} (h : Relates R Q r u) (hR : ∀ s t, R s t → S s t) :
    Relates S Q r u := by
  cases r <;> cases u
  case ok.ok | error.error => exact ⟨h.1, hR _ _ h.2⟩
  case ok.error | error.ok => exact h.elim

/-- The rest need be looked at only from a state that the first action has come to. -/
theorem bind {x : EStateM ε σ α} {y : EStateM ε τ β} {f : α → EStateM ε σ γ}
    {g : β → EStateM ε τ δ} {s : σ} {t : τ} (h : Relates R Q (x s) (y t))
    (hfg : ∀ a b s' t', x s = .ok a s' → Q a b → R s' t' → Relates R Q' (f a s') (g b t')) :
    Relates R Q' ((x >>= f) s) ((y >>= g) t) := by
  cases hx : x s with
  | ok a s' =>
    cases hy : y t with
    | ok b t' =>
      rw [hx, hy] at h
      rw [bind_of_ok hx, bind_of_ok hy]
      exact hfg a b s' t' hx h.1 h.2
    | error f t' =>
      rw [hx, hy] at h
      exact h.elim
  | error e s' =>
    cases hy : y t with
    | ok b t' =>
      rw [hx, hy] at h
      exact h.elim
    | error f t' =>
      rw [hx, hy] at h
      rw [bind_of_error hx, bind_of_error hy]
      exact h

end Relates

/-- What runs related to the view of an action runs related to the action. -/
theorem Simulates.relates {ρ : Type} {view : ρ → σ} {x : EStateM ε ρ α} {y : EStateM ε σ α}
    {R : σ → τ → Prop} {Q : α → β → Prop} {s : ρ} {u : EStateM.Result ε τ β}
    (hxy : Simulates view x y) (h : Relates R Q (y (view s)) u) :
    Relates (fun s t => R (view s) t) Q (x s) u := by
  rw [← hxy s] at h
  cases hx : x s <;> cases u <;> rw [hx] at h <;> exact h

end

end Intcode
