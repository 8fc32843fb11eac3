import Intcode.Proofs.EnoughFuel
import Intcode.Proofs.OrderingPositions
import Mathlib.Tactic.Choose

/-! # The best ordering is the first maximum

The orderings are tried one after the other, and one that is better than all before it is kept. So
the one that is left has the highest signal, and it is the first with that signal; and if one of
them fails, and all before it have not, the search fails as it does. -/

namespace Intcode.Ordering

/-! ### The running maximum -/

variable {ε α : Type} {run : Nat → List α → ExceptT ε Option Int} {v : List α → Int}
  {as o : List α} {os pre post : List (List α)} {b : Int × List α} {e : ε}

/-- Of these orderings `r` has the highest value, and is the first that has it. -/
structure FirstMaximum (v : List α → Int) (os pre : List (List α)) (r : List α)
    (post : List (List α)) : Prop where
  split : os = pre ++ r :: post
  before : ∀ p ∈ pre, v p < v r
  after : ∀ q ∈ post, v q ≤ v r

namespace FirstMaximum
variable {r x : List α}

theorem le (h : FirstMaximum v os pre r post) (hx : x ∈ os) : v x ≤ v r := by
  rw [h.split, List.mem_append, List.mem_cons] at hx
  rcases hx with hx | rfl | hx
  · exact Int.le_of_lt (h.before x hx)
  · exact Int.le_refl _
  · exact h.after x hx

/-- A lower one in front. -/
theorem cons (h : FirstMaximum v (x :: os) pre r post) (hlt : v o < v x) :
    FirstMaximum v (o :: x :: os) (o :: pre) r post := by
  have ho : v o < v r := Int.lt_of_lt_of_le hlt (h.le List.mem_cons_self)
  exact ⟨congrArg (o :: ·) h.split, List.forall_mem_cons.mpr ⟨ho, h.before⟩, h.after⟩

/-- One that is not higher behind the first. -/
theorem insert (h : FirstMaximum v (o :: os) pre r post) (hle : v x ≤ v o) :
    ∃ pre post, FirstMaximum v (o :: x :: os) pre r post := by
  obtain ⟨hsplit, hbefore, hafter⟩ := h
  cases pre with
  | nil =>
    cases hsplit
    exact ⟨[], x :: os, rfl, nofun, List.forall_mem_cons.mpr ⟨hle, hafter⟩⟩
  | cons p pre =>
    cases hsplit
    obtain ⟨ho, hpre⟩ := List.forall_mem_cons.mp hbefore
    have hx : v x < v r := Int.lt_of_le_of_lt hle ho
    exact ⟨o :: x :: pre, post, rfl,
      List.forall_mem_cons.mpr ⟨ho, List.forall_mem_cons.mpr ⟨hx, hpre⟩⟩, hafter⟩

end FirstMaximum

/-- The one that is kept is the first of the highest. -/
theorem foldl_better (v : List α → Int) (o : List α) (os : List (List α)) :
    ∃ pre r post, FirstMaximum v (o :: os) pre r post ∧
      os.foldl (fun best next => better best (v next, next)) (v o, o) = (v r, r) := by
  induction os generalizing o with
  | nil => exact ⟨[], o, [], ⟨rfl, nofun, nofun⟩, rfl⟩
  | cons x os ih =>
    rw [List.foldl_cons]
    by_cases hlt : v o < v x
    · have hbetter : better (v o, o) (v x, x) = (v x, x) := if_pos hlt
      obtain ⟨pre, r, post, hmax, hfold⟩ := ih x
      exact ⟨o :: pre, r, post, hmax.cons hlt, by rw [hbetter, hfold]⟩
    · have hbetter : better (v o, o) (v x, x) = (v o, o) := if_neg hlt
      obtain ⟨pre, r, post, hmax, hfold⟩ := ih o
      obtain ⟨pre, post, hmax⟩ := hmax.insert (Int.not_lt.mp hlt)
      exact ⟨pre, r, post, hmax, by rw [hbetter, hfold]⟩

/-! ### The search -/

theorem all_eq_cons (as : List α) : all as = as :: (all as).tail :=
  List.eq_cons_of_mem_head? (head?_all as)

/-- One more ordering is tried. -/
def consider (value : List α → ExceptT ε Option Int) (best : Int × List α) (next : List α) :
    ExceptT ε Option (Int × List α) := do
  return better best (← value next, next)

theorem best_eq (value : List α → ExceptT ε Option Int) (as : List α) :
    best value as = value as >>= fun first => (all as).tail.foldlM (consider value) (first, as) :=
  rfl

theorem comes_consider (h : Comes (fun fuel => run fuel o) (.ok (v o))) (b : Int × List α) :
    Comes (fun fuel => consider (run fuel) b o) (.ok (better b (v o, o))) :=
  h.bind (comes_pure _)

theorem comes_fold (h : ∀ o ∈ os, Comes (fun fuel => run fuel o) (.ok (v o)))
    (b : Int × List α) : Comes (fun fuel => os.foldlM (consider (run fuel)) b)
      (.ok (os.foldl (fun best next => better best (v next, next)) b)) := by
  induction os generalizing b with
  | nil => exact comes_pure b
  | cons o os ih =>
    simp only [List.foldlM_cons, List.foldl_cons]
    exact (comes_consider (h o List.mem_cons_self) b).bind
      (ih (fun p hp => h p (List.mem_cons_of_mem _ hp)) _)

theorem comes_fold_error (h : ∀ o ∈ pre, Comes (fun fuel => run fuel o) (.ok (v o)))
    (ho : Comes (fun fuel => run fuel o) (.error e)) (b : Int × List α) :
    Comes (fun fuel => (pre ++ o :: post).foldlM (consider (run fuel)) b) (.error e) := by
  have hfirst := comes_fold h b
  simp only [List.foldlM_append, List.foldlM_cons]
  exact hfirst.bind (Comes.bind_error (Comes.bind_error ho))

theorem comes_best (v : List α → Int)
    (h : ∀ o ∈ all as, Comes (fun fuel => run fuel o) (.ok (v o))) :
    ∃ pre r post, FirstMaximum v (all as) pre r post ∧
      Comes (fun fuel => best (run fuel) as) (.ok (v r, r)) := by
  obtain ⟨pre, r, post, hmax, hfold⟩ := foldl_better v as (all as).tail
  rw [← all_eq_cons] at hmax
  refine ⟨pre, r, post, hmax, ?_⟩
  rw [all_eq_cons, List.forall_mem_cons] at h
  rw [← hfold]
  simp only [best_eq]
  exact h.1.bind (comes_fold h.2 _)

theorem comes_best_error (hsplit : all as = pre ++ o :: post)
    (h : ∀ o ∈ pre, ∃ v, Comes (fun fuel => run fuel o) (.ok v))
    (ho : Comes (fun fuel => run fuel o) (.error e)) :
    Comes (fun fuel => best (run fuel) as) (.error e) := by
  choose! v h using h
  simp only [best_eq]
  rw [all_eq_cons] at hsplit
  cases pre with
  | nil =>
    obtain ⟨rfl, -⟩ := List.cons.inj hsplit
    exact ho.bind_error
  | cons p pre =>
    obtain ⟨rfl, htail⟩ := List.cons.inj hsplit
    rw [List.forall_mem_cons] at h
    rw [htail]
    exact h.1.bind (comes_fold_error h.2 ho _)

/-! ### By positions -/

section
variable {σ τ : List (Fin as.length)}

/-- If every ordering has a value, the search finds the earliest of the highest. -/
theorem exists_first_maximum (h : ∀ o, o.Perm as → ∃ v, Comes (fun fuel => run fuel o) (.ok v)) :
    ∃ s σ, σ.Perm (List.finRange as.length) ∧
      Comes (fun fuel => best (run fuel) as) (.ok (s, arrange as σ)) ∧
      Comes (fun fuel => run fuel (arrange as σ)) (.ok s) ∧
      (∀ o v, o.Perm as → Comes (fun fuel => run fuel o) (.ok v) → v ≤ s) ∧
      ∀ τ v, τ.Perm (List.finRange as.length) → τ < σ →
        Comes (fun fuel => run fuel (arrange as τ)) (.ok v) → v < s := by
  choose! v hv using h
  have hvalue : ∀ o u, o.Perm as → Comes (fun fuel => run fuel o) (.ok u) → u = v o :=
    fun o u ho hu => Except.ok.inj (hu.unique (hv o ho))
  obtain ⟨pre, r, post, hmax, hbest⟩ := comes_best v fun o ho => hv o (mem_all_iff.mp ho)
  obtain ⟨P, σ, Q, hpositions, hP, rfl⟩ : ∃ P σ Q,
      all (List.finRange as.length) = P ++ σ :: Q ∧ P.map (arrange as) = pre ∧
        arrange as σ = r := by
    have hsplit := hmax.split
    rw [all_eq_map_arrange, List.map_eq_append_iff] at hsplit
    obtain ⟨P, rest, hrest, hP, hQ⟩ := hsplit
    obtain ⟨σ, Q, rfl, hσ, -⟩ := List.map_eq_cons_iff.mp hQ
    exact ⟨P, σ, Q, hrest, hP, hσ⟩
  have hσ : σ.Perm (List.finRange as.length) :=
    mem_all_iff.mp (hpositions ▸ List.mem_append_right P List.mem_cons_self)
  refine ⟨v (arrange as σ), σ, hσ, hbest, hv _ (arrange_perm hσ), fun o u ho hu => ?_,
    fun τ u hτ hlt hu => ?_⟩
  · rw [hvalue o u ho hu]
    exact hmax.le (mem_all_iff.mpr ho)
  · rw [hvalue _ u (arrange_perm hτ) hu]
    exact hmax.before _ (hP ▸ List.mem_map_of_mem (mem_of_lt hpositions hτ hlt))

theorem exists_first_failure {β : Type} {x : β → Nat → ExceptT ε Option Int} {os : List β} {o : β}
    {e : ε} (h : ∀ p ∈ os, ∃ r, Comes (x p) r) (ho : Comes (x o) (.error e)) :
    ∃ pre p post f, os ++ [o] = pre ++ p :: post ∧ Comes (x p) (.error f) ∧
      ∀ q ∈ pre, ∃ v, Comes (x q) (.ok v) := by
  induction os with
  | nil => exact ⟨[], o, [], e, rfl, ho, nofun⟩
  | cons p os ih =>
    rw [List.forall_mem_cons] at h
    obtain ⟨⟨r, hp⟩, hos⟩ := h
    cases r with
    | error f => exact ⟨[], p, os ++ [o], f, rfl, hp, nofun⟩
    | ok v =>
      obtain ⟨pre, q, post, f, hsplit, hq, hpre⟩ := ih hos
      exact ⟨p :: pre, q, post, f, congrArg (p :: ·) hsplit, hq,
        List.forall_mem_cons.mpr ⟨⟨v, hp⟩, hpre⟩⟩

/-- If an ordering fails, the search fails with the earliest that does. -/
theorem exists_first_error {e : ε} (hσ : σ.Perm (List.finRange as.length))
    (hfail : Comes (fun fuel => run fuel (arrange as σ)) (.error e))
    (h : ∀ τ, τ.Perm (List.finRange as.length) → τ < σ →
      ∃ r, Comes (fun fuel => run fuel (arrange as τ)) r) :
    ∃ ρ f, ρ.Perm (List.finRange as.length) ∧
      Comes (fun fuel => run fuel (arrange as ρ)) (.error f) ∧
      (∀ τ, τ.Perm (List.finRange as.length) → τ < ρ →
        ∃ v, Comes (fun fuel => run fuel (arrange as τ)) (.ok v)) ∧
      Comes (fun fuel => best (run fuel) as) (.error f) := by
  obtain ⟨P, Q, hsplit⟩ := List.append_of_mem (mem_all_iff.mpr hσ)
  have hbefore : ∀ τ ∈ P, ∃ r, Comes (fun fuel => run fuel (arrange as τ)) r := fun τ hτ => by
    have hmem : τ ∈ all (List.finRange as.length) := hsplit ▸ List.mem_append_left _ hτ
    exact h τ (mem_all_iff.mp hmem) (lt_of_mem hsplit hτ)
  obtain ⟨pre, ρ, post, f, hfirst, hρ, hpre⟩ := exists_first_failure hbefore hfail
  have hpositions : all (List.finRange as.length) = pre ++ ρ :: (post ++ Q) := by
    rw [hsplit, ← List.singleton_append, ← List.append_assoc, hfirst, List.append_assoc,
      List.cons_append]
  have hmem : ρ ∈ all (List.finRange as.length) :=
    hpositions ▸ List.mem_append_right pre List.mem_cons_self
  refine ⟨ρ, f, mem_all_iff.mp hmem, hρ,
    fun τ hτ hlt => hpre τ (mem_of_lt hpositions hτ hlt), ?_⟩
  have hall : all as = pre.map (arrange as) ++ arrange as ρ :: (post ++ Q).map (arrange as) := by
    rw [all_eq_map_arrange, hpositions, List.map_append, List.map_cons]
  exact comes_best_error hall (List.forall_mem_map.mpr hpre) hρ

end

/-! ### Relays and rings -/

variable {image : List Int} {run : Nat → List Int → ExceptT ε Option Int}

/-- What a list of phases is tried with: a relay or a ring of machines with this program. -/
inductive Runner (image : List Int) :
    {ε : Type} → (Nat → List Int → ExceptT ε Option Int) → Prop
  | relay : Runner image fun fuel => Relay.signal fuel image 0
  | ring : Runner image fun fuel => Network.feedback fuel image 0

theorem Runner.comes (h : Runner image run) {fuel : Nat} {o : List Int} {r : Except ε Int}
    (hr : (run fuel o).run = some r) : Comes (fun fuel => run fuel o) r := by
  cases h with
  | relay => exact Relay.comes_of_signal hr
  | ring => exact Network.comes_of_feedback hr

/-- The search for the best ordering of some phases, in a relay or in a ring. What either comes to at
some fuel it comes to at any more. If it gives a signal for every ordering, the search gives the
highest and the lexicographically first ordering of the positions that has it. If it fails on an
ordering and comes to an end on all before, the search fails as the first one that does. -/
theorem best_is_first_maximum (h : Runner image run) (phases : List Int) :
    (∀ fuel o r, (run fuel o).run = some r → Comes (fun fuel => run fuel o) r) ∧
    ((∀ o, o.Perm phases → ∃ v, Comes (fun fuel => run fuel o) (.ok v)) →
      ∃ s σ, σ.Perm (List.finRange phases.length) ∧ (arrange phases σ).Perm phases ∧
        Comes (fun fuel => best (run fuel) phases) (.ok (s, arrange phases σ)) ∧
        Comes (fun fuel => run fuel (arrange phases σ)) (.ok s) ∧
        (∀ o v, o.Perm phases → Comes (fun fuel => run fuel o) (.ok v) → v ≤ s) ∧
        ∀ τ v, τ.Perm (List.finRange phases.length) → τ < σ →
          Comes (fun fuel => run fuel (arrange phases τ)) (.ok v) → v < s) ∧
    ∀ σ e, σ.Perm (List.finRange phases.length) →
      Comes (fun fuel => run fuel (arrange phases σ)) (.error e) →
      (∀ τ, τ.Perm (List.finRange phases.length) → τ < σ →
        ∃ r, Comes (fun fuel => run fuel (arrange phases τ)) r) →
      ∃ ρ f, ρ.Perm (List.finRange phases.length) ∧
        Comes (fun fuel => run fuel (arrange phases ρ)) (.error f) ∧
        (∀ τ, τ.Perm (List.finRange phases.length) → τ < ρ →
          ∃ v, Comes (fun fuel => run fuel (arrange phases τ)) (.ok v)) ∧
        Comes (fun fuel => best (run fuel) phases) (.error f) := by
  refine ⟨fun fuel o r hr => h.comes hr, fun hall => ?_,
    fun σ e hσ hfail hbefore => exists_first_error hσ hfail hbefore⟩
  obtain ⟨s, σ, hσ, hbest, hs, hmax, hfirst⟩ := exists_first_maximum hall
  exact ⟨s, σ, hσ, arrange_perm hσ, hbest, hs, hmax, hfirst⟩

/-- A relay whose machines ask whether the signal is below the phase: two orderings of three phases
share the highest signal. A machine that counts on if the signal is its phase, and fails otherwise,
succeeds on the first ordering of two phases and fails on the second. -/
theorem best_is_first_maximum_tied :
    (∃ s σ, σ.Perm (List.finRange [1, 1, 0].length) ∧
      Comes (fun fuel => best (Relay.signal fuel [3, 11, 3, 12, 7, 12, 11, 11, 4, 11, 99] 0)
        [1, 1, 0]) (.ok (s, arrange [1, 1, 0] σ)) ∧ 1 ≤ s) ∧
    let run := fun fuel =>
      Relay.signal fuel [3, 18, 3, 19, 8, 18, 19, 18, 1006, 18, 20, 101, 1, 19, 19, 4, 19, 99] 0
    Comes (fun fuel => run fuel [0, 1]) (.ok 2) ∧
      ∃ (ρ : List (Fin 2)) (f : Fault), ρ.Perm (List.finRange 2) ∧
        Comes (fun fuel => run fuel (arrange [0, 1] ρ)) (.error f) ∧
        (∀ τ : List (Fin 2), τ.Perm (List.finRange 2) → τ < ρ →
          ∃ v, Comes (fun fuel => run fuel (arrange [0, 1] τ)) (.ok v)) ∧
        Comes (fun fuel => best (run fuel) [0, 1]) (.error f) := by
  have hsignals : ∀ o ∈ all [1, 1, 0],
      (Relay.signal 5 [3, 11, 3, 12, 7, 12, 11, 11, 4, 11, 99] 0 o).run =
        some (.ok (o.foldl (fun s p => if s < p then 1 else 0) 0)) := by
    decide +kernel
  have hcomes := fun o ho => Runner.relay.comes (hsignals o (mem_all_iff.mpr ho))
  obtain ⟨s, σ, hσ, -, hbest, -, hmax, -⟩ :=
    (best_is_first_maximum .relay [1, 1, 0]).2.1 fun o ho => ⟨_, hcomes o ho⟩
  refine ⟨⟨s, σ, hσ, hbest, hmax [1, 0, 1] 1 (by decide) (hcomes [1, 0, 1] (by decide))⟩, ?_⟩
  intro run
  have hcounts : (run 7 [0, 1]).run = some (.ok 2) := by decide +kernel
  have hfails : (run 7 [1, 0]).run = some (.error (.decode (.unknownOpcode 0 (some 20)))) := by
    decide +kernel
  have hends : ∀ o ∈ all [0, 1], (run 7 o).run.isSome := by decide +kernel
  have hbefore : ∀ τ : List (Fin 2), τ.Perm (List.finRange 2) → τ < [1, 0] →
      ∃ r, Comes (fun fuel => run fuel (arrange [0, 1] τ)) r := by
    intro τ hτ _
    have ho : arrange [(0 : Int), 1] τ ∈ all [0, 1] := mem_all_iff.mpr (arrange_perm hτ)
    obtain ⟨r, hr⟩ := Option.isSome_iff_exists.mp (hends _ ho)
    exact ⟨r, Runner.relay.comes hr⟩
  refine ⟨Runner.relay.comes hcounts, ?_⟩
  exact (best_is_first_maximum .relay [0, 1]).2.2 [1, 0] _ (by decide) (Runner.relay.comes hfails)
    hbefore

end Intcode.Ordering
