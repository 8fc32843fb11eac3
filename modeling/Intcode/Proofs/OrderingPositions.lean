import Intcode.Ordering
import Mathlib.Data.List.FinRange

/-! # Orderings by their positions

The orderings of a list are those of its positions, with the elements put in: what is at a position
plays no part in the enumeration. The orderings of the positions come in lexicographic order, and
each is met once; so do those of any list, where equal elements at different positions count as
different. -/

namespace Intcode.Ordering
variable {α β : Type} {a : α} {as rest o : List α} {n : Nat}

/-! ### Elements put in -/

theorem picks_map (f : α → β) (as : List α) :
    picks (as.map f) = (picks as).map fun (a, rest) => (f a, rest.map f) := by
  induction as with
  | nil => rfl
  | cons a as ih =>
    rw [List.map_cons, picks, picks, ih, List.map_cons, List.map_map, List.map_map]
    rfl

theorem arrangements_map (f : α → β) (n : Nat) (as : List α) :
    arrangements n (as.map f) = (arrangements n as).map (List.map f) := by
  induction n generalizing as with
  | zero => rfl
  | succ n ih =>
    simp only [arrangements, picks_map, List.flatMap_map, List.map_flatMap, ih, List.map_map]
    rfl

theorem all_map (f : α → β) (as : List α) : all (as.map f) = (all as).map (List.map f) := by
  rw [all, List.length_map, arrangements_map, all]

/-- The list in which the elements of `as` stand at these positions one after the other. -/
def arrange (as : List α) (σ : List (Fin as.length)) : List α := σ.map as.get

theorem all_eq_map_arrange (as : List α) :
    all as = (all (List.finRange as.length)).map (arrange as) := by
  have h : all ((List.finRange as.length).map as.get) = _ := all_map as.get _
  rwa [List.map_get_finRange] at h

/-! ### Every ordering is met -/

theorem mem_picks_iff : (a, rest) ∈ picks as ↔ ∃ l r, as = l ++ a :: r ∧ rest = l ++ r := by
  induction as generalizing rest with
  | nil => simp [picks]
  | cons b as ih =>
    rw [picks, List.mem_cons, List.mem_map]
    constructor
    · rintro (h | ⟨⟨c, cs⟩, hpick, h⟩)
      · cases h
        exact ⟨[], as, rfl, rfl⟩
      · cases h
        obtain ⟨l, r, rfl, rfl⟩ := ih.mp hpick
        exact ⟨b :: l, r, rfl, rfl⟩
    · rintro ⟨l, r, h, rfl⟩
      cases l with
      | nil =>
        cases h
        exact .inl rfl
      | cons c l =>
        cases h
        exact .inr ⟨(a, l ++ r), ih.mpr ⟨l, r, rfl, rfl⟩, rfl⟩

theorem length_of_mem_picks (h : (a, rest) ∈ picks as) : as.length = rest.length + 1 := by
  obtain ⟨l, r, rfl, rfl⟩ := mem_picks_iff.mp h
  simp only [List.length_append, List.length_cons]
  omega

theorem mem_arrangements_iff (h : as.length = n) : o ∈ arrangements n as ↔ o.Perm as := by
  induction n generalizing as o with
  | zero =>
    obtain rfl := List.length_eq_zero_iff.mp h
    simp [arrangements]
  | succ n ih =>
    rw [arrangements, List.mem_flatMap]
    constructor
    · rintro ⟨⟨a, rest⟩, hpick, ho⟩
      obtain ⟨os, hos, rfl⟩ := List.mem_map.mp ho
      have hlength := length_of_mem_picks hpick
      obtain ⟨l, r, rfl, rfl⟩ := mem_picks_iff.mp hpick
      have hperm := (ih (by omega)).mp hos
      exact (hperm.cons a).trans List.perm_middle.symm
    · intro ho
      cases o with
      | nil => simp [ho.symm.eq_nil] at h
      | cons a os =>
        obtain ⟨l, r, rfl⟩ := List.append_of_mem (ho.mem_iff.mp List.mem_cons_self)
        have hperm : os.Perm (l ++ r) := (ho.trans List.perm_middle).cons_inv
        have hlength : (l ++ r).length = n := by
          simp only [List.length_append, List.length_cons] at h ⊢
          omega
        exact ⟨(a, l ++ r), mem_picks_iff.mpr ⟨l, r, rfl, rfl⟩,
          List.mem_map.mpr ⟨os, (ih hlength).mpr hperm, rfl⟩⟩

/-- The orderings of a list are its permutations. -/
theorem mem_all_iff : o ∈ all as ↔ o.Perm as := mem_arrangements_iff rfl

/-! ### Their order -/

theorem map_fst_picks (as : List α) : (picks as).map Prod.fst = as := by
  induction as with
  | nil => rfl
  | cons a as ih =>
    rw [picks, List.map_cons, List.map_map]
    exact congrArg (a :: ·) ih

theorem sublist_of_mem_picks (h : (a, rest) ∈ picks as) : rest.Sublist as := by
  obtain ⟨l, r, rfl, rfl⟩ := mem_picks_iff.mp h
  exact (List.Sublist.refl l).append (List.sublist_cons_self a r)

theorem sorted_arrangements [LT α] (h : as.Pairwise (· < ·)) (n : Nat) :
    (arrangements n as).Pairwise (List.Lex (· < ·)) := by
  induction n generalizing as with
  | zero => exact List.pairwise_singleton _ _
  | succ n ih =>
    rw [arrangements, List.pairwise_flatMap]
    constructor
    · rintro ⟨a, rest⟩ hpick
      rw [List.pairwise_map]
      exact (ih (h.sublist (sublist_of_mem_picks hpick))).imp fun hlex => .cons hlex
    · rw [← map_fst_picks as, List.pairwise_map] at h
      refine h.imp fun {p q} hpq x hx y hy => ?_
      obtain ⟨os, -, rfl⟩ := List.mem_map.mp hx
      obtain ⟨us, -, rfl⟩ := List.mem_map.mp hy
      exact .rel hpq

/-- The orderings of an ascending list come in lexicographic order. -/
theorem sorted_all [LT α] (h : as.Pairwise (· < ·)) :
    (all as).Pairwise (List.Lex (· < ·)) :=
  sorted_arrangements h as.length

/-! ### Positions -/

section
variable {σ τ : List (Fin as.length)} {P Q : List (List (Fin as.length))}

theorem arrange_perm (h : σ.Perm (List.finRange as.length)) : (arrange as σ).Perm as := by
  have hmap : (σ.map as.get).Perm ((List.finRange as.length).map as.get) := h.map as.get
  rwa [List.map_get_finRange] at hmap

theorem sorted_positions (h : all (List.finRange as.length) = P ++ σ :: Q) :
    (P ++ σ :: Q).Pairwise (· < ·) := by
  rw [← h]
  exact sorted_all (List.pairwise_lt_finRange _)

/-- Of two orderings of the positions the lesser one comes first. -/
theorem mem_of_lt (h : all (List.finRange as.length) = P ++ σ :: Q)
    (hτ : τ.Perm (List.finRange as.length)) (hlt : τ < σ) : τ ∈ P := by
  have hmem : τ ∈ P ++ σ :: Q := h ▸ mem_all_iff.mpr hτ
  rw [List.mem_append, List.mem_cons] at hmem
  rcases hmem with hmem | rfl | hmem
  · exact hmem
  · exact absurd hlt (List.lt_irrefl _)
  · have hback := (List.pairwise_append.mp (sorted_positions h)).2.1
    exact absurd hlt (List.lt_asymm (List.rel_of_pairwise_cons hback hmem))

theorem lt_of_mem (h : all (List.finRange as.length) = P ++ σ :: Q) (hτ : τ ∈ P) : τ < σ :=
  (List.pairwise_append.mp (sorted_positions h)).2.2 τ hτ σ List.mem_cons_self

end

end Intcode.Ordering
