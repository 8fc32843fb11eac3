/-! # The best ordering

All orderings of a list, by position: those that keep the first element in front come first, and so
on down the list. Among them the first with the highest value is the best one. Equal elements at
different positions count as different. -/

namespace Intcode.Ordering

/-- Each element with the rest of the list, in order. -/
def picks {α : Type} : List α → List (α × List α)
  | [] => []
  | a :: as => (a, as) :: (picks as).map fun (b, bs) => (b, a :: bs)

/-- The ways to take `n` elements one after the other. -/
def arrangements {α : Type} : Nat → List α → List (List α)
  | 0, _ => [[]]
  | n + 1, as => (picks as).flatMap fun (a, rest) => (arrangements n rest).map (a :: ·)

/-- Every ordering of a list, the list itself first. -/
def all {α : Type} (as : List α) : List (List α) := arrangements as.length as

/-- Keeps the better of two valued orderings, the earlier one if they are equal. -/
def better {α : Type} (best next : Int × List α) : Int × List α :=
  if best.1 < next.1 then next else best

/-- The highest value over all orderings, and the first ordering that has it. -/
def best {m : Type → Type} [Monad m] {α : Type} (value : List α → m Int) (as : List α) :
    m (Int × List α) := do
  let first ← value as
  (all as).tail.foldlM (fun best next => return better best (← value next, next)) (first, as)

theorem head?_all {α : Type} (as : List α) : (all as).head? = some as := by
  unfold all
  induction as with
  | nil => rfl
  | cons a as ih =>
    simp [arrangements, picks, List.head?_append, List.head?_map, ih]

end Intcode.Ordering
