/-! # Memory

A memory is a row of cells from address 0. Looked at as a whole it is a tape without an end that
holds 0 past the last cell: `get` reads that tape, and growing does not change it. -/

namespace Intcode

/-- The cells that exist so far. -/
structure Memory where
  cells : Array Int
deriving DecidableEq, Repr, Inhabited

namespace Memory

def ofList (cells : List Int) : Memory := ⟨cells.toArray⟩

def toList (m : Memory) : List Int := m.cells.toList

def size (m : Memory) : Nat := m.cells.size

/-- The cell at `a`, or 0 where there is none. -/
def get (m : Memory) (a : Nat) : Int := m.cells.getD a 0

/-- The cell at `a`, if there is one. -/
def get? (m : Memory) (a : Int) : Option Int :=
  if a < 0 then none else m.cells[a.toNat]?

/-- Adds zeros at the end, just enough for a cell at `a`. -/
def grow (m : Memory) (a : Nat) : Memory :=
  ⟨m.cells ++ Array.replicate (a + 1 - m.cells.size) 0⟩

/-- Writes an existing cell. -/
def set (m : Memory) (a : Nat) (v : Int) : Memory := ⟨m.cells.setIfInBounds a v⟩

/-- The cells other than 0, with their addresses. -/
def nonzero (m : Memory) : List (Nat × Int) :=
  m.toList.zipIdx.filterMap fun (v, a) => if v = 0 then none else some (a, v)

theorem size_ofList (cells : List Int) : (ofList cells).size = cells.length := by
  simp [ofList, size]

theorem size_grow (m : Memory) (a : Nat) : (m.grow a).size = max m.size (a + 1) := by
  simp only [grow, size, Array.size_append, Array.size_replicate]; omega

theorem size_set (m : Memory) (a : Nat) (v : Int) : (m.set a v).size = m.size := by
  simp [set, size]

theorem get_grow (m : Memory) (a b : Nat) : (m.grow a).get b = m.get b := by
  simp only [grow, get, Array.getD_eq_getD_getElem?, Array.getElem?_append]
  split
  · rfl
  · rename_i h
    rw [Array.getElem?_eq_none (by omega : m.cells.size ≤ b), Array.getElem?_replicate]
    split <;> rfl

theorem get_set {m : Memory} {a : Nat} (h : a < m.size) (v : Int) (b : Nat) :
    (m.set a v).get b = if a = b then v else m.get b := by
  simp only [set, get, size, Array.getD_eq_getD_getElem?, Array.getElem?_setIfInBounds] at *
  split
  · rfl
  · rfl

theorem grow_of_lt {m : Memory} {a : Nat} (h : a < m.size) : m.grow a = m := by
  have : a + 1 - m.cells.size = 0 := by unfold size at h; omega
  simp [grow, this]

end Memory

end Intcode
