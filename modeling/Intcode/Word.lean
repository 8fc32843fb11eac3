/-! # Cells and the signed 64-bit range

Cells, addresses and the relative base are unbounded integers. Sums and products are brought back to
64 bits: `wrap v` is the signed reading of the low 64 bits of `v`, so it lies in the range, leaves
every integer of the range alone and depends on `v` modulo `modulus` only. -/

namespace Intcode.Word

/-- The number of 64-bit words, `2 ^ 64`. -/
def modulus : Nat := 0x10000000000000000

/-- The integers that fit a signed 64-bit word: from `-2 ^ 63` up to `2 ^ 63`, that one excluded. -/
def InRange (v : Int) : Prop := -0x8000000000000000 ≤ v ∧ v < 0x8000000000000000

instance : DecidablePred InRange := fun _ => inferInstanceAs (Decidable (_ ∧ _))

/-- The signed reading of the low 64 bits of `v`. -/
def wrap (v : Int) : Int := (BitVec.ofInt 64 v).toInt

theorem wrap_eq_bmod (v : Int) : wrap v = v.bmod modulus := BitVec.toInt_ofInt v

theorem inRange_wrap (v : Int) : InRange (wrap v) := by
  rw [wrap_eq_bmod, InRange, Int.bmod, modulus]
  split <;> omega

theorem wrap_eq_self {v : Int} (h : InRange v) : wrap v = v := by
  rw [InRange] at h
  rw [wrap_eq_bmod, Int.bmod, modulus]
  split <;> omega

end Intcode.Word
