import Mathlib.Data.Int.Bitwise
import Mathlib.Data.Int.ModEq
import Intcode.Word

/-! # Two's complement

The bits of a negative integer are ones from some place on, so a mask of `k` ones leaves the
remainder modulo `2 ^ k` of an integer of either sign. `Word.wrap` masks an integer to 64 bits and
reads the highest of them as its sign; it is the one integer of the 64-bit range that differs from
the given one by a multiple of `modulus`. -/

namespace Intcode.Word
variable {v w : Int}

/-- Taking the bits of `n` out of a mask of ones counts down from its end. -/
theorem ldiff_mask (k n : Nat) : Nat.ldiff (2 ^ k - 1) n = 2 ^ k - (n % 2 ^ k + 1) := by
  refine Nat.eq_of_testBit_eq fun i => ?_
  have hlt : n % 2 ^ k < 2 ^ k := Nat.mod_lt n (Nat.two_pow_pos k)
  rw [Nat.testBit_ldiff, Nat.testBit_two_pow_sub_one, Nat.testBit_two_pow_sub_succ hlt,
    Nat.testBit_mod_two_pow]
  by_cases h : i < k
  · simp only [h, decide_true, Bool.true_and]
  · simp only [h, decide_false, Bool.false_and]

/-- A mask of `k` ones takes the remainder, also of a negative integer. -/
theorem land_mask (v : Int) (k : Nat) : Int.land v (2 ^ k - 1 : Nat) = v % (2 ^ k : Nat) := by
  have hpos : 0 < 2 ^ k := Nat.two_pow_pos k
  cases v with
  | ofNat n =>
    show ((n &&& (2 ^ k - 1) : Nat) : Int) = _
    rw [Nat.and_two_pow_sub_one_eq_mod]
    rfl
  | negSucc n =>
    show ((Nat.ldiff (2 ^ k - 1) n : Nat) : Int) = _
    have hlt : n % 2 ^ k < 2 ^ k := Nat.mod_lt n hpos
    rw [ldiff_mask, Int.negSucc_emod n (by omega), ← Int.natCast_emod]
    omega

/-- The low 64 bits of an integer. -/
def lowBits (v : Int) : Int := Int.land v (modulus - 1 : Nat)

/-- The low 64 bits of an integer, the highest of them read as the sign. -/
def signedBits (v : Int) : Int :=
  if 0x8000000000000000 ≤ lowBits v then lowBits v - modulus else lowBits v

theorem lowBits_eq_emod (v : Int) : lowBits v = v % modulus := land_mask v 64

theorem wrap_eq_signedBits (v : Int) : wrap v = signedBits v := by
  rw [wrap_eq_bmod, Int.bmod, signedBits, lowBits_eq_emod, modulus]
  split <;> split <;> omega

/-- In the 64-bit range there is one integer of each residue class. -/
theorem eq_wrap_iff : w = wrap v ↔ InRange w ∧ w ≡ v [ZMOD modulus] := by
  rw [wrap_eq_bmod, eq_comm, Int.bmod_eq_iff (by decide), ← and_assoc]
  refine and_congr Iff.rfl ?_
  rw [Int.modEq_comm, Int.modEq_iff_dvd]

theorem wrap_add (x y : Int) : wrap (x + y) = wrap (wrap x + wrap y) := by
  simp only [wrap_eq_bmod]
  exact Int.add_bmod x y modulus

theorem wrap_mul (x y : Int) : wrap (x * y) = wrap (wrap x * wrap y) := by
  simp only [wrap_eq_bmod]
  exact Int.mul_bmod x y modulus

/-- To wrap an integer is to keep its low 64 bits and to read the highest of them as the sign. This
gives the one integer of the signed 64-bit range that is congruent to it modulo `2 ^ 64`, so nothing
changes in that range, and sums and products may be wrapped at any time. -/
theorem wrap_reduces_exactly :
    (∀ v : Int, wrap v = signedBits v) ∧
    (∀ v w : Int, w = wrap v ↔ InRange w ∧ w ≡ v [ZMOD modulus]) ∧
    (∀ v : Int, InRange v → wrap v = v) ∧
    (∀ x y : Int, wrap (x + y) = wrap (wrap x + wrap y)) ∧
    ∀ x y : Int, wrap (x * y) = wrap (wrap x * wrap y) :=
  ⟨wrap_eq_signedBits, fun _ _ => eq_wrap_iff, fun _ => wrap_eq_self, wrap_add, wrap_mul⟩

end Intcode.Word
