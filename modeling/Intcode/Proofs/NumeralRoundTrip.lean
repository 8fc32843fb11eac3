import Intcode.Devices
import Intcode.Text.Blank

/-! # Numerals are read back

What `Numeral.render` writes of an integer in the 64-bit range is a numeral of it. No blank occurs
in it, so it is also a word, and stays whole among other words. -/

namespace Intcode

namespace Text
variable {c : Char} {cs ds : List Char}

theorem isBlank_of_isDigit (h : c.isDigit = true) : isBlank c = false := by
  have h48 : 48 ≤ c.toNat ∧ c.toNat ≤ 57 := Char.isDigit_iff_toNat.mp h
  simp only [isBlank, Bool.or_eq_false_iff, Bool.and_eq_false_iff, decide_eq_false_iff_not,
    beq_eq_false_iff_ne]
  omega

theorem words_of_forall (hcs : ∀ c ∈ cs, isBlank c = false) (hne : cs ≠ []) : words cs = [cs] := by
  rw [words, List.splitOnP_eq_singleton hcs]
  cases cs with
  | nil => exact absurd rfl hne
  | cons c cs => rfl

/-- The first word of a text, in front of a blank. -/
theorem words_append_blank (hcs : ∀ c ∈ cs, isBlank c = false) (hne : cs ≠ [])
    (hc : isBlank c = true) : words (cs ++ c :: ds) = cs :: words ds := by
  rw [words, List.splitOnP_append_cons_of_forall_mem hcs c hc]
  cases cs with
  | nil => exact absurd rfl hne
  | cons c cs => rfl

end Text

namespace Numeral
variable {v : Int}

theorem splitSign_of_isDigit {cs : List Char} (h : ∀ c ∈ cs, c.isDigit = true) :
    splitSign cs = (false, cs) := by
  unfold splitSign
  split
  · exact absurd (h '-' (List.mem_cons_self ..)) (by decide)
  · exact absurd (h '+' (List.mem_cons_self ..)) (by decide)
  · rfl

theorem isDigit_of_mem_toDigits {n : Nat} {c : Char} (h : c ∈ Nat.toDigits 10 n) :
    c.isDigit = true :=
  Nat.isDigit_of_mem_toDigits (by decide) (by decide) h

theorem splitSign_digits (v : Int) :
    splitSign (digits v) = (decide (v < 0), Nat.toDigits 10 v.natAbs) := by
  unfold digits
  split
  · rename_i h
    rw [decide_eq_true h]
    rfl
  · rename_i h
    rw [decide_eq_false h]
    exact splitSign_of_isDigit fun c hc => isDigit_of_mem_toDigits hc

theorem eq_minus_or_isDigit_of_mem_digits {c : Char} (h : c ∈ digits v) :
    c = '-' ∨ c.isDigit = true := by
  unfold digits at h
  split at h
  · rcases List.mem_cons.mp h with rfl | h
    · exact .inl rfl
    · exact .inr (isDigit_of_mem_toDigits h)
  · exact .inr (isDigit_of_mem_toDigits h)

theorem isBlank_of_mem_digits {c : Char} (h : c ∈ digits v) : Text.isBlank c = false := by
  rcases eq_minus_or_isDigit_of_mem_digits h with rfl | h
  · decide
  · exact Text.isBlank_of_isDigit h

theorem not_mem_digits {c : Char} (hdigit : c.isDigit = false) (hminus : c ≠ '-') :
    c ∉ digits v := by
  intro h
  rcases eq_minus_or_isDigit_of_mem_digits h with h | h
  · exact hminus h
  · cases hdigit.symm.trans h

theorem digits_ne_nil (v : Int) : digits v ≠ [] := by
  unfold digits
  split
  · exact List.cons_ne_nil _ _
  · exact Nat.toDigits_ne_nil

/-- An integer of the 64-bit range has at most 19 digits. -/
theorem length_toDigits_of_inRange (h : Word.InRange v) :
    (Nat.toDigits 10 v.natAbs).length ≤ digitLimit := by
  have h19 : (Nat.toDigits 10 v.natAbs).length ≤ 19 := by
    refine (Nat.length_toDigits_le_iff (by decide) (by decide)).mpr ?_
    obtain ⟨hl, hu⟩ := h
    omega
  exact Nat.le_trans h19 (by decide)

theorem parse_digits (h : Word.InRange v) : parse (digits v) = .ok v := by
  have hall : (Nat.toDigits 10 v.natAbs).all Char.isDigit = true :=
    List.all_eq_true.mpr fun c hc => isDigit_of_mem_toDigits hc
  have hform : ((Nat.toDigits 10 v.natAbs).isEmpty ||
      !(Nat.toDigits 10 v.natAbs).all Char.isDigit) = false := by
    rw [hall, List.isEmpty_eq_false_iff.mpr Nat.toDigits_ne_nil]
    rfl
  have hlen := Nat.not_lt.mpr (length_toDigits_of_inRange h)
  rw [parse, splitSign_digits]
  simp only [hform, Bool.false_eq_true, if_false, if_neg hlen, Nat.ofDigitChars_ten_toDigits,
    signed_natAbs, if_pos h]

end Numeral

/-- An input device reads back what was written of an integer in the range. -/
theorem Input.integer_render {v : Int} (h : Word.InRange v) :
    Input.integer (Numeral.render v).toList = .ok v := by
  have htrim : Text.trim (Numeral.digits v) = Numeral.digits v :=
    Text.trim_eq_self fun c hc => Numeral.isBlank_of_mem_digits hc
  rw [Input.integer, Numeral.render, String.toList_ofList, htrim, Numeral.parse_digits h]

end Intcode
