import Intcode.Proofs.NumeralRoundTrip
import Intcode.Report

/-! # The grammar of numerals

A numeral is one decimal digit or more, with at most one sign in front. `Decimal` builds the digits up
from the left, each one the new units, so it tells their value too. `parse` gives the integer of a
numeral that is not too long and not out of range, and refuses every other text. What is printed of
an integer is a numeral of it, and so is what comes of it by putting zeros, or a plus sign, in
front. -/

namespace Intcode.Numeral
open Word (InRange)

variable {cs ds : List Char} {n k : Nat} {v : Int} {f : NumeralFault}

/-- These are decimal digits of `n`, with or without zeros in front. -/
inductive Decimal : List Char → Nat → Prop
  | one {d : Nat} (h : d < 10) : Decimal [Nat.digitChar d] d
  | more {ds : List Char} {n d : Nat} (hn : Decimal ds n) (h : d < 10) :
    Decimal (ds ++ [Nat.digitChar d]) (10 * n + d)

/-- The text is a numeral of `v` with `k` digits. -/
inductive Spells : List Char → Nat → Int → Prop
  | bare {ds : List Char} {n : Nat} (h : Decimal ds n) : Spells ds ds.length n
  | plus {ds : List Char} {n : Nat} (h : Decimal ds n) : Spells ('+' :: ds) ds.length n
  | minus {ds : List Char} {n : Nat} (h : Decimal ds n) : Spells ('-' :: ds) ds.length (-n)

/-! ### Digits -/

theorem exists_digitChar {c : Char} (h : c.isDigit = true) : ∃ d < 10, c = Nat.digitChar d := by
  have hbounds : 48 ≤ c.toNat ∧ c.toNat ≤ 57 := Char.isDigit_iff_toNat.mp h
  have hlt : c.toNat - 48 < 10 := by omega
  refine ⟨_, hlt, ?_⟩
  rw [← Char.toNat_inj, Nat.toNat_digitChar_of_lt_ten hlt]
  omega

/-- Digits behind digits move those to the left. -/
theorem Decimal.append (h : Decimal ds n) (hcs : ∀ c ∈ cs, c.isDigit = true) :
    Decimal (ds ++ cs) (Nat.ofDigitChars 10 cs n) := by
  induction cs generalizing ds n with
  | nil => rwa [List.append_nil, Nat.ofDigitChars_nil]
  | cons c cs ih =>
    obtain ⟨d, hd, rfl⟩ := exists_digitChar (hcs c List.mem_cons_self)
    have hnext := ih (h.more hd) fun x hx => hcs x (List.mem_cons_of_mem _ hx)
    rwa [List.append_assoc, List.singleton_append,
      ← Nat.ofDigitChars_cons_digitChar_of_lt_ten hd] at hnext

theorem decimal_iff :
    Decimal ds n ↔ ds ≠ [] ∧ (∀ c ∈ ds, c.isDigit = true) ∧ Nat.ofDigitChars 10 ds 0 = n := by
  constructor
  · intro h
    induction h with
    | @one d hd =>
      refine ⟨List.cons_ne_nil _ _, fun c hc => ?_, ?_⟩
      · rw [List.mem_singleton.mp hc, Nat.isDigit_digitChar, decide_eq_true hd]
      · rw [Nat.ofDigitChars_cons_digitChar_of_lt_ten hd, Nat.ofDigitChars_nil]
        omega
    | @more ds n d _ hd ih =>
      obtain ⟨-, hall, rfl⟩ := ih
      refine ⟨List.append_ne_nil_of_right_ne_nil _ (List.cons_ne_nil _ _), fun c hc => ?_, ?_⟩
      · rcases List.mem_append.mp hc with hc | hc
        · exact hall c hc
        · rw [List.mem_singleton.mp hc, Nat.isDigit_digitChar, decide_eq_true hd]
      · rw [Nat.ofDigitChars_append, Nat.ofDigitChars_cons_digitChar_of_lt_ten hd,
          Nat.ofDigitChars_nil]
  · rintro ⟨hne, hall, rfl⟩
    obtain ⟨c, cs, rfl⟩ := List.exists_cons_of_ne_nil hne
    obtain ⟨d, hd, rfl⟩ := exists_digitChar (hall c List.mem_cons_self)
    have hone : Decimal [Nat.digitChar d] d := .one hd
    have hvalue : Nat.ofDigitChars 10 (Nat.digitChar d :: cs) 0 = Nat.ofDigitChars 10 cs d := by
      rw [Nat.ofDigitChars_cons_digitChar_of_lt_ten hd, Nat.mul_zero, Nat.zero_add]
    rw [hvalue]
    exact hone.append fun x hx => hall x (List.mem_cons_of_mem _ hx)

/-! ### Signs -/

theorem spells_iff : Spells cs k v ↔ ∃ n, Decimal (splitSign cs).2 n ∧
    k = (splitSign cs).2.length ∧ v = signed (splitSign cs).1 n := by
  constructor
  · rintro (@⟨ds, n, h⟩ | @⟨ds, n, h⟩ | @⟨ds, n, h⟩)
    · rw [splitSign_of_isDigit (decimal_iff.mp h).2.1]
      exact ⟨n, h, rfl, rfl⟩
    · exact ⟨n, h, rfl, rfl⟩
    · exact ⟨n, h, rfl, rfl⟩
  · rintro ⟨n, h, rfl, rfl⟩
    unfold splitSign at h ⊢
    split at h
    · exact .minus h
    · exact .plus h
    · exact .bare h

theorem Spells.pos (h : Spells cs k v) : 1 ≤ k := by
  obtain ⟨n, hn, rfl, -⟩ := spells_iff.mp h
  exact List.length_pos_iff.mpr (decimal_iff.mp hn).1

/-! ### Texts that are parsed -/

theorem parse_of_spells (h : Spells cs k v) : parse cs =
    if digitLimit < k then .error (.tooLong k)
    else if InRange v then .ok v else .error (.outOfRange (String.ofList cs)) := by
  obtain ⟨n, hn, rfl, rfl⟩ := spells_iff.mp h
  obtain ⟨hne, hall, rfl⟩ := decimal_iff.mp hn
  have hform : ((splitSign cs).2.isEmpty || !(splitSign cs).2.all Char.isDigit) = false := by
    rw [List.all_eq_true.mpr hall, List.isEmpty_eq_false_iff.mpr hne]
    rfl
  simp only [parse, hform, Bool.false_eq_true, if_false]

theorem parse_of_not_spells (h : ¬ ∃ k v, Spells cs k v) :
    parse cs = .error (.malformed (String.ofList cs)) := by
  have hform : ((splitSign cs).2.isEmpty || !(splitSign cs).2.all Char.isDigit) = true := by
    by_cases hne : (splitSign cs).2 = []
    · rw [hne]
      rfl
    · by_cases hall : (splitSign cs).2.all Char.isDigit = true
      · have hn := decimal_iff.mpr ⟨hne, List.all_eq_true.mp hall, rfl⟩
        exact absurd ⟨_, _, spells_iff.mpr ⟨_, hn, rfl, rfl⟩⟩ h
      · rw [Bool.not_eq_true] at hall
        rw [hall]
        exact Bool.or_true _
  simp only [parse, hform, if_true]

theorem parse_eq_ok_iff :
    parse cs = .ok v ↔ ∃ k, Spells cs k v ∧ k ≤ digitLimit ∧ InRange v := by
  constructor
  · intro h
    by_cases hcs : ∃ k u, Spells cs k u
    · obtain ⟨k, u, hspells⟩ := hcs
      rw [parse_of_spells hspells] at h
      split at h
      · cases h
      · split at h
        · cases h
          exact ⟨k, hspells, Nat.not_lt.mp ‹_›, ‹_›⟩
        · cases h
    · rw [parse_of_not_spells hcs] at h
      cases h
  · rintro ⟨k, hspells, hk, hv⟩
    rw [parse_of_spells hspells, if_neg (Nat.not_lt.mpr hk), if_pos hv]

theorem parse_eq_error_iff : parse cs = .error f ↔
    (¬ ∃ k v, Spells cs k v) ∧ f = .malformed (String.ofList cs) ∨
      ∃ k v, Spells cs k v ∧ (digitLimit < k ∧ f = .tooLong k ∨
        k ≤ digitLimit ∧ ¬ InRange v ∧ f = .outOfRange (String.ofList cs)) := by
  constructor
  · intro h
    by_cases hcs : ∃ k v, Spells cs k v
    · obtain ⟨k, v, hspells⟩ := hcs
      refine .inr ⟨k, v, hspells, ?_⟩
      rw [parse_of_spells hspells] at h
      split at h
      · cases h
        exact .inl ⟨‹_›, rfl⟩
      · split at h
        · cases h
        · cases h
          exact .inr ⟨Nat.not_lt.mp ‹_›, ‹_›, rfl⟩
    · rw [parse_of_not_spells hcs] at h
      cases h
      exact .inl ⟨hcs, rfl⟩
  · rintro (⟨hcs, rfl⟩ | ⟨k, v, hspells, ⟨hk, rfl⟩ | ⟨hk, hv, rfl⟩⟩)
    · exact parse_of_not_spells hcs
    · rw [parse_of_spells hspells, if_pos hk]
    · rw [parse_of_spells hspells, if_neg (Nat.not_lt.mpr hk), if_neg hv]

/-! ### Texts that are printed -/

/-- Zeros in front of printed digits do not change their value. -/
theorem decimal_zeros (zeros n : Nat) :
    Decimal (List.replicate zeros '0' ++ Nat.toDigits 10 n) n := by
  refine decimal_iff.mpr ⟨List.append_ne_nil_of_right_ne_nil _ Nat.toDigits_ne_nil, ?_, ?_⟩
  · intro c hc
    rcases List.mem_append.mp hc with hc | hc
    · rw [List.eq_of_mem_replicate hc]
      rfl
    · exact isDigit_of_mem_toDigits hc
  · rw [Nat.ofDigitChars_append, Nat.ofDigitChars_replicate_zero, Nat.mul_zero,
      Nat.ofDigitChars_ten_toDigits]

/-- The digits of an integer with so many zeros in front, without its sign. -/
def magnitude (zeros : Nat) (v : Int) : List Char :=
  List.replicate zeros '0' ++ Nat.toDigits 10 v.natAbs

theorem spells_magnitude (zeros : Nat) (v : Int) :
    Spells (if v < 0 then '-' :: magnitude zeros v else magnitude zeros v)
      (magnitude zeros v).length v := by
  have hn := decimal_zeros zeros v.natAbs
  split
  · have hv : v = -(v.natAbs : Int) := by omega
    have h : Spells ('-' :: magnitude zeros v) _ _ := .minus hn
    rwa [← hv] at h
  · have hv : (v.natAbs : Int) = v := by omega
    have h : Spells (magnitude zeros v) _ _ := .bare hn
    rwa [hv] at h

theorem spells_plus_magnitude (zeros : Nat) (h : 0 ≤ v) :
    Spells ('+' :: magnitude zeros v) (magnitude zeros v).length v := by
  have hv : (v.natAbs : Int) = v := by omega
  have hplus : Spells ('+' :: magnitude zeros v) _ _ := .plus (decimal_zeros zeros v.natAbs)
  rwa [hv] at hplus

/-- A text is parsed exactly if it is a numeral of an integer in the range with no more digits than
are allowed, and the result is that integer. Every other text is refused as a value that does not
fit: for its form, for the number of its digits, or for its range, in this order. What is printed of
an integer in the range is parsed to it again, also with zeros in front of its digits, and with a plus
sign if it is not negative. -/
theorem parse_accepts_numerals :
    (∀ cs v, parse cs = .ok v ↔ ∃ k, Spells cs k v ∧ 1 ≤ k ∧ k ≤ digitLimit ∧ InRange v) ∧
    (∀ cs, (¬ ∃ k v, Spells cs k v ∧ 1 ≤ k ∧ k ≤ digitLimit ∧ InRange v) ↔
      ∃ f, parse cs = .error f ∧ f.report.category = .value) ∧
    (∀ cs f, parse cs = .error f ↔
      (¬ ∃ k v, Spells cs k v) ∧ f = .malformed (String.ofList cs) ∨
        ∃ k v, Spells cs k v ∧ (digitLimit < k ∧ f = .tooLong k ∨
          k ≤ digitLimit ∧ ¬ InRange v ∧ f = .outOfRange (String.ofList cs))) ∧
    (∀ v, InRange v → parse (render v).toList = .ok v) ∧
    (∀ v zeros, InRange v → (magnitude zeros v).length ≤ digitLimit →
      parse (if v < 0 then '-' :: magnitude zeros v else magnitude zeros v) = .ok v ∧
        (0 ≤ v → parse ('+' :: magnitude zeros v) = .ok v)) := by
  have hok : ∀ cs v, parse cs = .ok v ↔
      ∃ k, Spells cs k v ∧ 1 ≤ k ∧ k ≤ digitLimit ∧ InRange v := by
    intro cs v
    rw [parse_eq_ok_iff]
    exact ⟨fun ⟨k, h, hk⟩ => ⟨k, h, h.pos, hk⟩, fun ⟨k, h, _, hk⟩ => ⟨k, h, hk⟩⟩
  refine ⟨hok, fun cs => ?_, fun cs f => parse_eq_error_iff, fun v hv => ?_,
    fun v zeros hv hlen => ⟨?_, fun h => ?_⟩⟩
  · constructor
    · intro hno
      cases hp : parse cs with
      | ok v =>
        obtain ⟨k, hk⟩ := (hok cs v).mp hp
        exact absurd ⟨k, v, hk⟩ hno
      | error f => exact ⟨f, rfl, rfl⟩
    · rintro ⟨f, hf, -⟩ ⟨k, v, hk⟩
      rw [(hok cs v).mpr ⟨k, hk⟩] at hf
      cases hf
  · rw [render, String.toList_ofList, parse_digits hv]
  · exact parse_eq_ok_iff.mpr ⟨_, spells_magnitude zeros v, hlen, hv⟩
  · exact parse_eq_ok_iff.mpr ⟨_, spells_plus_magnitude zeros h, hlen, hv⟩

/-- The ends of the range, with a zero in front. -/
theorem parse_accepts_numerals_ends :
    parse "-09223372036854775808".toList = .ok (-0x8000000000000000) ∧
      parse "+09223372036854775807".toList = .ok 0x7fffffffffffffff := by
  obtain ⟨-, -, -, -, hzeros⟩ := parse_accepts_numerals
  have hlow : "-09223372036854775808".toList =
      if (-0x8000000000000000 : Int) < 0 then '-' :: magnitude 1 (-0x8000000000000000)
      else magnitude 1 (-0x8000000000000000) := by decide +kernel
  have hhigh : "+09223372036854775807".toList = '+' :: magnitude 1 0x7fffffffffffffff := by
    decide +kernel
  rw [hlow, hhigh]
  exact ⟨(hzeros (-0x8000000000000000) 1 (by decide) (by decide)).1,
    (hzeros 0x7fffffffffffffff 1 (by decide) (by decide)).2 (by decide)⟩

end Intcode.Numeral
