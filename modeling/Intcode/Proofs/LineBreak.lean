import Intcode.Text.Line

/-! # Line breaks

The lines of a text, told from its breaks. A carriage return and the line feed after it are one
break, so a text is taken apart only where that pair stays together. -/

namespace Intcode.Text
variable {c : Char} {as bs cs q : List Char}

/-- The characters that break a line. -/
def lineBreaks : List Char :=
  ['\n', '\r', '\x0b', '\x0c', '\x1c', '\x1d', '\x1e', '\u0085', '\u2028', '\u2029']

theorem isBreak_iff : isBreak c = true ↔ c ∈ lineBreaks := by
  simp only [lineBreaks, List.mem_cons, List.not_mem_nil, or_false, ← Char.toNat_inj, isBreak,
    Bool.or_eq_true, Bool.and_eq_true, decide_eq_true_eq, beq_iff_eq, Char.reduceToNat]
  omega

/-- How many line breaks a text has; a carriage return and the line feed after it are one. -/
def breakCount : List Char → Nat
  | [] => 0
  | '\r' :: '\n' :: cs => breakCount cs + 1
  | c :: cs => breakCount cs + if c ∈ lineBreaks then 1 else 0

/-- No line break has its first half at the end of `as` and its second at the start of `bs`. -/
def Apart (as bs : List Char) : Prop := as.getLast? = some '\r' → bs.head? ≠ some '\n'

theorem apart_of_not_pair (h : ∀ ds, c = '\r' → cs = '\n' :: ds → False) : Apart [c] cs := by
  intro hc hn
  obtain ⟨ds, rfl⟩ := List.head?_eq_some_iff.mp hn
  exact h ds (Option.some.inj hc) rfl

theorem apart_nil : Apart as [] := fun _ => nofun

theorem apart_of_ne (h : c ≠ '\r') : Apart [c] cs := fun hc => absurd (Option.some.inj hc) h

theorem apart_cons_of_ne (h : c ≠ '\n') : Apart as (c :: cs) :=
  fun _ hn => absurd (Option.some.inj hn) h

theorem apart_append (hne : bs ≠ []) : Apart (as ++ bs) cs ↔ Apart bs cs := by
  obtain ⟨p, c, rfl⟩ : ∃ p c, bs = p ++ [c] := ⟨_, _, (List.dropLast_concat_getLast hne).symm⟩
  rw [← List.append_assoc, Apart, Apart, List.getLast?_concat, List.getLast?_concat]

theorem Apart.tail (h : Apart (c :: as) bs) : Apart as bs := by
  cases as with
  | nil => nofun
  | cons d ds => exact fun hd => h (List.getLast?_cons_cons.trans hd)

theorem Apart.append (h : Apart [c] cs) (hb : Apart (c :: cs) bs) : Apart [c] (cs ++ bs) := by
  cases cs with
  | nil => exact hb
  | cons d ds => exact h

theorem ne_return_of_not_break (h : c ∉ lineBreaks) : c ≠ '\r' := by
  rintro rfl
  exact h (by decide)

theorem breakCount_cons (h : Apart [c] cs) :
    breakCount (c :: cs) = breakCount cs + if c ∈ lineBreaks then 1 else 0 := by
  rw [breakCount]
  rintro ds rfl rfl
  exact h rfl rfl

theorem breakCount_singleton (c : Char) :
    breakCount [c] = if c ∈ lineBreaks then 1 else 0 := by
  rw [breakCount_cons apart_nil, breakCount, Nat.zero_add]

theorem breakCount_append (h : Apart as bs) :
    breakCount (as ++ bs) = breakCount as + breakCount bs := by
  induction as using breakCount.induct with
  | case1 => rw [List.nil_append, breakCount, Nat.zero_add]
  | case2 cs ih =>
    rw [List.cons_append, List.cons_append, breakCount, breakCount, ih h.tail.tail]
    omega
  | case3 c cs hpair ih =>
    have hc : Apart [c] cs := apart_of_not_pair hpair
    rw [List.cons_append, breakCount_cons (hc.append h), breakCount_cons hc, ih h.tail]
    omega

theorem breakCount_of_forall (hq : ∀ c ∈ q, c ∉ lineBreaks) : breakCount q = 0 := by
  induction q with
  | nil => rfl
  | cons c cs ih =>
    have hc : c ∉ lineBreaks := hq c List.mem_cons_self
    rw [breakCount_cons (apart_of_ne (ne_return_of_not_break hc)), if_neg hc,
      ih fun d hd => hq d (List.mem_cons_of_mem _ hd)]

theorem lines_cons (h : Apart [c] cs) :
    lines (c :: cs) = if c ∈ lineBreaks then [] :: lines cs else consLine c (lines cs) := by
  rw [lines]
  · simp only [← isBreak_iff]
  · rintro ds rfl rfl
    exact h rfl rfl

/-- What stands in front of the first line break belongs to the first line. -/
theorem lines_append (hq : ∀ c ∈ q, c ∉ lineBreaks) :
    lines (q ++ cs) = q.foldr consLine (lines cs) := by
  induction q with
  | nil => rfl
  | cons c q ih =>
    have hc : c ∉ lineBreaks := hq c List.mem_cons_self
    rw [List.cons_append, lines_cons (apart_of_ne (ne_return_of_not_break hc)), if_neg hc,
      ih fun d hd => hq d (List.mem_cons_of_mem _ hd), List.foldr_cons]

theorem foldr_consLine (l : List Char) (ls : List (List Char)) :
    q.foldr consLine (l :: ls) = (q ++ l) :: ls := by
  induction q with
  | nil => rfl
  | cons c q ih => rw [List.foldr_cons, ih, consLine, List.cons_append]

theorem foldr_consLine_nil (hne : q ≠ []) : q.foldr consLine [] = [q] := by
  obtain ⟨p, c, rfl⟩ : ∃ p c, q = p ++ [c] := ⟨_, _, (List.dropLast_concat_getLast hne).symm⟩
  rw [List.foldr_append, List.foldr_cons, List.foldr_nil, consLine, foldr_consLine]

end Intcode.Text
