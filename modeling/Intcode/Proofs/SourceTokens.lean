import Intcode.Source
import Intcode.Proofs.LineBreak
import Mathlib.Data.List.Forall2

/-! # A source in one pass

The lines of a source are cut at its commas. One pass over the text does the same: cut it at every
comma and at every line break, take the blanks off each piece and leave out the pieces that hold
nothing else; the line of a piece is told by the line breaks in front of it. So what a source is
read as depends on the pieces alone, and two sources with a comma between them are read one after
the other. -/

namespace Intcode.Source
open Text
variable {n : Nat} {c : Char} {before piece rest q cs a b : List Char} {ps : List Piece}

/-- A piece of a source and all that stands in front of it. -/
structure Piece where
  before : List Char
  text : List Char
deriving DecidableEq, Repr

/-- A comma or a line break. -/
def Separates (c : Char) : Prop := c = ',' ∨ c ∈ lineBreaks

instance : DecidablePred Separates := fun c => inferInstanceAs (Decidable (c = ',' ∨ _))

/-- Cuts a text at its separators. Of the first piece `piece` has been read already, behind
`before`. -/
def cut (before piece : List Char) : List Char → List Piece
  | [] => [⟨before, piece⟩]
  | '\r' :: '\n' :: cs => ⟨before, piece⟩ :: cut (before ++ piece ++ ['\r', '\n']) [] cs
  | c :: cs =>
    if Separates c then ⟨before, piece⟩ :: cut (before ++ piece ++ [c]) [] cs
    else cut before (piece ++ [c]) cs

/-- A piece without its blanks and the number of its line. -/
def Piece.token (p : Piece) : List Char × Nat := (trim p.text, 1 + breakCount p.before)

/-- The pieces that hold something. -/
def kept (ps : List Piece) : List (List Char × Nat) :=
  (ps.map Piece.token).filter (!·.1.isEmpty)

def tokens (text : List Char) : List (List Char × Nat) := kept (cut [] [] text)

theorem kept_append (ps qs : List Piece) : kept (ps ++ qs) = kept ps ++ kept qs := by
  rw [kept, List.map_append, List.filter_append]
  rfl

theorem cut_cons (h : Apart [c] cs) :
    cut before piece (c :: cs) =
      if Separates c then ⟨before, piece⟩ :: cut (before ++ piece ++ [c]) [] cs
      else cut before (piece ++ [c]) cs := by
  rw [cut]
  rintro ds rfl rfl
  exact h rfl rfl

/-- A piece stands in the text behind what it has in front of it. -/
theorem eq_of_mem_cut {p : Piece} (h : p ∈ cut before piece rest) :
    ∃ after, before ++ piece ++ rest = p.before ++ p.text ++ after := by
  induction before, piece, rest using cut.induct with
  | case1 before piece =>
    rw [cut, List.mem_singleton] at h
    subst h
    exact ⟨[], rfl⟩
  | case2 before piece cs ih =>
    rw [cut, List.mem_cons] at h
    rcases h with rfl | h
    · exact ⟨_, rfl⟩
    · simpa only [List.append_assoc, List.cons_append, List.nil_append] using ih h
  | case3 before piece c cs hpair hc ih =>
    rw [cut_cons (apart_of_not_pair hpair), if_pos hc, List.mem_cons] at h
    rcases h with rfl | h
    · exact ⟨_, rfl⟩
    · simpa only [List.append_assoc, List.cons_append, List.nil_append] using ih h
  | case4 before piece c cs hpair hc ih =>
    rw [cut_cons (apart_of_not_pair hpair), if_neg hc] at h
    simpa only [List.append_assoc, List.cons_append, List.nil_append] using ih h

/-! ### Pieces without separators -/

theorem not_separates_concat (hq : ∀ c ∈ q, ¬Separates c) (hc : ¬Separates c) :
    ∀ d ∈ q ++ [c], ¬Separates d := by
  intro d hd
  rcases List.mem_append.mp hd with hd | hd
  · exact hq d hd
  · rwa [List.mem_singleton.mp hd]

theorem not_break_of_not_separates (hq : ∀ c ∈ q, ¬Separates c) : ∀ c ∈ q, c ∉ lineBreaks :=
  fun c hc hbreak => hq c hc (.inr hbreak)

theorem lines_piece (hq : ∀ c ∈ q, ¬Separates c) :
    lines (q ++ cs) = q.foldr consLine (lines cs) :=
  lines_append (not_break_of_not_separates hq)

theorem breakCount_before (hq : ∀ c ∈ q, ¬Separates c) (h : Apart (before ++ q) cs) :
    breakCount (before ++ q ++ cs) = breakCount before + breakCount cs := by
  have hjoin : Apart before q := by
    cases q with
    | nil => exact apart_nil
    | cons c q =>
      refine apart_cons_of_ne ?_
      rintro rfl
      exact hq _ List.mem_cons_self (.inr (by decide))
  rw [breakCount_append h, breakCount_append hjoin,
    breakCount_of_forall (not_break_of_not_separates hq), Nat.add_zero]

theorem fields_of_not_separates (hq : ∀ c ∈ q, ¬Separates c) :
    fields q = [trim q].filter (!·.isEmpty) := by
  have hcomma : ∀ c ∈ q, (c == ',') = false := fun c hc => beq_false_of_ne fun h => hq c hc (.inl h)
  rw [fields, List.splitOnP_eq_singleton hcomma, List.map_singleton]

theorem fields_append_comma (a b : List Char) : fields (a ++ ',' :: b) = fields a ++ fields b := by
  have hsplit : (a ++ ',' :: b).splitOnP (· == ',') =
      a.splitOnP (· == ',') ++ b.splitOnP (· == ',') := List.splitOnP_append_cons a b rfl
  rw [fields, hsplit, List.map_append, List.filter_append]
  rfl

theorem kept_cons (hq : ∀ c ∈ piece, ¬Separates c) :
    kept (⟨before, piece⟩ :: ps) =
      (fields piece).map (·, 1 + breakCount before) ++ kept ps := by
  rw [← List.singleton_append, kept_append, fields_of_not_separates hq]
  congr 1
  by_cases h : (trim piece).isEmpty <;> simp [kept, Piece.token, h]

/-! ### The fields of the lines are the tokens -/

/-- The fields of lines of which the first has the number `n`. -/
def fieldsOf (n : Nat) (ls : List (List Char)) : List (List Char × Nat) :=
  (ls.zipIdx n).flatMap fun (line, k) => (fields line).map (·, k)

theorem fieldsOf_cons (n : Nat) (l : List Char) (ls : List (List Char)) :
    fieldsOf n (l :: ls) = (fields l).map (·, n) ++ fieldsOf (n + 1) ls := by
  rw [fieldsOf, List.zipIdx_cons, List.flatMap_cons]
  rfl

theorem fieldsOf_last (n : Nat) (q : List Char) :
    fieldsOf n (q.foldr consLine []) = (fields q).map (·, n) := by
  by_cases hne : q = []
  · subst hne
    rfl
  · rw [foldr_consLine_nil hne, fieldsOf_cons]
    exact List.append_nil _

theorem fieldsOf_comma (n : Nat) (q : List Char) (ls : List (List Char)) :
    fieldsOf n (q.foldr consLine (consLine ',' ls)) = (fields q).map (·, n) ++ fieldsOf n ls := by
  cases ls with
  | nil =>
    have hnil : fields [] = [] := rfl
    rw [consLine, foldr_consLine, fieldsOf_cons, fields_append_comma, hnil, List.append_nil]
    rfl
  | cons l ls =>
    rw [consLine, foldr_consLine, fieldsOf_cons, fieldsOf_cons, fields_append_comma,
      List.map_append, List.append_assoc]

/-- Cutting lines at their commas and cutting the text in one pass come to the same fields. The pass
stands somewhere in the text, with the piece it is reading behind it, and not inside a break. -/
theorem kept_cut (hpiece : ∀ c ∈ piece, ¬Separates c) (h : Apart (before ++ piece) rest) :
    kept (cut before piece rest) = fieldsOf (1 + breakCount before) (lines (piece ++ rest)) := by
  induction before, piece, rest using cut.induct with
  | case1 before piece =>
    rw [lines_piece hpiece, lines, fieldsOf_last, cut, kept_cons hpiece]
    exact List.append_nil _
  | case2 before piece cs ih =>
    have hcount : breakCount (before ++ piece ++ ['\r', '\n']) = breakCount before + 1 :=
      breakCount_before hpiece h
    rw [lines_piece hpiece, lines, foldr_consLine, List.append_nil, fieldsOf_cons, cut,
      kept_cons hpiece, ih (List.forall_mem_nil _), hcount]
    · rfl
    · rw [List.append_nil, apart_append (List.cons_ne_nil _ _)]
      exact fun h => absurd h (by decide)
  | case3 before piece c cs hpair hc ih =>
    have hcs : Apart [c] cs := apart_of_not_pair hpair
    have hcount : breakCount (before ++ piece ++ [c]) = breakCount before + breakCount [c] :=
      breakCount_before hpiece h
    have hjoin : Apart (before ++ piece ++ [c] ++ []) cs := by
      rwa [List.append_nil, apart_append (List.cons_ne_nil _ _)]
    rw [lines_piece hpiece, lines_cons hcs, cut_cons hcs, if_pos hc, kept_cons hpiece,
      ih (List.forall_mem_nil _) hjoin, hcount, List.nil_append]
    by_cases hbreak : c ∈ lineBreaks
    · rw [breakCount_singleton, if_pos hbreak, if_pos hbreak, foldr_consLine, List.append_nil,
        fieldsOf_cons, Nat.add_assoc]
    · obtain rfl : c = ',' := hc.resolve_right hbreak
      rw [breakCount_singleton, if_neg hbreak, if_neg hbreak, fieldsOf_comma, Nat.add_zero]
  | case4 before piece c cs hpair hc ih =>
    have hcs : Apart [c] cs := apart_of_not_pair hpair
    have hjoin : Apart (before ++ (piece ++ [c])) cs := by
      rwa [← List.append_assoc, apart_append (List.cons_ne_nil _ _)]
    rw [cut_cons hcs, if_neg hc, ih (not_separates_concat hpiece hc) hjoin, List.append_assoc,
      List.singleton_append]

/-- The tokens of a text are the fields of its lines. -/
theorem numberedFields_eq (text : List Char) : numberedFields text = tokens text := by
  have hcut : kept (cut [] [] text) = fieldsOf (1 + breakCount []) (lines ([] ++ text)) :=
    kept_cut (List.forall_mem_nil _) fun h => nomatch h
  exact hcut.symm

/-! ### Two sources with a comma between them -/

theorem cut_append_comma (before piece a b : List Char) :
    cut before piece (a ++ ',' :: b) =
      cut before piece a ++ cut (before ++ piece ++ a ++ [',']) [] b := by
  have hcomma : ∀ as, Apart as (',' :: b) := fun as => apart_cons_of_ne (by decide)
  induction before, piece, a using cut.induct with
  | case1 before piece =>
    rw [List.nil_append, cut_cons (apart_of_ne (by decide)), if_pos (.inl rfl), cut,
      List.append_nil, List.singleton_append]
  | case2 before piece cs ih =>
    rw [List.cons_append, List.cons_append, cut, cut, ih]
    simp only [List.append_assoc, List.cons_append, List.nil_append]
  | case3 before piece c cs hpair hc ih =>
    have hcs : Apart [c] cs := apart_of_not_pair hpair
    rw [List.cons_append, cut_cons (hcs.append (hcomma _)), if_pos hc, cut_cons hcs, if_pos hc, ih]
    simp only [List.append_assoc, List.cons_append, List.nil_append]
  | case4 before piece c cs hpair hc ih =>
    have hcs : Apart [c] cs := apart_of_not_pair hpair
    rw [List.cons_append, cut_cons (hcs.append (hcomma _)), if_neg hc, cut_cons hcs, if_neg hc, ih]
    simp only [List.append_assoc, List.cons_append, List.nil_append]

theorem fieldsOf_add (n k : Nat) (ls : List (List Char)) :
    fieldsOf (k + n) ls = (fieldsOf k ls).map (Prod.map id (· + n)) := by
  induction ls generalizing k with
  | nil => rfl
  | cons l ls ih =>
    rw [fieldsOf_cons, fieldsOf_cons, Nat.add_right_comm, ih, List.map_append, List.map_map]
    rfl

theorem tokens_append_comma (a b : List Char) :
    tokens (a ++ ',' :: b) = tokens a ++ (tokens b).map (Prod.map id (· + breakCount a)) := by
  have hcount : breakCount (a ++ [',']) = breakCount a :=
    breakCount_append (apart_cons_of_ne (by decide))
  have hback : kept (cut (a ++ [',']) [] b) = fieldsOf (1 + breakCount (a ++ [','])) (lines b) := by
    refine kept_cut (List.forall_mem_nil _) ?_
    rw [List.append_nil, apart_append (List.cons_ne_nil _ _)]
    exact apart_of_ne (by decide)
  rw [tokens, cut_append_comma, kept_append, List.nil_append, List.nil_append, hback, hcount,
    fieldsOf_add]
  exact congrArg (tokens a ++ List.map _ ·) (numberedFields_eq b)

/-! ### The texts of the tokens -/

/-- The texts between separators that hold something, without their blanks. -/
def texts (text : List Char) : List (List Char) :=
  ((text.splitOnP fun c => Separates c).map trim).filter (!·.isEmpty)

theorem texts_append_cons (hc : Separates c) : texts (a ++ c :: b) = texts a ++ texts b := by
  rw [texts, List.splitOnP_append_cons a b (decide_eq_true hc), List.map_append,
    List.filter_append]
  rfl

theorem texts_of_not_separates (hq : ∀ c ∈ q, ¬Separates c) : texts q = fields q := by
  rw [texts, List.splitOnP_eq_singleton fun c hc => decide_eq_false (hq c hc), List.map_singleton,
    fields_of_not_separates hq]

theorem map_fst_kept_cons (hq : ∀ c ∈ piece, ¬Separates c) :
    (kept (⟨before, piece⟩ :: ps)).map Prod.fst = texts piece ++ (kept ps).map Prod.fst := by
  rw [kept_cons hq, List.map_append, List.map_map, texts_of_not_separates hq]
  exact congrArg (· ++ _) (List.map_id _)

/-- What is between separators does not tell which separators they are. -/
theorem map_fst_kept_cut (hpiece : ∀ c ∈ piece, ¬Separates c) :
    (kept (cut before piece rest)).map Prod.fst = texts (piece ++ rest) := by
  induction before, piece, rest using cut.induct with
  | case1 before piece =>
    rw [cut, map_fst_kept_cons hpiece, List.append_nil]
    exact List.append_nil _
  | case2 before piece cs ih =>
    -- between the carriage return and the line feed lies an empty text, which is left out
    have hreturn : Separates '\r' := .inr (by decide)
    have hfeed : Separates '\n' := .inr (by decide)
    have hpair : texts ([] ++ '\n' :: cs) = texts [] ++ texts cs := texts_append_cons hfeed
    rw [cut, map_fst_kept_cons hpiece, ih (List.forall_mem_nil _), texts_append_cons hreturn]
    exact congrArg (texts piece ++ ·) hpair.symm
  | case3 before piece c cs hpair hc ih =>
    rw [cut_cons (apart_of_not_pair hpair), if_pos hc, map_fst_kept_cons hpiece,
      ih (List.forall_mem_nil _), texts_append_cons hc]
    rfl
  | case4 before piece c cs hpair hc ih =>
    rw [cut_cons (apart_of_not_pair hpair), if_neg hc, ih (not_separates_concat hpiece hc),
      List.append_assoc, List.singleton_append]

theorem map_fst_tokens (text : List Char) : (tokens text).map Prod.fst = texts text :=
  map_fst_kept_cut (List.forall_mem_nil _)

/-! ### Values and faults -/

section Reading
variable {ε δ α β γ : Type} {f : α → Except ε β} {g : γ → Except δ β} {ts front back : List α}
  {t : α} {vs : List β} {e : ε}

theorem mapM_of_accepted (h : List.Forall₂ (fun t v => f t = .ok v) ts vs) :
    ts.mapM f = .ok vs := by
  induction h with
  | nil => rfl
  | cons hv _ ih =>
    rw [List.mapM_cons, hv, ih]
    rfl

theorem mapM_of_rejected (hfront : ∀ s ∈ front, ∃ v, f s = .ok v) (ht : f t = .error e) :
    (front ++ t :: back).mapM f = .error e := by
  induction front with
  | nil =>
    rw [List.nil_append, List.mapM_cons, ht]
    rfl
  | cons s front ih =>
    obtain ⟨v, hv⟩ := hfront s List.mem_cons_self
    rw [List.cons_append, List.mapM_cons, hv, ih fun r hr => hfront r (List.mem_cons_of_mem _ hr)]
    rfl

theorem accepted_or_rejected (f : α → Except ε β) (ts : List α) :
    (∃ vs, List.Forall₂ (fun t v => f t = .ok v) ts vs) ∨
      ∃ front t back e, ts = front ++ t :: back ∧ (∀ s ∈ front, ∃ v, f s = .ok v) ∧
        f t = .error e := by
  induction ts with
  | nil => exact .inl ⟨[], .nil⟩
  | cons t ts ih =>
    cases hv : f t with
    | error e => exact .inr ⟨[], t, ts, e, rfl, nofun, hv⟩
    | ok v =>
      rcases ih with ⟨vs, hvs⟩ | ⟨front, s, back, e, rfl, hfront, hs⟩
      · exact .inl ⟨v :: vs, .cons hv hvs⟩
      · exact .inr ⟨t :: front, s, back, e, rfl, List.forall_mem_cons.mpr ⟨⟨v, hv⟩, hfront⟩, hs⟩

theorem mapM_eq_ok_iff : ts.mapM f = .ok vs ↔ List.Forall₂ (fun t v => f t = .ok v) ts vs := by
  refine ⟨fun h => ?_, mapM_of_accepted⟩
  rcases accepted_or_rejected f ts with ⟨us, hus⟩ | ⟨front, t, back, e, rfl, hfront, ht⟩
  · cases (mapM_of_accepted hus).symm.trans h
    exact hus
  · cases (mapM_of_rejected hfront ht).symm.trans h

theorem mapM_eq_error_iff : ts.mapM f = .error e ↔ ∃ front t back, ts = front ++ t :: back ∧
    (∀ s ∈ front, ∃ v, f s = .ok v) ∧ f t = .error e := by
  refine ⟨fun h => ?_, fun ⟨front, t, back, hts, hfront, ht⟩ => ?_⟩
  · rcases accepted_or_rejected f ts with ⟨us, hus⟩ | ⟨front, t, back, d, rfl, hfront, ht⟩
    · cases (mapM_of_accepted hus).symm.trans h
    · cases (mapM_of_rejected hfront ht).symm.trans h
      exact ⟨front, t, back, rfl, hfront, ht⟩
  · rw [hts, mapM_of_rejected hfront ht]

theorem mapM_map {r : α → γ} {k : ε → δ} (h : ∀ t, g (r t) = (f t).mapError k) (ts : List α) :
    (ts.map r).mapM g = (ts.mapM f).mapError k := by
  induction ts with
  | nil => rfl
  | cons t ts ih =>
    rw [List.map_cons, List.mapM_cons, List.mapM_cons, h, ih]
    cases f t with
    | error _ => rfl
    | ok v => cases ts.mapM f <;> rfl

end Reading

theorem readField_eq_ok_iff {t : List Char × Nat} {v : Int} :
    readField t = .ok v ↔ Numeral.parse t.1 = .ok v := by
  rw [readField]
  cases Numeral.parse t.1 with
  | error _ => exact ⟨nofun, nofun⟩
  | ok u => exact ⟨fun h => congrArg _ (Except.ok.inj h), fun h => congrArg _ (Except.ok.inj h)⟩

theorem readField_eq_error_iff {t : List Char × Nat} {f : LoadFault} :
    readField t = .error f ↔ (∀ v, Numeral.parse t.1 ≠ .ok v) ∧ f = ⟨String.ofList t.1, t.2⟩ := by
  rw [readField]
  cases Numeral.parse t.1 with
  | error _ => exact ⟨fun h => ⟨nofun, (Except.error.inj h).symm⟩, fun h => congrArg _ h.2.symm⟩
  | ok u => exact ⟨nofun, fun h => absurd rfl (h.1 u)⟩

theorem parse_append_comma (a b : List Char) :
    parse (a ++ ',' :: b) = (do
      let front ← parse a
      let back ← (parse b).mapError fun f => ⟨f.field, f.line + breakCount a⟩
      return front ++ back) := by
  have hshift : ∀ t, readField (Prod.map id (· + breakCount a) t) =
      (readField t).mapError fun f => ⟨f.field, f.line + breakCount a⟩ := by
    intro t
    simp only [readField, Prod.map_fst, id_eq]
    cases Numeral.parse t.1 <;> rfl
  rw [parse, parse, parse, numberedFields_eq, numberedFields_eq, numberedFields_eq,
    tokens_append_comma, List.mapM_append, mapM_map hshift]

/-- The value of a field, or the field. -/
def readText (text : List Char) : Except String Int :=
  (Numeral.parse text).mapError fun _ => String.ofList text

theorem mapError_parse (text : List Char) :
    (parse text).mapError LoadFault.field = (texts text).mapM readText := by
  have hforget : ∀ t : List Char × Nat, readText t.1 = (readField t).mapError LoadFault.field := by
    intro t
    rw [readText, readField]
    cases Numeral.parse t.1 <;> rfl
  rw [parse, numberedFields_eq, ← map_fst_tokens, mapM_map hforget]

/-- A source is read as the values of its tokens, in their order, or refused for the first token
that is no numeral. With a comma between them, two sources are read one after the other, and a fault
of the second one lies as many lines further down as the first one has line breaks. A line feed in
place of a comma leaves the values and the field of a fault as they are. -/
theorem parse_in_one_pass (text a b : List Char) :
    (∀ p ∈ cut [] [] text, ∃ after, text = p.before ++ p.text ++ after) ∧
    (∀ vs, parse text = .ok vs ↔
      List.Forall₂ (fun t v => Numeral.parse t.1 = .ok v) (tokens text) vs) ∧
    (∀ f, parse text = .error f ↔ ∃ front t back, tokens text = front ++ t :: back ∧
      (∀ s ∈ front, ∃ v, Numeral.parse s.1 = .ok v) ∧ (∀ v, Numeral.parse t.1 ≠ .ok v) ∧
      f = ⟨String.ofList t.1, t.2⟩) ∧
    parse (a ++ ',' :: b) = (do
      let front ← parse a
      let back ← (parse b).mapError fun f => ⟨f.field, f.line + breakCount a⟩
      return front ++ back) ∧
    (parse (a ++ '\n' :: b)).mapError LoadFault.field =
      (parse (a ++ ',' :: b)).mapError LoadFault.field := by
  have hparse : parse text = (tokens text).mapM readField := by rw [parse, numberedFields_eq]
  have hfeed : Separates '\n' := .inr (by decide)
  have hcomma : Separates ',' := .inl rfl
  refine ⟨fun p hp => eq_of_mem_cut hp, fun vs => ?_, fun f => ?_, parse_append_comma a b, ?_⟩
  · rw [hparse, mapM_eq_ok_iff]
    simp only [readField_eq_ok_iff]
  · rw [hparse, mapM_eq_error_iff]
    simp only [readField_eq_ok_iff, readField_eq_error_iff]
  · rw [mapError_parse, mapError_parse, texts_append_cons hfeed, texts_append_cons hcomma]

/-- A carriage return and a line feed are two breaks if a comma stands between them. -/
theorem parse_in_one_pass_parted :
    (⟨"1\r,\n".toList, " x".toList⟩ : Piece) ∈ cut [] [] "1\r,\n x".toList ∧
      (∃ after, "1\r,\n x".toList = "1\r,\n".toList ++ " x".toList ++ after) ∧
      parse "1\r,\n x".toList = .error ⟨"x", 3⟩ := by
  have hmem : (⟨"1\r,\n".toList, " x".toList⟩ : Piece) ∈ cut [] [] "1\r,\n x".toList := by decide
  obtain ⟨hpieces, -, herror, -⟩ := parse_in_one_pass "1\r,\n x".toList [] []
  refine ⟨hmem, hpieces _ hmem, (herror _).mpr ⟨[(['1'], 1)], (['x'], 3), [], by decide, ?_⟩⟩
  refine ⟨fun s hs => ?_, nofun, rfl⟩
  obtain rfl := List.mem_singleton.mp hs
  exact ⟨1, rfl⟩

end Intcode.Source
