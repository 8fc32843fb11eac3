import Intcode.Debugger.Screen
import Intcode.Proofs.TraceLines

/-! # The memory window, read back from the screen

A reader of the screen's text knows nothing of the program. The lines between the registers and the
trace are rows of cells behind an address and a colon; a numeral in brackets is a cell of the current
instruction, and one between blanks another cell. Columns are of no help, since a long numeral is
wider than its column. The reader finds the cells that were written. -/

namespace Intcode

namespace Numeral
variable {v : Int} {c : Char} {cs : List Char}

/-! ### Addresses that are read back -/

/-- The ASCII digits are the first run of digits. -/
theorem digitValue?_of_isDigit (h : c.isDigit = true) :
    Text.digitValue? c = some (c.toNat - '0'.toNat) := by
  have hrange : 48 ≤ c.toNat ∧ c.toNat ≤ 57 := Char.isDigit_iff_toNat.mp h
  have hfirst : (decide (0x30 ≤ c.toNat) && decide (c.toNat < 0x30 + 10)) = true := by
    simpa [Nat.lt_succ_iff] using hrange
  rw [Text.digitValue?, Text.digitZeros, List.find?_cons, hfirst]
  rfl

/-- The values of ASCII digits. -/
def digitValues (cs : List Char) : List Nat := cs.map fun c => c.toNat - '0'.toNat

theorem looseDigits?_of_isDigit (h : ∀ c ∈ cs, c.isDigit = true) (hne : cs ≠ []) :
    looseDigits? cs = some (digitValues cs) := by
  induction cs with
  | nil => exact absurd rfl hne
  | cons c cs ih =>
    obtain ⟨hc, hcs⟩ := List.forall_mem_cons.mp h
    cases cs with
    | nil =>
      rw [looseDigits?, digitValue?_of_isDigit hc]
      rfl
    | cons d ds =>
      have hd : d ≠ '_' := by
        rintro rfl
        exact absurd (hcs '_' List.mem_cons_self) (by decide)
      rw [looseDigits?, digitValue?_of_isDigit hc, ih hcs (List.cons_ne_nil _ _)]
      · rfl
      · exact nofun
      · rintro _ ⟨⟩
        exact hd rfl

theorem parseLoose?_digits (h : Writable v) : parseLoose? (digits v) = some v := by
  have hdigits : looseDigits? (Nat.toDigits 10 v.natAbs) =
      some (digitValues (Nat.toDigits 10 v.natAbs)) :=
    looseDigits?_of_isDigit (fun c hc => isDigit_of_mem_toDigits hc) Nat.toDigits_ne_nil
  have hlen : (digitValues (Nat.toDigits 10 v.natAbs)).length ≤ digitLimit := by
    rw [digitValues, List.length_map]
    exact (writable_iff_length_toDigits v).mp h
  have hguard : (guard ((digitValues (Nat.toDigits 10 v.natAbs)).length ≤ digitLimit) :
      Option Unit) = some () := if_pos hlen
  have hvalue : (digitValues (Nat.toDigits 10 v.natAbs)).foldl (fun n d => 10 * n + d) 0 =
      v.natAbs := by
    rw [digitValues, List.foldl_map]
    exact Nat.ofDigitChars_ten_toDigits
  have hparse : parseLoose? (digits v) = (looseDigits? (Nat.toDigits 10 v.natAbs)).bind fun ds =>
      (guard (ds.length ≤ digitLimit) : Option Unit).bind fun _ =>
        some (signed (decide (v < 0)) (ds.foldl (fun n d => 10 * n + d) 0)) := by
    rw [parseLoose?, splitSign_digits]
    rfl
  rw [hparse, hdigits, Option.bind_some, hguard, Option.bind_some, hvalue, signed_natAbs]

end Numeral

namespace Text
variable {l : String} {ls : List String}

theorem toList_alignRight (width : Nat) (text : String) :
    (alignRight width text).toList = List.replicate (width - text.length) ' ' ++ text.toList := by
  have hpush : ∀ n, ("".pushn ' ' n).toList = List.replicate n ' ' := by
    intro n
    rw [String.pushn_eq_repeat_push]
    induction n with
    | zero => rfl
    | succ n ih => rw [Nat.repeat, String.toList_push, ih, List.replicate_succ']
  rw [alignRight, String.toList_append, hpush]

theorem trim_replicate (n : Nat) (cs : List Char) : trim (List.replicate n ' ' ++ cs) = trim cs := by
  have hdrop : (List.replicate n ' ' ++ cs).dropWhile isBlank = cs.dropWhile isBlank := by
    refine List.dropWhile_append_of_pos fun c hc => ?_
    rw [List.eq_of_mem_replicate hc]
    rfl
  rw [trim, hdrop, trim]

theorem intercalate_empty_cons (l : String) (ls : List String) :
    "".intercalate (l :: ls) = l ++ "".intercalate ls := by
  cases ls with
  | nil => simp
  | cons next more => rw [String.intercalate_cons_cons, String.append_empty]

theorem oneLine_intercalate_empty (h : ∀ l ∈ ls, OneLine l) : OneLine ("".intercalate ls) := by
  induction ls with
  | nil => exact ⟨nofun⟩
  | cons l ls ih =>
    obtain ⟨hl, hls⟩ := List.forall_mem_cons.mp h
    rw [intercalate_empty_cons]
    exact oneLine_append.mpr ⟨hl, ih hls⟩

/-- The lines in front of another text. -/
theorem feedLines_intercalate {rest : List String} (h : ∀ l ∈ ls, OneLine l) (hne : rest ≠ []) :
    feedLines ("\n".intercalate (ls ++ rest)).toList =
      ls.map (fun l => l.toList ++ ['\n']) ++ feedLines ("\n".intercalate rest).toList := by
  induction ls with
  | nil => rfl
  | cons l ls ih =>
    obtain ⟨hl, hls⟩ := List.forall_mem_cons.mp h
    obtain ⟨next, more, hnext⟩ : ∃ next more, ls ++ rest = next :: more :=
      List.exists_cons_of_ne_nil (List.append_ne_nil_of_right_ne_nil ls hne)
    have hfirst : ("\n".intercalate (l :: (ls ++ rest))).toList =
        l.toList ++ '\n' :: ("\n".intercalate (ls ++ rest)).toList := by
      rw [hnext, String.intercalate_cons_cons, String.toList_append, String.toList_append,
        List.append_assoc]
      rfl
    rw [List.cons_append, hfirst, feedLines_append_feed hl.noFeed, ih hls]
    rfl

end Text

namespace Debugger

/-- A cell as the screen shows it. -/
structure ShownCell where
  address : Int
  value : Int
  bracketed : Bool
deriving DecidableEq, Repr

/-- Where a reader of a row is: between two numerals, or inside one that ends at `closing`. -/
inductive Place
  | between
  | inside (closing : Char) (read : List Char)

/-- The numerals of a row, and whether they stand in brackets. -/
def numerals : Place → List Char → List (List Char × Bool)
  | _, [] => []
  | .between, c :: cs =>
    if c = '[' then numerals (.inside ']' []) cs
    else if Text.isBlank c then numerals .between cs
    else numerals (.inside ' ' [c]) cs
  | .inside closing read, c :: cs =>
    if c = closing then (read, closing == ']') :: numerals .between cs
    else numerals (.inside closing (read ++ [c])) cs

/-- The cells from `a` on. -/
def readCells? (a : Int) : List (List Char × Bool) → Option (List ShownCell)
  | [] => some []
  | (numeral, bracketed) :: rest => do
    return ⟨a, ← Numeral.parseLoose? numeral, bracketed⟩ :: (← readCells? (a + 1) rest)

/-- The cells of a row, whose first address stands in front of the colon. -/
def readRow? (line : List Char) : Option (List ShownCell) := do
  let a ← Numeral.parseLoose? (Text.trim (line.takeWhile (· != ':')))
  readCells? a (numerals .between (line.dropWhile (· != ':')).tail)

/-- The line behind the memory window. -/
def traceHeading : List Char := ['T', 'r', 'a', 'c', 'e', ':', '\n']

/-- The memory window in the text of a screen, row by row. -/
def readWindow? (text : String) : Option (List (List ShownCell)) :=
  ((Text.feedLines text.toList).tail.takeWhile (· != traceHeading)).mapM readRow?

/-- The cell at `a` as the screen should show it, if the current instruction takes `span` cells. -/
def shownCell (d : Debugger) (span a : Nat) : ShownCell :=
  ⟨a, d.machine.memory.get a, d.isCurrent span a⟩

/-- The line of a row, as a reader of lines finds it. -/
def rowLine (d : Debugger) (span : Nat) (row : List Nat) : List Char :=
  (d.rowText span row).toList ++ ['\n']

variable {d : Debugger} {span a : Nat} {cs ds : List Char}

/-! ### Cells -/

theorem numerals_replicate (n : Nat) (cs : List Char) :
    numerals .between (List.replicate n ' ' ++ cs) = numerals .between cs := by
  induction n with
  | zero => rfl
  | succ n ih => exact ih

theorem numerals_inside {closing : Char} (read : List Char) (h : closing ∉ ds) :
    numerals (.inside closing read) (ds ++ closing :: cs) =
      (read ++ ds, closing == ']') :: numerals .between cs := by
  induction ds generalizing read with
  | nil => rw [List.nil_append, List.append_nil, numerals, if_pos rfl]
  | cons c ds ih =>
    have hc : c ≠ closing := (List.ne_of_not_mem_cons h).symm
    rw [List.cons_append, numerals, if_neg hc, ih _ (List.not_mem_of_not_mem_cons h),
      List.append_assoc]
    rfl

theorem numerals_plain (v : Int) (cs : List Char) :
    numerals .between (Numeral.digits v ++ ' ' :: cs) =
      (Numeral.digits v, false) :: numerals .between cs := by
  have hbracket : '[' ∉ Numeral.digits v := Numeral.not_mem_digits rfl (by decide)
  have hspace : ' ' ∉ Numeral.digits v := Numeral.not_mem_digits rfl (by decide)
  have hblank : ∀ c ∈ Numeral.digits v, Text.isBlank c = false :=
    fun c hc => Numeral.isBlank_of_mem_digits hc
  obtain ⟨c, ds, hdigits⟩ := List.exists_cons_of_ne_nil (Numeral.digits_ne_nil v)
  rw [hdigits] at hbracket hspace hblank ⊢
  have hc : c ≠ '[' := (List.ne_of_not_mem_cons hbracket).symm
  rw [List.cons_append, numerals, if_neg hc, hblank c List.mem_cons_self,
    if_neg Bool.false_ne_true, numerals_inside [c] (List.not_mem_of_not_mem_cons hspace)]
  rfl

theorem numerals_cellText (d : Debugger) (span a : Nat) (cs : List Char) :
    numerals .between ((d.cellText span a).toList ++ cs) =
      (Numeral.digits (d.machine.memory.get a), d.isCurrent span a) :: numerals .between cs := by
  have hclosing : ']' ∉ Numeral.digits (d.machine.memory.get a) :=
    Numeral.not_mem_digits rfl (by decide)
  rw [cellText, Text.toList_alignRight, List.append_assoc, numerals_replicate]
  cases d.isCurrent span a with
  | true =>
    have htext : ("[" ++ Numeral.render (d.machine.memory.get a) ++ "]").toList ++ cs =
        '[' :: (Numeral.digits (d.machine.memory.get a) ++ ']' :: cs) := by
      simp [Numeral.render]
    rw [if_pos rfl, htext, numerals, if_pos rfl, numerals_inside [] hclosing]
    rfl
  | false =>
    have htext : (" " ++ Numeral.render (d.machine.memory.get a) ++ " ").toList ++ cs =
        List.replicate 1 ' ' ++ (Numeral.digits (d.machine.memory.get a) ++ ' ' :: cs) := by
      simp [Numeral.render]
    rw [if_neg Bool.false_ne_true, htext, numerals_replicate, numerals_plain]

example : numerals .between ['[', '9', '9', ']', '[', '-', '1', ']', ' ', ' ', '0', ' '] =
    [(['9', '9'], true), (['-', '1'], true), (['0'], false)] := rfl

theorem numerals_cellTexts (d : Debugger) (span : Nat) (row : List Nat) :
    numerals .between (("".intercalate (row.map (d.cellText span))).toList ++ ['\n']) =
      row.map fun a => (Numeral.digits (d.machine.memory.get a), d.isCurrent span a) := by
  induction row with
  | nil => rfl
  | cons a row ih =>
    rw [List.map_cons, Text.intercalate_empty_cons, String.toList_append, List.append_assoc,
      numerals_cellText, ih, List.map_cons]

/-! ### Rows -/

theorem readCells?_range' {n : Nat}
    (h : ∀ b ∈ List.range' a n, Numeral.Writable (d.machine.memory.get b)) :
    readCells? a ((List.range' a n).map fun b =>
        (Numeral.digits (d.machine.memory.get b), d.isCurrent span b)) =
      some ((List.range' a n).map (d.shownCell span)) := by
  induction n generalizing a with
  | zero => rfl
  | succ n ih =>
    rw [List.range'_succ] at h ⊢
    obtain ⟨ha, hrest⟩ := List.forall_mem_cons.mp h
    have hcast : ((a + 1 : Nat) : Int) = (a : Int) + 1 := rfl
    have hnext := ih hrest
    rw [hcast] at hnext
    rw [List.map_cons, readCells?, Numeral.parseLoose?_digits ha]
    simp only [Option.bind_eq_bind, Option.bind_some, hnext]
    rfl

theorem readRow?_range' {n : Nat} (ha : Numeral.Writable a)
    (h : ∀ b ∈ List.range' a (n + 1), Numeral.Writable (d.machine.memory.get b)) :
    readRow? (d.rowLine span (List.range' a (n + 1))) =
      some ((List.range' a (n + 1)).map (d.shownCell span)) := by
  have hcolon : ':' ∉ Numeral.digits a := Numeral.not_mem_digits rfl (by decide)
  have hfront : ∀ c ∈ List.replicate (6 - (Numeral.render a).length) ' ' ++ Numeral.digits a,
      (c != ':') = true := by
    intro c hc
    refine bne_iff_ne.mpr ?_
    rintro rfl
    rcases List.mem_append.mp hc with hc | hc
    · cases List.eq_of_mem_replicate hc
    · exact hcolon hc
  have htext : d.rowLine span (List.range' a (n + 1)) =
      (List.replicate (6 - (Numeral.render a).length) ' ' ++ Numeral.digits a) ++
        ':' :: (List.replicate 1 ' ' ++
          (("".intercalate ((List.range' a (n + 1)).map (d.cellText span))).toList ++ ['\n'])) := by
    rw [rowLine, rowText, String.toList_append, String.toList_append, Text.toList_alignRight]
    simp [Numeral.render, List.range'_succ]
  have htrim : Text.trim (Numeral.digits a) = Numeral.digits a :=
    Text.trim_eq_self fun c hc => Numeral.isBlank_of_mem_digits hc
  rw [readRow?, htext, List.takeWhile_append_of_pos hfront, List.dropWhile_append_of_pos hfront,
    List.takeWhile_cons_of_neg (by decide), List.dropWhile_cons_of_neg (by decide),
    List.append_nil, Text.trim_replicate, htrim, Numeral.parseLoose?_digits ha]
  exact (congrArg (readCells? a) (numerals_cellTexts d span _)).trans (readCells?_range' h)

/-! ### Windows -/

theorem oneLine_registersText (d : Debugger) (i : Option Instruction) :
    Text.OneLine (d.registersText i) := by
  have hname : Text.OneLine ((i.map Instruction.mnemonic).getD "??") := by
    cases i with
    | none => exact Text.oneLine_literal rfl
    | some i => exact Operation.oneLine_mnemonic i.operation
  simp only [registersText, Text.oneLine_append, Numeral.oneLine_render, hname, and_true]
  refine ⟨⟨⟨?_, ?_⟩, ?_⟩, ?_⟩ <;> exact Text.oneLine_literal rfl

theorem oneLine_cellText (d : Debugger) (span a : Nat) : Text.OneLine (d.cellText span a) := by
  have hv := Numeral.oneLine_render (d.machine.memory.get a)
  refine Text.oneLine_alignRight 10 ?_
  split
  · exact Text.oneLine_append.mpr ⟨Text.oneLine_append.mpr ⟨by decide, hv⟩, by decide⟩
  · exact Text.oneLine_append.mpr ⟨Text.oneLine_append.mpr ⟨by decide, hv⟩, by decide⟩

theorem oneLine_rowText (d : Debugger) (span : Nat) (row : List Nat) :
    Text.OneLine (d.rowText span row) := by
  have hfirst := Text.oneLine_alignRight 6 (Numeral.oneLine_render (row.headD 0))
  refine Text.oneLine_append.mpr ⟨Text.oneLine_append.mpr ⟨hfirst, by decide⟩, ?_⟩
  refine Text.oneLine_intercalate_empty fun l hl => ?_
  obtain ⟨a, -, rfl⟩ := List.mem_map.mp hl
  exact oneLine_cellText d span a

theorem readRow?_rowLine {row : List Nat} (hrow : row ∈ d.windowRows)
    (h : ∀ v ∈ d.windowNumbers, Numeral.Writable v) :
    readRow? (d.rowLine span row) = some (row.map (d.shownCell span)) := by
  have hnumbers : ∀ v ∈ ((row.headD 0 : Nat) : Int) :: row.map d.machine.memory.get,
      Numeral.Writable v :=
    fun v hv => h v (List.mem_flatMap.mpr ⟨row, hrow, hv⟩)
  obtain ⟨ha, hcells⟩ := List.forall_mem_cons.mp hnumbers
  rw [List.forall_mem_map] at hcells
  obtain ⟨r, -, rfl⟩ := List.mem_map.mp hrow
  exact readRow?_range' ha hcells

theorem mapM_rowLine {rows : List (List Nat)}
    (h : ∀ row ∈ rows, readRow? (d.rowLine span row) = some (row.map (d.shownCell span))) :
    (rows.map (d.rowLine span)).mapM readRow? =
      some (rows.map fun row => row.map (d.shownCell span)) := by
  induction rows with
  | nil => rfl
  | cons row rows ih =>
    obtain ⟨hrow, hrows⟩ := List.forall_mem_cons.mp h
    rw [List.map_cons, List.mapM_cons, hrow, ih hrows]
    rfl

/-- The rows of the window are the lines between the registers and the heading of the trace. -/
theorem feedLines_screenLines {i : Option Instruction}
    (hspan : (i.map Instruction.length).getD 1 = span) :
    ∃ rest, (Text.feedLines ("\n".intercalate (d.screenLines i)).toList).tail =
      d.windowRows.map (d.rowLine span) ++ traceHeading :: rest := by
  obtain ⟨rest, hne, hscreen⟩ : ∃ rest : List String, rest ≠ [] ∧ d.screenLines i =
      (d.registersText i :: (d.windowRows.map (d.rowText span) ++ ["Trace:"])) ++ rest := by
    refine ⟨d.recentTrace.map entryText ++
      (["Output: " ++ ",".intercalate (d.outputs.toList.map Numeral.render)] ++ d.statusLines),
      by simp, ?_⟩
    simp [screenLines, hspan]
  have hlines : ∀ l ∈ d.registersText i :: (d.windowRows.map (d.rowText span) ++ ["Trace:"]),
      Text.OneLine l := by
    refine List.forall_mem_cons.mpr ⟨oneLine_registersText d i, fun l hl => ?_⟩
    rcases List.mem_append.mp hl with hl | hl
    · obtain ⟨row, -, rfl⟩ := List.mem_map.mp hl
      exact oneLine_rowText d span row
    · rw [List.mem_singleton.mp hl]
      decide
  refine ⟨Text.feedLines ("\n".intercalate rest).toList, ?_⟩
  rw [hscreen, Text.feedLines_intercalate hlines hne, List.map_cons, List.map_append,
    List.map_map, List.cons_append, List.tail_cons, List.append_assoc]
  rfl

theorem rowLine_ne_traceHeading {row : List Nat} {cells : List ShownCell}
    (h : readRow? (d.rowLine span row) = some cells) : (d.rowLine span row != traceHeading) = true := by
  have hnone : readRow? traceHeading = none := rfl
  refine bne_iff_ne.mpr fun heq => ?_
  rw [heq, hnone] at h
  cases h

/-- If the integers of the window can be written, a reader of the screen finds its cells. -/
theorem readWindow?_screenLines {i : Option Instruction}
    (h : ∀ v ∈ d.windowNumbers, Numeral.Writable v)
    (hspan : (i.map Instruction.length).getD 1 = span) :
    readWindow? ("\n".intercalate (d.screenLines i)) =
      some (d.windowRows.map fun row => row.map (d.shownCell span)) := by
  have hread : ∀ row ∈ d.windowRows,
      readRow? (d.rowLine span row) = some (row.map (d.shownCell span)) :=
    fun row hrow => readRow?_rowLine hrow h
  have hrows : ∀ l ∈ d.windowRows.map (d.rowLine span), (l != traceHeading) = true := by
    intro l hl
    obtain ⟨row, hrow, rfl⟩ := List.mem_map.mp hl
    exact rowLine_ne_traceHeading (hread row hrow)
  obtain ⟨rest, htail⟩ := feedLines_screenLines (d := d) hspan
  rw [readWindow?, htail, List.takeWhile_append_of_pos hrows,
    List.takeWhile_cons_of_neg (by decide), List.append_nil, mapM_rowLine hread]

end Debugger

end Intcode
