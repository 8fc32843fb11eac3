import Intcode.Proofs.DeviceExchange
import Intcode.Proofs.RunHorizon
import Intcode.Proofs.SourceLoading
import Mathlib.Data.List.TakeWhile

/-! # A reader takes one line for each read

Reads on a stream, any number of them, one after the other. Each is given an output of its own,
which may refuse the prompt at any time. A read whose prompt is refused leaves the stream alone; every
other one takes the next line, whether there is an integer on it or not, and finds the end of the
input when there is no line left. So no line is lost, and none is read in part or together with
another one. -/

namespace Intcode

namespace Text
variable {α : Type} {p : α → Bool} {as : List α} {lines : List (List α)}

/-- The lines of some elements: each ends with an element that satisfies `p` and has no other one,
and of the last one this end may be missing. -/
inductive LinesOf (p : α → Bool) : List α → List (List α) → Prop
  | none : LinesOf p [] []
  | unended {body : List α} (hbody : ∀ a ∈ body, p a = false) (hne : body ≠ []) :
    LinesOf p body [body]
  | ended {body rest : List α} {feed : α} {lines : List (List α)} (hbody : ∀ a ∈ body, p a = false)
    (hfeed : p feed = true) (hrest : LinesOf p rest lines) :
    LinesOf p (body ++ feed :: rest) ((body ++ [feed]) :: lines)

theorem LinesOf.flatten (h : LinesOf p as lines) : lines.flatten = as := by
  induction h with
  | none => rfl
  | @unended body => exact List.append_nil body
  | @ended body rest feed lines _ _ _ ih =>
    rw [List.flatten_cons, ih, List.append_assoc, List.singleton_append]

theorem LinesOf.ne_nil (h : LinesOf p as lines) : ∀ line ∈ lines, line ≠ [] := by
  induction h with
  | none => exact List.forall_mem_nil _
  | unended _ hne => exact List.forall_mem_cons.mpr ⟨hne, List.forall_mem_nil _⟩
  | ended _ _ _ ih =>
    exact List.forall_mem_cons.mpr ⟨List.append_ne_nil_of_right_ne_nil _ (List.cons_ne_nil _ _), ih⟩

theorem cutAfter_of_forall (h : ∀ a ∈ as, p a = false) : cutAfter p as = (as, []) := by
  induction as with
  | nil => rfl
  | cons a as ih =>
    have ha : p a = false := h a List.mem_cons_self
    have htail := ih fun x hx => h x (List.mem_cons_of_mem _ hx)
    simp [cutAfter, ha, htail]

/-- Where the elements are cut there is the first line. -/
theorem LinesOf.cutAfter (h : LinesOf p as lines) :
    cutAfter p as = (lines.headD [], lines.tail.flatten) ∧
      LinesOf p lines.tail.flatten lines.tail := by
  cases h with
  | none => exact ⟨rfl, .none⟩
  | unended hbody => exact ⟨cutAfter_of_forall hbody, .none⟩
  | ended hbody hfeed hrest =>
    rw [List.tail_cons, hrest.flatten]
    exact ⟨cutAfter_append_cons hbody hfeed, hrest⟩

/-- Elements have their lines in one way only. -/
theorem LinesOf.unique {lines' : List (List α)} (h : LinesOf p as lines)
    (h' : LinesOf p as lines') : lines' = lines := by
  induction lines generalizing as lines' with
  | nil =>
    cases lines' with
    | nil => rfl
    | cons line' rest' =>
      have hflat := h'.flatten.trans h.flatten.symm
      rw [List.flatten_cons, List.flatten_nil, List.append_eq_nil_iff] at hflat
      exact absurd hflat.1 (h'.ne_nil line' List.mem_cons_self)
  | cons line rest ih =>
    cases lines' with
    | nil =>
      have hflat := h.flatten.trans h'.flatten.symm
      rw [List.flatten_cons, List.flatten_nil, List.append_eq_nil_iff] at hflat
      exact absurd hflat.1 (h.ne_nil line List.mem_cons_self)
    | cons line' rest' =>
      obtain ⟨hcut, hrest⟩ := h.cutAfter
      obtain ⟨hcut', hrest'⟩ := h'.cutAfter
      rw [hcut] at hcut'
      simp only [List.headD_cons, List.tail_cons, Prod.mk.injEq] at hcut' hrest hrest'
      obtain ⟨rfl, hflat⟩ := hcut'
      rw [← hflat] at hrest'
      rw [ih hrest hrest']

theorem exists_linesOf (p : α → Bool) (as : List α) : ∃ lines, LinesOf p as lines := by
  induction as with
  | nil => exact ⟨[], .none⟩
  | cons a as ih =>
    obtain ⟨lines, h⟩ := ih
    cases ha : p a with
    | true =>
      have hfirst : LinesOf p ([] ++ a :: as) (([] ++ [a]) :: lines) := .ended nofun ha h
      exact ⟨_, hfirst⟩
    | false =>
      have hcons : ∀ body : List α, (∀ x ∈ body, p x = false) → ∀ x ∈ a :: body, p x = false :=
        fun body hbody => List.forall_mem_cons.mpr ⟨ha, hbody⟩
      cases h with
      | none => exact ⟨_, .unended (hcons [] nofun) (List.cons_ne_nil a [])⟩
      | unended hbody => exact ⟨_, .unended (hcons _ hbody) (List.cons_ne_nil a _)⟩
      | ended hbody hfeed hrest => exact ⟨_, .ended (hcons _ hbody) hfeed hrest⟩

/-- Blanks alone are no numeral. -/
theorem trim_of_forall {cs : List Char} (h : ∀ c ∈ cs, isBlank c = true) : trim cs = [] := by
  have hfront : cs.dropWhile isBlank = [] := List.dropWhile_eq_nil_iff.mpr h
  rw [trim, hfront]
  rfl

end Text

/-! ### Streams of characters and of bytes -/

/-- What a stream is made of: which element ends a line, and how a line of them is read. -/
structure Medium (α : Type) where
  stream : List α → Stream
  isFeed : α → Bool
  text : List α → List Char
  readLine_eq : ∀ as, (stream as).readLine =
    .ok (text (Text.cutAfter isFeed as).1, stream (Text.cutAfter isFeed as).2)
  text_eq_nil_iff : ∀ as, text as = [] ↔ as = []

namespace Medium

def characters : Medium Char where
  stream := .text
  isFeed := Text.isFeed
  text := id
  readLine_eq _ := rfl
  text_eq_nil_iff _ := Iff.rfl

def octets : Medium UInt8 where
  stream := .bytes
  isFeed b := b == 0x0a
  text := Text.ofAscii
  readLine_eq _ := rfl
  text_eq_nil_iff _ := List.map_eq_nil_iff

end Medium

/-! ### Prompts -/

/-- Prompts an output, which may refuse that. Only a writer is prompted at all. -/
def Output.prompted : EStateM String Output Unit
  | .writer w => viewResult .writer (Writer.put Devices.promptText w)
  | o => .ok () o

/-- Whether an output does not refuse a prompt. -/
def Output.willing (o : Output) : Bool :=
  match o.prompted with
  | .ok _ _ => true
  | .error _ _ => false

namespace Devices
variable {α : Type} {M : Medium α} {ahead : List (List α)} {o : Output}

theorem prompt_eq (d : Devices) : prompt d =
    match d.output.prompted with
    | .ok _ o => .ok () { d with output := o }
    | .error reason o => .error (.device .input (.promptFailed reason)) { d with output := o } := by
  cases ho : d.output with
  | writer w =>
    rw [prompt_of_writer ho, Output.prompted]
    unfold onWriter
    cases Writer.put promptText w <;> rfl
  | none | channel c | feedback =>
    rw [prompt_of_other (by rw [ho]; exact nofun), Output.prompted, ← ho]
    exact nofun

/-! ### One read -/

/-- What a read comes to on a reader with these lines ahead of it, with the output `o`. -/
structure TakesLine (M : Medium α) (ahead : List (List α)) (o : Output)
    (r : EStateM.Result Fault Devices (Option Int)) : Prop where
  refused : ∀ reason o', o.prompted = .error reason o' →
    r = .error (.device .input (.promptFailed reason)) ⟨.reader (M.stream ahead.flatten), o'⟩
  integer : ∀ o' line rest v, o.prompted = .ok () o' → ahead = line :: rest →
    Numeral.parse (Text.trim (M.text line)) = .ok v →
    r = .ok (some v) ⟨.reader (M.stream rest.flatten), o'⟩
  malformed : ∀ o' line rest f, o.prompted = .ok () o' → ahead = line :: rest →
    Numeral.parse (Text.trim (M.text line)) = .error f →
    r = .error (.device .input (.numeral f)) ⟨.reader (M.stream rest.flatten), o'⟩
  ended : ∀ o', o.prompted = .ok () o' → ahead = [] →
    r = .error (.device .input .endOfInput) ⟨.reader (M.stream []), o'⟩

theorem read_of_refused {stream : Stream} {reason : String} {o' : Output}
    (h : o.prompted = .error reason o') : read ⟨.reader stream, o⟩ =
      .error (.device .input (.promptFailed reason)) ⟨.reader stream, o'⟩ := by
  rw [read_of_reader rfl]
  refine bind_of_error ?_
  rw [prompt_eq]
  simp only [h]

theorem read_of_prompted {stream : Stream} {o' : Output} (h : o.prompted = .ok () o') :
    read ⟨.reader stream, o⟩ = (some <$> readLine stream) ⟨.reader stream, o'⟩ := by
  have hprompt : prompt ⟨.reader stream, o⟩ = .ok () ⟨.reader stream, o'⟩ := by
    rw [prompt_eq]
    simp only [h]
  rw [read_of_reader rfl, bind_of_ok hprompt, map_eq_pure_bind]

theorem readLine_nil (d : Devices) : readLine (M.stream []) d =
    .error (.device .input .endOfInput) { d with input := .reader (M.stream []) } := by
  rw [readLine_eq, M.readLine_eq, Text.cutAfter, (M.text_eq_nil_iff []).mpr rfl]
  rfl

theorem readLine_cons {line : List α} {rest : List (List α)}
    (h : Text.LinesOf M.isFeed (line :: rest).flatten (line :: rest)) (d : Devices) :
    readLine (M.stream (line :: rest).flatten) d =
      match Numeral.parse (Text.trim (M.text line)) with
      | .ok v => .ok v { d with input := .reader (M.stream rest.flatten) }
      | .error f => .error (.device .input (.numeral f))
          { d with input := .reader (M.stream rest.flatten) } := by
  have hline : (M.text line).isEmpty = false := by
    rw [List.isEmpty_eq_false_iff, Ne, M.text_eq_nil_iff]
    exact h.ne_nil line List.mem_cons_self
  rw [readLine_eq, M.readLine_eq, h.cutAfter.1]
  simp only [List.headD_cons, List.tail_cons, hline, Input.integer]
  cases Numeral.parse (Text.trim (M.text line)) <;> rfl

theorem takesLine_read (h : Text.LinesOf M.isFeed ahead.flatten ahead) (o : Output) :
    TakesLine M ahead o (read ⟨.reader (M.stream ahead.flatten), o⟩) := by
  constructor
  case refused => exact fun reason o' hreason => read_of_refused hreason
  case integer =>
    rintro o' line rest v ho rfl hv
    rw [read_of_prompted ho, map_eq_pure_bind]
    refine bind_of_ok ?_
    rw [readLine_cons h]
    simp only [hv]
  case malformed =>
    rintro o' line rest f ho rfl hf
    rw [read_of_prompted ho, map_eq_pure_bind]
    refine bind_of_error ?_
    rw [readLine_cons h]
    simp only [hf]
  case ended =>
    rintro o' ho rfl
    rw [read_of_prompted ho, map_eq_pure_bind]
    exact bind_of_error (readLine_nil _)

/-! ### Any number of reads -/

/-- What reads come to, one after the other from this input on, each with its own output. -/
def readings (input : Input) : List Output → List (EStateM.Result Fault Devices (Option Int))
  | [] => []
  | o :: outs => read ⟨input, o⟩ :: readings (finalState (read ⟨input, o⟩)).input outs

theorem input_takesLine {r : EStateM.Result Fault Devices (Option Int)}
    (h : TakesLine M ahead o r) : (finalState r).input =
      .reader (M.stream (if o.willing then ahead.tail else ahead).flatten) := by
  cases ho : o.prompted with
  | error reason o' =>
    rw [h.refused reason o' ho, Output.willing, ho]
    rfl
  | ok u o' =>
    rw [Output.willing, ho]
    cases hahead : ahead with
    | nil => rw [h.ended o' ho hahead]; rfl
    | cons line rest =>
      cases hparse : Numeral.parse (Text.trim (M.text line)) with
      | ok v => rw [h.integer o' line rest v ho hahead hparse]; rfl
      | error f => rw [h.malformed o' line rest f ho hahead hparse]; rfl

/-- Of the reads on a reader, each one finds the lines ahead of it that the earlier ones have left:
every one of these has taken a line, except where its prompt was refused. -/
theorem takesLine_readings (h : Text.LinesOf M.isFeed ahead.flatten ahead) (outs : List Output)
    (k : Nat) (hk : k < outs.length) :
    ∃ r, (readings (.reader (M.stream ahead.flatten)) outs)[k]? = some r ∧
      TakesLine M (ahead.drop ((outs.take k).countP Output.willing)) outs[k] r := by
  induction outs generalizing ahead k with
  | nil => exact absurd hk (Nat.not_lt_zero k)
  | cons o outs ih =>
    have hfirst := takesLine_read h o
    cases k with
    | zero => exact ⟨_, rfl, hfirst⟩
    | succ k =>
      have hk' : k < outs.length := Nat.lt_of_succ_lt_succ hk
      have hdrop : ahead.drop (((o :: outs).take (k + 1)).countP Output.willing) =
          (if o.willing then ahead.tail else ahead).drop
            ((outs.take k).countP Output.willing) := by
        rw [List.take_succ_cons, List.countP_cons]
        split
        · rw [List.drop_tail]
        · rw [Nat.add_zero]
      have hrest : Text.LinesOf M.isFeed (if o.willing then ahead.tail else ahead).flatten
          (if o.willing then ahead.tail else ahead) := by
        split
        · exact h.cutAfter.2
        · exact h
      rw [hdrop, readings, input_takesLine hfirst]
      exact ih hrest k hk'

/-- What reads on a reader of `content` come to, whatever outputs they are given. -/
structure ReadByLines (M : Medium α) (content : List α) (lines : List (List α)) : Prop where
  linesOf : Text.LinesOf M.isFeed content lines
  unique : ∀ lines', Text.LinesOf M.isFeed content lines' → lines' = lines
  whole : ∀ n, (lines.take n).flatten ++ (lines.drop n).flatten = content
  takes : ∀ (outs : List Output) (k : Nat) (hk : k < outs.length),
    ∃ r, (readings (.reader (M.stream content)) outs)[k]? = some r ∧
      TakesLine M (lines.drop ((outs.take k).countP Output.willing)) outs[k] r

theorem exists_readByLines (M : Medium α) (content : List α) :
    ∃ lines, ReadByLines M content lines := by
  obtain ⟨lines, h⟩ := Text.exists_linesOf M.isFeed content
  obtain rfl := h.flatten
  refine ⟨lines, h, fun lines' h' => h.unique h', fun n => ?_, takesLine_readings h⟩
  rw [← List.flatten_append, List.take_append_drop]

/-! ### Lines without an integer -/

theorem fails_of_blank {cs : List Char} (h : ∀ c ∈ cs, Text.isBlank c = true) :
    ∃ f, Numeral.parse (Text.trim cs) = .error f := by
  rw [Text.trim_of_forall h]
  exact ⟨_, rfl⟩

/-- A byte outside ASCII is read as a character that no numeral has. -/
theorem fails_of_high {bytes : List UInt8} (h : ∃ b ∈ bytes, 0x80 ≤ b) :
    ∃ f, Numeral.parse (Text.trim (Text.ofAscii bytes)) = .error f := by
  obtain ⟨b, hb, hhigh⟩ := h
  have hchar : Text.charOfByte b = '\ufffd' := if_neg (by simpa using hhigh)
  have hmem : '\ufffd' ∈ Text.ofAscii bytes := by
    rw [← hchar]
    exact List.mem_map_of_mem hb
  cases hparse : Numeral.parse (Text.trim (Text.ofAscii bytes)) with
  | error f => exact ⟨f, rfl⟩
  | ok v =>
    have htrim : '\ufffd' ∈ Text.trim (Text.ofAscii bytes) :=
      (Text.mem_trim_or hmem).resolve_left (by decide)
    exact absurd (Numeral.mem_of_parse hparse htrim) (by decide)

theorem prompted_writer {w : Writer} (h : (Output.writer w).prompted = .ok () o) :
    ∃ w', o = .writer w' ∧ w'.written = w.written ++ promptText := by
  cases hw : Writer.put promptText w with
  | error reason w' =>
    simp only [Output.prompted, hw] at h
    cases h
  | ok u w' =>
    simp only [Output.prompted, hw] at h
    cases h
    exact ⟨w', rfl, (Writer.put_ok hw).1⟩

theorem refused_writer {w : Writer} {reason : String}
    (h : (Output.writer w).prompted = .error reason o) :
    ∃ w', o = .writer w' ∧ (w' = w ∨ w'.written = w.written ++ promptText) := by
  cases hw : Writer.put promptText w with
  | error reason' w' =>
    simp only [Output.prompted, hw] at h
    cases h
    exact ⟨w', rfl, (Writer.put_error hw).imp_right And.left⟩
  | ok u w' =>
    simp only [Output.prompted, hw] at h
    cases h

theorem prompted_of_other (h : ∀ w, o ≠ .writer w) : o.prompted = .ok () o := by
  cases o with
  | writer w => exact absurd rfl (h w)
  | none | channel c | feedback => rfl

/-- Whatever a stream of characters or of bytes holds, it has lines in one way only, and reads take
these lines, one each and in their order, until there are none left; a read whose prompt is refused
takes none. A line is taken even if it holds no integer, as one of blanks does not, or one with a
byte outside ASCII. A prompt is written by writers and by no other output; one that is refused has
been written all the same if only the flush of the writer has failed. Whatever goes wrong is a fault
of the input device. -/
theorem reads_take_lines :
    (∀ content : List Char, ∃ lines, ReadByLines .characters content lines) ∧
    (∀ content : List UInt8, ∃ lines, ReadByLines .octets content lines) ∧
    (∀ line, (∀ c ∈ line, Text.isBlank c = true) →
      ∃ f, Numeral.parse (Text.trim line) = .error f) ∧
    (∀ line, (∃ b ∈ line, 0x80 ≤ b) →
      ∃ f, Numeral.parse (Text.trim (Text.ofAscii line)) = .error f) ∧
    (∀ w o, (Output.writer w).prompted = .ok () o →
      ∃ w', o = .writer w' ∧ w'.written = w.written ++ promptText) ∧
    (∀ w reason o, (Output.writer w).prompted = .error reason o →
      ∃ w', o = .writer w' ∧ (w' = w ∨ w'.written = w.written ++ promptText)) ∧
    (∀ o : Output, (∀ w, o ≠ .writer w) → o.prompted = .ok () o) ∧
    (∀ cause, (Fault.device .input cause).report = .device "Input" (cause.message .input)) ∧
    (Fault.device .input .endOfInput).message = "Input: end of input" := by
  have hreport : ∀ cause, (Fault.device .input cause).report =
      .device "Input" (cause.message .input) :=
    fun cause => if_pos (Fault.tellable_device .input cause)
  refine ⟨exists_readByLines .characters, exists_readByLines .octets, fun _ => fails_of_blank,
    fun _ => fails_of_high, fun _ _ => prompted_writer, fun _ _ _ => refused_writer,
    fun _ => prompted_of_other, hreport, ?_⟩
  rw [Fault.message, hreport]
  rfl

/-- A prompt that is refused, and then an integer, a byte that is none, and the end. -/
theorem reads_take_lines_high :
    let o : Output := .writer { remaining := some 0, reason := "disk full" }
    let rs := readings (.reader (.bytes [0x38, 0x0a, 0xff, 0x0a])) [o, .none, .none, .none]
    rs[0]? = some (.error (.device .input (.promptFailed "disk full"))
        ⟨.reader (.bytes [0x38, 0x0a, 0xff, 0x0a]), o⟩) ∧
      rs[1]? = some (.ok (some 8) ⟨.reader (.bytes [0xff, 0x0a]), .none⟩) ∧
      (∃ f, rs[2]? = some (.error (.device .input (.numeral f)) ⟨.reader (.bytes []), .none⟩)) ∧
      rs[3]? = some (.error (.device .input .endOfInput) ⟨.reader (.bytes []), .none⟩) := by
  intro o rs
  obtain ⟨-, hbytes, -, hhigh, -⟩ := reads_take_lines
  obtain ⟨lines, -, hunique, -, htakes⟩ := hbytes [0x38, 0x0a, 0xff, 0x0a]
  have hlines : Text.LinesOf Medium.octets.isFeed ([0x38] ++ 0x0a :: ([0xff] ++ 0x0a :: []))
      [[0x38, 0x0a], [0xff, 0x0a]] :=
    .ended (List.forall_mem_singleton.mpr rfl) rfl
      (.ended (List.forall_mem_singleton.mpr rfl) rfl .none)
  obtain rfl := hunique _ hlines
  have h := htakes [o, .none, .none, .none]
  obtain ⟨r₀, h₀, hr₀⟩ := h 0 (by decide)
  obtain ⟨r₁, h₁, hr₁⟩ := h 1 (by decide)
  obtain ⟨r₂, h₂, hr₂⟩ := h 2 (by decide)
  obtain ⟨r₃, h₃, hr₃⟩ := h 3 (by decide)
  obtain ⟨f, hf⟩ := hhigh [0xff, 0x0a] ⟨0xff, by decide, by decide⟩
  rw [hr₀.refused _ _ rfl] at h₀
  rw [hr₁.integer _ _ _ 8 rfl rfl (by decide)] at h₁
  rw [hr₂.malformed _ _ _ f rfl rfl hf] at h₂
  rw [hr₃.ended _ rfl rfl] at h₃
  exact ⟨h₀, h₁, ⟨f, h₂⟩, h₃⟩

end Devices

end Intcode
