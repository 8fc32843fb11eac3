import Intcode.CommandLine
import Intcode.Proofs.NumeralRoundTrip

/-! # Streams of numerals

Integers can be given to a program on lines of a stream, one numeral on each. The stream may be one
of characters or one of bytes: a numeral is ASCII, so every character is one byte, which is read
back as the same character. Either way each read takes one line and gives the integer on it. -/

namespace Intcode

namespace Text
variable {α : Type} {p : α → Bool} {as bs : List α} {b : α} {cs ds : List Char}

theorem cutAfter_append_cons (has : ∀ a ∈ as, p a = false) (hb : p b = true) :
    cutAfter p (as ++ b :: bs) = (as ++ [b], bs) := by
  induction as with
  | nil => simp [cutAfter, hb]
  | cons a as ih =>
    have ha : p a = false := has a List.mem_cons_self
    have htail := ih fun x hx => has x (List.mem_cons_of_mem _ hx)
    simp [cutAfter, ha, htail]

theorem feedLines_append_feed (hcs : ∀ c ∈ cs, isFeed c = false) :
    feedLines (cs ++ '\n' :: ds) = (cs ++ ['\n']) :: feedLines ds := by
  induction cs with
  | nil => rfl
  | cons c cs ih =>
    have hc : isFeed c = false := hcs c List.mem_cons_self
    have htail := ih fun x hx => hcs x (List.mem_cons_of_mem _ hx)
    simp [feedLines, hc, htail, consLine]

/-- A blank at the end is trimmed off a text that has none. -/
theorem trim_concat {c : Char} (hcs : ∀ c ∈ cs, isBlank c = false) (hne : cs ≠ [])
    (hc : isBlank c = true) : trim (cs ++ [c]) = cs := by
  obtain ⟨d, ds, rfl⟩ := List.exists_cons_of_ne_nil hne
  have hfront : isBlank d = false := hcs d List.mem_cons_self
  have hback : ((d :: ds) ++ [c]).reverse.dropWhile isBlank = (d :: ds).reverse := by
    rw [List.reverse_append, List.reverse_singleton, List.singleton_append,
      List.dropWhile_cons_of_pos hc]
    obtain ⟨e, es, he⟩ := List.exists_cons_of_ne_nil
      (List.reverse_ne_nil_iff.mpr (List.cons_ne_nil d ds))
    have hmem : e ∈ d :: ds := by
      rw [← List.mem_reverse, he]
      exact List.mem_cons_self
    rw [he, List.dropWhile_cons_of_neg (by rw [hcs e hmem]; exact Bool.false_ne_true)]
  rw [trim, List.cons_append, List.dropWhile_cons_of_neg (by rw [hfront]; exact Bool.false_ne_true),
    ← List.cons_append, hback, List.reverse_reverse]

/-! ### ASCII as bytes -/

def Ascii (c : Char) : Prop := c.toNat < 0x80

def byteOfChar (c : Char) : UInt8 := UInt8.ofNat c.toNat

theorem charOfByte_byteOfChar {c : Char} (h : Ascii c) : charOfByte (byteOfChar c) = c := by
  have hb : (byteOfChar c).toNat = c.toNat := by
    simp only [byteOfChar, UInt8.toNat_ofNat']
    unfold Ascii at h
    omega
  have hlt : byteOfChar c < 0x80 := by
    rw [UInt8.lt_iff_toNat_lt, hb]
    exact h
  rw [charOfByte, if_pos hlt, hb, Char.ofNat_toNat]

theorem ofAscii_map_byteOfChar (h : ∀ c ∈ cs, Ascii c) : ofAscii (cs.map byteOfChar) = cs := by
  rw [ofAscii, List.map_map]
  refine (List.map_congr_left fun c hc => ?_).trans (List.map_id cs)
  exact charOfByte_byteOfChar (h c hc)

theorem utf8EncodeChar_of_ascii {c : Char} (h : Ascii c) :
    String.utf8EncodeChar c = [byteOfChar c] := by
  have hle : c.val.toNat ≤ 127 := Nat.le_of_lt_succ h
  simp only [String.utf8EncodeChar, if_pos hle]
  rfl

theorem toList_eq_data (bytes : ByteArray) : bytes.toList = bytes.data.toList := by
  have hloop : ∀ i r, ByteArray.toList.loop bytes i r = r.reverse ++ bytes.data.toList.drop i := by
    intro i r
    induction i, r using ByteArray.toList.loop.induct bytes with
    | case1 i r hi ih =>
      have hlt : i < bytes.data.toList.length := hi
      rw [ByteArray.toList.loop, if_pos hi, ih, List.drop_eq_getElem_cons hlt, List.reverse_cons,
        List.append_assoc]
      have hget : bytes.get! i = bytes.data.toList[i] := by
        simp [ByteArray.get!, getElem!_pos bytes.data i hi]
      rw [hget]
      rfl
    | case2 i r hi =>
      have hle : bytes.data.toList.length ≤ i := Nat.not_lt.mp hi
      rw [ByteArray.toList.loop, if_neg hi, List.drop_eq_nil_of_le hle, List.append_nil]
  exact (hloop 0 []).trans rfl

theorem flatMap_utf8EncodeChar (h : ∀ c ∈ cs, Ascii c) :
    cs.flatMap String.utf8EncodeChar = cs.map byteOfChar := by
  induction cs with
  | nil => rfl
  | cons c cs ih =>
    rw [List.flatMap_cons, utf8EncodeChar_of_ascii (h c List.mem_cons_self),
      ih fun d hd => h d (List.mem_cons_of_mem _ hd)]
    rfl

theorem toUTF8_of_ascii (h : ∀ c ∈ cs, Ascii c) :
    (String.ofList cs).toUTF8.toList = cs.map byteOfChar := by
  have hdata : (String.ofList cs).toUTF8 = (cs.flatMap String.utf8EncodeChar).toByteArray := rfl
  rw [toList_eq_data, hdata, List.toList_data_toByteArray, flatMap_utf8EncodeChar h]

end Text

namespace Numeral
variable {v : Int} {c : Char}

/-- The line that holds `v`. -/
def line (v : Int) : List Char := digits v ++ ['\n']

theorem ofList_line (v : Int) : String.ofList (line v) = render v ++ "\n" := by
  rw [line, String.ofList_append]
  rfl

theorem isFeed_of_mem_digits (h : c ∈ digits v) : Text.isFeed c = false := by
  have hblank : Text.isBlank c = false := isBlank_of_mem_digits h
  refine beq_eq_false_iff_ne.mpr ?_
  rintro rfl
  exact absurd hblank (by decide)

theorem ascii_of_mem_digits (h : c ∈ digits v) : Text.Ascii c := by
  unfold Text.Ascii
  rcases eq_minus_or_isDigit_of_mem_digits h with rfl | h
  · decide
  · have h57 : 48 ≤ c.toNat ∧ c.toNat ≤ 57 := Char.isDigit_iff_toNat.mp h
    omega

theorem ascii_of_mem_line (h : c ∈ line v) : Text.Ascii c := by
  rcases List.mem_append.mp h with h | h
  · exact ascii_of_mem_digits h
  · rw [List.mem_singleton.mp h]
    show ('\n' : Char).toNat < 0x80
    decide

/-- The first line is cut off in front of any text. -/
theorem cutAfter_line (v : Int) (cs : List Char) :
    Text.cutAfter Text.isFeed (line v ++ cs) = (line v, cs) := by
  rw [line, List.append_assoc]
  exact Text.cutAfter_append_cons (fun c hc => isFeed_of_mem_digits hc) rfl

theorem cutAfter_line_bytes (v : Int) (bytes : List UInt8) :
    Text.cutAfter (· == 0x0a) ((line v).map Text.byteOfChar ++ bytes) =
      ((line v).map Text.byteOfChar, bytes) := by
  have hdigits : ∀ b ∈ (digits v).map Text.byteOfChar, (b == 0x0a) = false := by
    intro b hb
    obtain ⟨c, hc, rfl⟩ := List.mem_map.mp hb
    refine beq_eq_false_iff_ne.mpr fun hfeed => ?_
    -- the byte of a line feed is read back as a line feed
    have hback := Text.charOfByte_byteOfChar (ascii_of_mem_digits hc)
    rw [hfeed] at hback
    have hnl : c = '\n' := hback.symm
    have hne : Text.isFeed c = false := isFeed_of_mem_digits hc
    rw [hnl] at hne
    cases hne
  rw [line, List.map_append, List.append_assoc]
  exact Text.cutAfter_append_cons hdigits rfl

theorem integer_line (h : Word.InRange v) : Input.integer (line v) = .ok v := by
  have htrim : Text.trim (line v) = digits v :=
    Text.trim_concat (fun c hc => isBlank_of_mem_digits hc) (digits_ne_nil v) rfl
  rw [Input.integer, htrim, parse_digits h]

/-- An integer of the 64-bit range has few enough digits to be written. -/
theorem writable_of_inRange (h : Word.InRange v) : Writable v :=
  (writable_iff_length_toDigits v).mpr (length_toDigits_of_inRange h)

/-- Lines of numerals are found again in the text that they make up. -/
theorem feedLines_lines (vs : List Int) : Text.feedLines (vs.flatMap line) = vs.map line := by
  induction vs with
  | nil => rfl
  | cons v vs ih =>
    have hsplit : line v ++ vs.flatMap line = digits v ++ '\n' :: vs.flatMap line := by
      rw [line, List.append_assoc]
      rfl
    rw [List.flatMap_cons, hsplit,
      Text.feedLines_append_feed fun c hc => isFeed_of_mem_digits hc, ih]
    rfl

end Numeral

namespace CommandLine.Streams
variable {v : Int} {vs : List Int}

/-- The standard input with one line for each value. -/
def feed (streams : Streams) (vs : List Int) : Stream :=
  streams.reader (String.ofList (vs.flatMap Numeral.line))

theorem ascii_of_mem_lines {c : Char} (h : c ∈ vs.flatMap Numeral.line) : Text.Ascii c := by
  obtain ⟨v, -, hc⟩ := List.mem_flatMap.mp h
  exact Numeral.ascii_of_mem_line hc

theorem feed_bytes (vs : List Int) :
    feed .bytes vs = .bytes ((vs.flatMap Numeral.line).map Text.byteOfChar) :=
  congrArg Stream.bytes
    ((List.append_nil _).trans (Text.toUTF8_of_ascii fun _ hc => ascii_of_mem_lines hc))

theorem feed_text (vs : List Int) : feed .text vs = .text (vs.flatMap Numeral.line) :=
  congrArg Stream.text String.toList_ofList

theorem readLine_feed_nil (streams : Streams) :
    (streams.feed []).readLine = .ok ([], streams.feed []) := by
  cases streams with
  | bytes =>
    rw [feed_bytes]
    rfl
  | text =>
    rw [feed_text]
    rfl

theorem readLine_feed_cons (streams : Streams) (v : Int) (vs : List Int) :
    (streams.feed (v :: vs)).readLine = .ok (Numeral.line v, streams.feed vs) := by
  cases streams with
  | bytes =>
    have hback : Text.ofAscii ((Numeral.line v).map Text.byteOfChar) = Numeral.line v :=
      Text.ofAscii_map_byteOfChar fun c hc => Numeral.ascii_of_mem_line hc
    rw [feed_bytes, feed_bytes, List.flatMap_cons, List.map_append, Stream.readLine,
      Numeral.cutAfter_line_bytes]
    simp only [hback]
  | text =>
    rw [feed_text, feed_text, List.flatMap_cons, Stream.readLine, Numeral.cutAfter_line]

end CommandLine.Streams

end Intcode
