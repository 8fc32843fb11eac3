import Intcode.CommandLine
import Intcode.Proofs.NumeralStream
import Intcode.Proofs.SourceTokens
import Intcode.Source.Loading

/-! # All ways of loading a source agree

A source of ASCII characters comes to the same program, or to the same fault, as a text, on a stream
of text or of bytes, and in a file, where line ends have been unified before it is cut into lines. A
byte outside ASCII is read as a character that no source holds, so it is never accepted. -/

namespace Intcode

namespace Text
variable {c : Char} {cs : List Char} {bytes : List UInt8} {b : UInt8}

/-! ### Line ends -/

/-- Whether a break is a carriage return, a line feed or both makes no difference to the lines. -/
theorem lines_unifyFeeds (cs : List Char) : lines (unifyFeeds cs) = lines cs := by
  have hfeed : ∀ cs, lines ('\n' :: cs) = [] :: lines cs := fun cs => by
    rw [lines_cons (apart_of_ne (by decide)), if_pos (by decide)]
  induction cs using unifyFeeds.induct with
  | case1 => rfl
  | case2 cs ih => rw [unifyFeeds, hfeed, ih, lines]
  | case3 c cs hpair ih =>
    have hcs : Apart [c] cs := apart_of_not_pair hpair
    rw [unifyFeeds, lines_cons hcs]
    · by_cases hc : c = '\r'
      · subst hc
        rw [if_pos rfl, hfeed, ih, if_pos (by decide)]
      · rw [if_neg hc, lines_cons (apart_of_ne hc), ih]
    · exact hpair

/-! ### ASCII is UTF-8 -/

theorem charOfByte_of_lt (h : b < 0x80) : charOfByte b = Char.ofNat b.toNat := if_pos h

theorem toNat_charOfByte (h : b < 0x80) : (charOfByte b).toNat = b.toNat := by
  have hlt : b.toNat < 0x80 := UInt8.lt_iff_toNat_lt.mp h
  have hvalid : b.toNat.isValidChar := .inl (by omega)
  rw [charOfByte_of_lt h, Char.ofNat, dif_pos hvalid]
  rfl

theorem byteOfChar_charOfByte (h : b < 0x80) : byteOfChar (charOfByte b) = b := by
  rw [byteOfChar, toNat_charOfByte h, UInt8.ofNat_toNat]

theorem ascii_of_mem_ofAscii (h : ∀ b ∈ bytes, b < 0x80) : ∀ c ∈ ofAscii bytes, Ascii c := by
  intro c hc
  obtain ⟨b, hb, rfl⟩ := List.mem_map.mp hc
  rw [Ascii, toNat_charOfByte (h b hb)]
  exact UInt8.lt_iff_toNat_lt.mp (h b hb)

theorem map_byteOfChar_ofAscii (h : ∀ b ∈ bytes, b < 0x80) :
    (ofAscii bytes).map byteOfChar = bytes := by
  rw [ofAscii, List.map_map]
  refine (List.map_congr_left fun b hb => ?_).trans (List.map_id bytes)
  exact byteOfChar_charOfByte (h b hb)

theorem ofUtf8?_toUTF8 (s : String) : ofUtf8? s.toUTF8 = some s.toList := by
  have hs : String.fromUTF8? s.toUTF8 = some s := dif_pos s.isValidUTF8
  rw [ofUtf8?, hs]
  rfl

theorem ofUtf8?_of_ascii (h : ∀ b ∈ bytes, b < 0x80) :
    ofUtf8? ⟨bytes.toArray⟩ = some (ofAscii bytes) := by
  have hbytes : (⟨bytes.toArray⟩ : ByteArray) = (String.ofList (ofAscii bytes)).toUTF8 := by
    have hlist := toUTF8_of_ascii (ascii_of_mem_ofAscii h)
    rw [toList_eq_data, map_byteOfChar_ofAscii h] at hlist
    exact ByteArray.ext (congrArg List.toArray hlist).symm
  rw [hbytes, ofUtf8?_toUTF8, String.toList_ofList]

/-! ### Blanks around a text -/

theorem mem_dropWhile_or {p : Char → Bool} (h : c ∈ cs) : p c = true ∨ c ∈ cs.dropWhile p := by
  induction cs with
  | nil => cases h
  | cons d cs ih =>
    rw [List.dropWhile_cons]
    split
    · next hd =>
      rcases List.mem_cons.mp h with rfl | h
      · exact .inl hd
      · exact ih h
    · exact .inr h

/-- Only blanks are taken off. -/
theorem mem_trim_or (h : c ∈ cs) : isBlank c = true ∨ c ∈ trim cs := by
  rcases mem_dropWhile_or h with h | h
  · exact .inl h
  · rw [trim, List.mem_reverse]
    exact mem_dropWhile_or (List.mem_reverse.mpr h)

theorem mem_splitOnP_or {p : Char → Bool} (h : c ∈ cs) :
    p c = true ∨ ∃ part ∈ cs.splitOnP p, c ∈ part := by
  induction cs with
  | nil => cases h
  | cons d cs ih =>
    obtain ⟨q, qs, hq⟩ := List.exists_cons_of_ne_nil (List.splitOnP_ne_nil p cs)
    rw [hq] at ih
    rw [List.splitOnP_cons_eq_if_modifyHead, hq]
    split
    · next hd =>
      rcases List.mem_cons.mp h with rfl | h
      · exact .inl hd
      · exact (ih h).imp_right fun ⟨part, hpart, hc⟩ => ⟨part, List.mem_cons_of_mem _ hpart, hc⟩
    · rw [List.modifyHead_cons]
      rcases List.mem_cons.mp h with rfl | h
      · exact .inr ⟨_, List.mem_cons_self, List.mem_cons_self⟩
      · refine (ih h).imp_right fun ⟨part, hpart, hc⟩ => ?_
        rcases List.mem_cons.mp hpart with rfl | hpart
        · exact ⟨_, List.mem_cons_self, List.mem_cons_of_mem _ hc⟩
        · exact ⟨part, List.mem_cons_of_mem _ hpart, hc⟩

end Text

/-! ### What an accepted source consists of -/

theorem Numeral.mem_of_splitSign {c : Char} {cs : List Char} (h : c ∈ cs) :
    c = '-' ∨ c = '+' ∨ c ∈ (splitSign cs).2 := by
  unfold splitSign
  split
  · exact (List.mem_cons.mp h).imp_right .inr
  · exact .inr (List.mem_cons.mp h)
  · exact .inr (.inr h)

theorem Numeral.mem_of_parse {c : Char} {cs : List Char} {v : Int} (h : parse cs = .ok v)
    (hc : c ∈ cs) : c = '-' ∨ c = '+' ∨ c.isDigit = true := by
  refine (mem_of_splitSign hc).imp_right fun hc => hc.imp_right fun hc => ?_
  simp only [parse] at h
  split at h
  · cases h
  · next hdigits =>
    rw [Bool.or_eq_true, not_or, Bool.not_eq_true', Bool.not_eq_false] at hdigits
    exact List.all_eq_true.mp hdigits.2 c hc

namespace Source
open Text (isBlank ofAscii)
variable {c : Char} {text : List Char} {vs : List Int} {bytes : List UInt8} {t : List Char}

theorem parse_unifyFeeds (text : List Char) : parse (Text.unifyFeeds text) = parse text := by
  rw [parse, parse, numberedFields, numberedFields, Text.lines_unifyFeeds]

theorem accepted_of_mem {ε α β : Type} {f : α → Except ε β} {ts : List α} {us : List β} {s : α}
    (h : List.Forall₂ (fun t v => f t = .ok v) ts us) (hs : s ∈ ts) : ∃ v, f s = .ok v := by
  induction h with
  | nil => cases hs
  | cons hv _ ih =>
    rcases List.mem_cons.mp hs with rfl | hs
    · exact ⟨_, hv⟩
    · exact ih hs

theorem numeral_of_mem_texts (h : parse text = .ok vs) (ht : t ∈ texts text) :
    ∃ v, Numeral.parse t = .ok v := by
  have htexts : (texts text).mapM readText = .ok vs := by
    rw [← mapError_parse, h]
    rfl
  obtain ⟨v, hv⟩ := accepted_of_mem (mapM_eq_ok_iff.mp htexts) ht
  rw [readText] at hv
  cases hp : Numeral.parse t with
  | ok u => exact ⟨u, rfl⟩
  | error f =>
    rw [hp] at hv
    cases hv

/-- No other characters stand in a source that is accepted than separators, blanks, signs and
digits. -/
theorem mem_of_parse (h : parse text = .ok vs) (hc : c ∈ text) :
    Separates c ∨ isBlank c = true ∨ c = '-' ∨ c = '+' ∨ c.isDigit = true := by
  rcases Text.mem_splitOnP_or (p := fun c => decide (Separates c)) hc with hsep | ⟨part, hpart, hc⟩
  · exact .inl (of_decide_eq_true hsep)
  rcases Text.mem_trim_or hc with hblank | hc
  · exact .inr (.inl hblank)
  have hne : (!(Text.trim part).isEmpty) = true := by
    rw [Bool.not_eq_true', List.isEmpty_eq_false_iff]
    exact List.ne_nil_of_mem hc
  have hmem : Text.trim part ∈ texts text :=
    List.mem_filter.mpr ⟨List.mem_map_of_mem hpart, hne⟩
  obtain ⟨v, hv⟩ := numeral_of_mem_texts h hmem
  exact .inr (.inr (Numeral.mem_of_parse hv hc))

theorem refused_of_replacement (h : '\ufffd' ∈ text) : ∃ f, parse text = .error f := by
  cases hp : parse text with
  | error f => exact ⟨f, rfl⟩
  | ok vs =>
    rcases mem_of_parse hp h with hsep | hblank | hminus | hplus | hdigit
    · exact absurd hsep (by decide)
    · exact absurd hblank (by decide)
    · exact absurd hminus (by decide)
    · exact absurd hplus (by decide)
    · exact absurd hdigit (by decide)

theorem read_bytes (bytes : List UInt8) : read (.bytes bytes) = .ok (parse (ofAscii bytes)) := rfl

theorem read_text (text : List Char) : read (.text text) = .ok (parse text) := rfl

theorem replacement_mem_ofAscii {b : UInt8} (hb : b ∈ bytes) (h : 0x80 ≤ b) :
    '\ufffd' ∈ ofAscii bytes :=
  List.mem_map.mpr ⟨b, hb, if_neg (UInt8.not_lt.mpr h)⟩

end Source

/-! ### The ways of loading -/

open Text (ofAscii)

theorem Machine.ofFile?_of_decoded {bytes : ByteArray} {text : List Char}
    (h : Text.ofUtf8? bytes = some text) : ofFile? bytes = some (.ok (ofSource text)) := by
  rw [ofFile?, Stream.ofFile?, h]
  show some (Except.ok ((Source.parse (Text.unifyFeeds text)).map load)) = _
  rw [Source.parse_unifyFeeds, ofSource]

/-- What becomes of a machine or a fault when a command loads a file. -/
def CommandLine.loaded : Except LoadFault Machine → Except Outcome Machine
  | .ok m => .ok m
  | .error f => .error (.failed f.report.message)

theorem CommandLine.loadFile_of_decoded {name : String} {bytes : ByteArray} {text : List Char}
    (hname : '\x00' ∉ name.toList) (h : Text.ofUtf8? bytes = some text) :
    loadFile name (.ok bytes) = loaded (Machine.ofSource text) := by
  have hnul : ¬ name.toList.contains '\x00' = true := by simpa using hname
  rw [loadFile, if_neg hnul]
  simp only [h, Source.parse_unifyFeeds, Machine.ofSource]
  cases Source.parse text <;> rfl

/-- A source of ASCII bytes comes to the same cells, or to the same fault, off a stream of bytes and
off a stream of text, and to the same machine, or to that fault, from its text and from a file, which
is also what a command loads. With a byte outside ASCII among them, the bytes are refused. -/
theorem Source.loading_paths_agree (bytes : List UInt8) :
    ((∀ b ∈ bytes, b < 0x80) →
      read (.bytes bytes) = .ok (parse (ofAscii bytes)) ∧
      read (.text (ofAscii bytes)) = .ok (parse (ofAscii bytes)) ∧
      Machine.ofSource (ofAscii bytes) = (parse (ofAscii bytes)).map Machine.load ∧
      Machine.ofFile? ⟨bytes.toArray⟩ = some (.ok (Machine.ofSource (ofAscii bytes))) ∧
      ∀ name : String, '\x00' ∉ name.toList →
        CommandLine.loadFile name (.ok ⟨bytes.toArray⟩) =
          CommandLine.loaded (Machine.ofSource (ofAscii bytes))) ∧
    ((∃ b ∈ bytes, 0x80 ≤ b) → ∃ f, read (.bytes bytes) = .ok (.error f)) := by
  refine ⟨fun h => ?_, fun ⟨b, hb, h⟩ => ?_⟩
  · have hdecoded := Text.ofUtf8?_of_ascii h
    exact ⟨read_bytes bytes, read_text _, rfl, Machine.ofFile?_of_decoded hdecoded,
      fun name hname => CommandLine.loadFile_of_decoded hname hdecoded⟩
  · obtain ⟨f, hf⟩ := refused_of_replacement (replacement_mem_ofAscii hb h)
    exact ⟨f, by rw [read_bytes, hf]⟩

/-- Lines that end in all three ways, with a text that is no numeral on the fourth one; and a numeral
with a byte outside ASCII behind it. -/
theorem Source.loading_paths_agree_mixed :
    read (.bytes [0x31, 0x0d, 0x32, 0x0a, 0x33, 0x0d, 0x0a, 0x78]) = .ok (.error ⟨"x", 4⟩) ∧
    read (.text "1\r2\n3\r\nx".toList) = .ok (.error ⟨"x", 4⟩) ∧
    Machine.ofSource "1\r2\n3\r\nx".toList = .error ⟨"x", 4⟩ ∧
    Machine.ofFile? ⟨#[0x31, 0x0d, 0x32, 0x0a, 0x33, 0x0d, 0x0a, 0x78]⟩ =
      some (.ok (.error ⟨"x", 4⟩)) ∧
    ∃ f, read (.bytes [0x31, 0xc3]) = .ok (.error f) := by
  have htext : ofAscii [0x31, 0x0d, 0x32, 0x0a, 0x33, 0x0d, 0x0a, 0x78] =
      "1\r2\n3\r\nx".toList := by decide
  have hparse : parse "1\r2\n3\r\nx".toList = .error ⟨"x", 4⟩ := rfl
  obtain ⟨hbytes, htexts, hsource, hfile, -⟩ :=
    (loading_paths_agree [0x31, 0x0d, 0x32, 0x0a, 0x33, 0x0d, 0x0a, 0x78]).1 (by simp)
  rw [htext, hparse] at hbytes htexts hsource
  rw [htext, hsource] at hfile
  exact ⟨hbytes, htexts, hsource, hfile,
    (loading_paths_agree [0x31, 0xc3]).2 ⟨0xc3, by decide, by decide⟩⟩

end Intcode
