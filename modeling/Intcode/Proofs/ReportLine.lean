import Intcode.Proofs.RunHorizon

/-! # Reports on one line

A report is told on a line of its own. Its message has no line feed in it: integers are digits,
and a text that comes from a file, from a name or from an input is quoted, and a quoted text shows
a line feed as an escape. Only the reason of a device's own has to be taken at its word. So the last
line of what a command tells is the whole of its report. -/

namespace Intcode

namespace Text
variable {s t : String} {cs ds : List Char}

theorem all_iff_oneLine : (s.toList.all (!isFeed ·)) = true ↔ OneLine s := by
  simp only [List.all_eq_true, Bool.not_eq_true']
  exact ⟨OneLine.mk, OneLine.noFeed⟩

instance : DecidablePred OneLine := fun _ => decidable_of_iff _ all_iff_oneLine

theorem oneLine_append : OneLine (s ++ t) ↔ OneLine s ∧ OneLine t := by
  simp only [← all_iff_oneLine, String.toList_append, List.all_append, Bool.and_eq_true]

theorem oneLine_ofList (h : ∀ c ∈ cs, isFeed c = false) : OneLine (String.ofList cs) := by
  constructor
  rwa [String.toList_ofList]

/-- A literal is the list of its characters, which need not be encoded and decoded to be looked at.
-/
theorem oneLine_literal (h : cs.all (!isFeed ·) = true) : OneLine (String.ofList cs) :=
  oneLine_ofList fun c hc => by simpa using List.all_eq_true.mp h c hc

/-! ### Quoted texts -/

theorem isFeed_of_mem_toDigits {n : Nat} {c : Char} (h : c ∈ Nat.toDigits 16 n) :
    isFeed c = false := by
  have hdigit : ∀ d < 16, isFeed d.digitChar = false := by decide
  induction n using Nat.strongRecOn with
  | ind n ih =>
    rw [Nat.toDigits_eq_if (by decide)] at h
    split at h
    · rename_i hn
      rw [List.mem_singleton.mp h]
      exact hdigit n hn
    · rename_i hn
      rcases List.mem_append.mp h with h | h
      · exact ih (n / 16) (Nat.div_lt_self (by omega) (by decide)) h
      · rw [List.mem_singleton.mp h]
        exact hdigit _ (Nat.mod_lt n (by decide))

theorem isFeed_of_mem_hexadecimal {width n : Nat} {c : Char} (h : c ∈ hexadecimal width n) :
    isFeed c = false := by
  rcases List.mem_append.mp h with h | h
  · rw [List.eq_of_mem_replicate h]
    rfl
  · exact isFeed_of_mem_toDigits h

/-- A line feed is written as two other characters. -/
theorem isFeed_of_mem_escape {mark a c : Char} (hmark : isFeed mark = false)
    (h : c ∈ escape mark a) : isFeed c = false := by
  have hpair : ∀ {b : Char}, isFeed b = false → c ∈ ['\\', b] → isFeed c = false := by
    intro b hb hc
    rcases List.mem_cons.mp hc with rfl | hc
    · rfl
    · rwa [List.mem_singleton.mp hc]
  have hcode : ∀ {b : Char} {width : Nat}, isFeed b = false →
      c ∈ ['\\', b] ++ hexadecimal width a.toNat → isFeed c = false := by
    intro b width hb hc
    rcases List.mem_append.mp hc with hc | hc
    · exact hpair hb hc
    · exact isFeed_of_mem_hexadecimal hc
  unfold escape at h
  split at h
  · rename_i ha
    rcases (Bool.or_eq_true _ _).mp ha with ha | ha
    · obtain rfl := of_decide_eq_true ha
      exact hpair hmark h
    · obtain rfl := of_decide_eq_true ha
      exact hpair rfl h
  · split at h
    · exact hpair rfl h
    · rename_i hfeed
      split at h
      · exact hpair rfl h
      · split at h
        · exact hpair rfl h
        · split at h
          · rw [List.mem_singleton.mp h]
            exact beq_eq_false_iff_ne.mpr hfeed
          · split at h
            · exact hcode rfl h
            · split at h
              · exact hcode rfl h
              · exact hcode rfl h

theorem oneLine_quote (text : String) : OneLine (quote text) := by
  have hmark : isFeed (quoteFor text.toList) = false := by
    unfold quoteFor
    split <;> rfl
  refine oneLine_ofList fun c hc => ?_
  rcases List.mem_cons.mp hc with rfl | hc
  · exact hmark
  · rcases List.mem_append.mp hc with hc | hc
    · obtain ⟨a, -, hc⟩ := List.mem_flatMap.mp hc
      exact isFeed_of_mem_escape hmark hc
    · rwa [List.mem_singleton.mp hc]

/-! ### The last line -/

/-- What stands behind whole lines begins a line. -/
theorem feedLines_append (h : Complete cs) :
    feedLines (cs ++ ds) = feedLines cs ++ feedLines ds := by
  rcases h with rfl | ⟨cs, rfl⟩
  · rfl
  · induction cs with
    | nil => rfl
    | cons c cs ih =>
      simp only [List.cons_append, feedLines, ih]
      split
      · rfl
      · have hne : feedLines (cs ++ ['\n']) ≠ [] := by
          intro hnil
          have hflat := flatten_feedLines (cs ++ ['\n'])
          rw [hnil] at hflat
          simp at hflat
        obtain ⟨l, ls, hl⟩ := List.exists_cons_of_ne_nil hne
        rw [hl]
        rfl

end Text

open Text (OneLine oneLine_append oneLine_literal oneLine_quote)

theorem Numeral.oneLine_render (v : Int) : OneLine (render v) :=
  Text.oneLine_ofList fun _ hc => isFeed_of_mem_digits hc

theorem Numeral.oneLine_toString (n : Nat) : OneLine (toString n) := by
  have h := oneLine_render n
  rwa [render, digits, if_neg (by omega)] at h

/-! ### Messages

The parts of a message that are not fixed are known to have no line feed; what is left of the
message is decided, literal by literal. -/

theorem Numeral.oneLine_unwritableMessage : OneLine unwritableMessage := by
  unfold unwritableMessage
  simp only [oneLine_append, oneLine_toString, and_true]
  exact ⟨oneLine_literal rfl, oneLine_literal rfl⟩

theorem NumeralFault.oneLine_message (f : NumeralFault) : OneLine f.message := by
  unfold message
  cases f with
  | malformed text | outOfRange text =>
    simp only [oneLine_append, oneLine_quote, and_true]
    exact oneLine_literal rfl
  | tooLong digits =>
    simp only [oneLine_append, Numeral.oneLine_toString, and_true]
    exact ⟨⟨oneLine_literal rfl, oneLine_literal rfl⟩, oneLine_literal rfl⟩

theorem ChannelFault.oneLine_message (f : ChannelFault) : OneLine f.message := by
  unfold message
  cases f with
  | sendClosed name | recvClosed name | timedOut name =>
    simp only [oneLine_append, oneLine_quote, and_true]
    exact oneLine_literal rfl

theorem Report.oneLine_position (cell : Int) (a : Option Int) : OneLine (position cell a) := by
  cases a with
  | none => exact ⟨nofun⟩
  | some a =>
    unfold position
    simp only [oneLine_append, Numeral.oneLine_render, and_true]
    exact ⟨⟨oneLine_literal rfl, oneLine_literal rfl⟩, oneLine_literal rfl⟩

theorem DecodeFault.oneLine_message (f : DecodeFault) : OneLine f.report.message := by
  cases f with
  | unknownOpcode cell a | unknownMode digit cell a =>
    unfold report Report.message
    simp only [oneLine_append, Numeral.oneLine_render, Report.oneLine_position, and_true]
    exact oneLine_literal rfl

theorem LoadFault.oneLine_message (f : LoadFault) : OneLine f.report.message := by
  unfold report Report.message
  simp only [oneLine_append, oneLine_quote, Numeral.oneLine_render, and_true]
  exact ⟨oneLine_literal rfl, oneLine_literal rfl⟩

theorem Side.oneLine_label (side : Side) : OneLine side.label := by
  cases side <;> exact oneLine_literal rfl

theorem DeviceCause.oneLine_message (side : Side) {cause : DeviceCause}
    (h : (Fault.device side cause).Plain) : OneLine (cause.message side) := by
  cases cause with
  | unconnected => cases side <;> exact oneLine_literal rfl
  | endOfInput => exact oneLine_literal rfl
  | numeral f => exact f.oneLine_message
  | channel f => exact f.oneLine_message
  | readFailed reason | promptFailed reason | writeFailed reason =>
    have hreason : OneLine reason := h
    exact oneLine_append.mpr ⟨oneLine_literal rfl, hreason⟩

namespace Fault
variable {f : Fault}

theorem oneLine_ownReport (h : f.Plain) : OneLine f.ownReport.message := by
  cases f with
  | decode f => exact f.oneLine_message
  | negativeAddress a =>
    exact oneLine_append.mpr ⟨oneLine_literal rfl, Numeral.oneLine_render a⟩
  | valueTarget operand =>
    unfold ownReport Report.message
    simp only [oneLine_append, Numeral.oneLine_render, and_true]
    exact ⟨oneLine_literal rfl, oneLine_literal rfl⟩
  | channel f =>
    have hmessage : f.report.message = f.message := by cases f <;> rfl
    exact hmessage ▸ f.oneLine_message
  | unwritable => exact Numeral.oneLine_unwritableMessage
  | device side cause =>
    unfold ownReport Report.message
    simp only [oneLine_append, side.oneLine_label, cause.oneLine_message side h, and_true, true_and]
    exact oneLine_literal rfl

theorem oneLine_message (h : f.Plain) : OneLine f.message := by
  unfold message report
  split
  · exact oneLine_ownReport h
  · exact Numeral.oneLine_unwritableMessage

end Fault

end Intcode
