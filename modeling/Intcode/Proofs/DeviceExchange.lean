import Intcode.Proofs.ChannelQueue
import Intcode.Proofs.WriterFlush

/-! # Exchanges through devices

What a read and a write through devices come to, case by case. A read sends nothing: the most that
goes out is one prompt, from a reader to a writer (`Silent`), and it takes one line or one value at
most. A value that has been read is gone from where it came from, unless it is a literal. A write
that fails has changed nothing, unless a writer has been given the line and could not pass it on
(`Unflushed`). -/

namespace Intcode

namespace Stream
variable {stream rest : Stream} {line : List Char}

/-- A line that holds something has been taken off the stream. -/
theorem rest_ne (h : stream.readLine = .ok (line, rest)) (hl : line ≠ []) : rest ≠ stream := by
  rintro rfl
  cases rest with
  | text cs =>
    have happ := congrArg List.length (Text.cutAfter_append Text.isFeed cs)
    simp only [readLine, Except.ok.injEq, Prod.mk.injEq, Stream.text.injEq] at h
    obtain ⟨rfl, hrest⟩ := h
    rw [hrest, List.length_append] at happ
    exact hl (List.length_eq_zero_iff.mp (by omega))
  | bytes bs =>
    have happ := congrArg List.length (Text.cutAfter_append (· == (0x0a : UInt8)) bs)
    simp only [readLine, Except.ok.injEq, Prod.mk.injEq, Stream.bytes.injEq] at h
    obtain ⟨rfl, hrest⟩ := h
    rw [hrest, List.length_append] at happ
    refine hl (List.length_eq_zero_iff.mp ?_)
    rw [Text.length_ofAscii]
    omega
  | broken reason cs =>
    have happ := congrArg List.length (Text.cutAfter_append Text.isFeed cs)
    unfold readLine at h
    dsimp only at h
    split at h
    · simp only [Except.ok.injEq, Prod.mk.injEq, Stream.broken.injEq] at h
      obtain ⟨rfl, -, hrest⟩ := h
      rw [hrest, List.length_append] at happ
      exact hl (List.length_eq_zero_iff.mp (by omega))
    · cases h

end Stream

/-- What is left of an input after one read: all of it, or all but a line or a value. -/
inductive Input.Taken : Input → Input → Prop
  | nothing (i : Input) : Taken i i
  | line {stream rest : Stream} {cs : List Char} (h : stream.readLine = .ok (cs, rest)) :
    Taken (.reader stream) (.reader rest)
  | value (c : Channel) : Taken (.channel c) (.channel c.recv.2)

/-- A fault of the input device. -/
def Fault.OfInput (f : Fault) : Prop := ∃ cause, f = .device .input cause

namespace Devices
variable {d d' : Devices} {f : Fault} {v : Int} {c : Channel} {stream : Stream} {text : String}

/-! ### Reads, case by case -/

theorem prompt_of_writer {w : Writer} (h : d.output = .writer w) :
    prompt d = onWriter promptText (fun reason => .device .input (.promptFailed reason)) w d := by
  rw [prompt, get_bind, h]

theorem prompt_of_other (h : ∀ w, d.output ≠ .writer w) : prompt d = .ok () d := by
  rw [prompt, get_bind]
  cases ho : d.output with
  | writer w => exact absurd ho (h w)
  | none | channel c | feedback => rfl

theorem readLine_eq (stream : Stream) (d : Devices) :
    readLine stream d = match stream.readLine with
      | .error reason => .error (.device .input (.readFailed reason)) d
      | .ok (line, rest) =>
        if line.isEmpty then .error (.device .input .endOfInput) { d with input := .reader rest }
        else match Input.integer line with
          | .ok v => .ok v { d with input := .reader rest }
          | .error f => .error f { d with input := .reader rest } := by
  unfold readLine
  cases stream.readLine with
  | error reason => rfl
  | ok r =>
    obtain ⟨line, rest⟩ := r
    cases line with
    | nil => rfl
    | cons c cs =>
      dsimp only [List.isEmpty_cons]
      cases Input.integer (c :: cs) <;> rfl

theorem read_of_none (h : d.input = .none) :
    read d = .error (.device .input .unconnected) d := by
  rw [read, get_bind, h]
  rfl

theorem read_of_literal (h : d.input = .literal text) :
    read d = match Input.integer text.toList with
      | .ok v => .ok (some v) d
      | .error f => .error f d := by
  rw [read, get_bind, h]
  dsimp only
  cases Input.integer text.toList <;> rfl

theorem read_of_reader (h : d.input = .reader stream) :
    read d = (prompt >>= fun _ => readLine stream >>= fun v => pure (some v)) d := by
  rw [read, get_bind, h]

theorem read_of_channel (h : d.input = .channel c) : read d = onInput Channel.fetch c d := by
  rw [read, get_bind, h]

/-! ### What an exchange changes -/

/-- From `d` to `d'` nothing has been sent or written, but for one prompt if a line was `asked` for.
-/
structure Silent (asked : Prop) (d d' : Devices) : Prop where
  output : d'.output = d.output ∨ asked ∧ ∃ stream w w', d.input = .reader stream ∧
    d.output = .writer w ∧ d'.output = .writer w' ∧ w'.written = w.written ++ promptText
  channel : ∀ c, d.input = .channel c →
    d'.input = .channel c ∨ asked ∧ d'.input = .channel c.recv.2

theorem Silent.refl (asked : Prop) (d : Devices) : Silent asked d d :=
  ⟨.inl rfl, fun _ hc => .inl hc⟩

theorem Silent.mono {asked asked' : Prop} (h : Silent asked d d') (ha : asked → asked') :
    Silent asked' d d' :=
  ⟨h.output.imp_right (And.imp_left ha), fun c hc => (h.channel c hc).imp_right (And.imp_left ha)⟩

/-- A reader gives the integer on a line, which it has left behind. -/
theorem input_of_reader (hi : d.input = .reader stream) (h : read d = .ok (some v) d') :
    ∃ rest, d'.input = .reader rest ∧ rest ≠ stream := by
  rw [read_of_reader hi] at h
  obtain ⟨-, d₁, -, h⟩ := bind_eq_ok h
  obtain ⟨u, d₂, hr, h⟩ := bind_eq_ok h
  cases h
  rw [readLine_eq] at hr
  cases hl : stream.readLine with
  | error reason =>
    rw [hl] at hr
    cases hr
  | ok r =>
    obtain ⟨line, rest⟩ := r
    rw [hl] at hr
    cases line with
    | nil => cases hr
    | cons c cs =>
      refine ⟨rest, ?_, Stream.rest_ne hl (List.cons_ne_nil c cs)⟩
      simp only [List.isEmpty_cons, Bool.false_eq_true, if_false] at hr
      cases hv : Input.integer (c :: cs) <;> rw [hv] at hr <;> cases hr
      rfl

/-- A channel gives the first value that is queued. -/
theorem input_of_channel (hi : d.input = .channel c) (h : read d = .ok (some v) d') :
    ∃ is, c.queue = .value v :: is ∧ d'.input = .channel { c with queue := is } := by
  rw [read_of_channel hi] at h
  unfold onInput Channel.fetch at h
  rcases c.recv_cases with ⟨-, hr⟩ | ⟨u, is, hq, hr⟩ | ⟨is, -, hr⟩ <;> rw [hr] at h <;> cases h
  exact ⟨is, hq, rfl⟩

/-- Where a value has been read it is gone, unless it is a literal. -/
theorem unchanged_iff_literal (h : read d = .ok (some v) d') :
    d' = d ↔ ∃ text, d.input = .literal text := by
  cases hi : d.input with
  | none =>
    rw [read_of_none hi] at h
    cases h
  | literal text =>
    refine ⟨fun _ => ⟨text, rfl⟩, fun _ => ?_⟩
    rw [read_of_literal hi] at h
    cases hv : Input.integer text.toList <;> rw [hv] at h <;> cases h
    rfl
  | reader stream =>
    refine ⟨fun hd => ?_, fun ⟨text, ht⟩ => nomatch ht⟩
    obtain ⟨rest, hrest, hne⟩ := input_of_reader hi h
    rw [hd, hi] at hrest
    exact absurd (Input.reader.inj hrest).symm hne
  | channel c =>
    refine ⟨fun hd => ?_, fun ⟨text, ht⟩ => nomatch ht⟩
    obtain ⟨is, hq, hc⟩ := input_of_channel hi h
    rw [hd, hi] at hc
    have hlen := congrArg (fun c : Channel => c.queue.length) (Input.channel.inj hc)
    simp only [hq, List.length_cons] at hlen
    omega

/-! ### Exchanges that fail -/

theorem ofInput_of_integer {cs : List Char} (h : Input.integer cs = .error f) : Fault.OfInput f := by
  unfold Input.integer at h
  split at h <;> cases h
  exact ⟨_, rfl⟩

theorem ofInput_prompt : Ensures (fun _ => True) (fun _ => True) Fault.OfInput prompt := by
  refine .get_bind fun d _ => ?_
  split
  · rename_i w _
    intro e _
    unfold onWriter
    cases Writer.put promptText w with
    | ok u w' => exact ⟨trivial, trivial⟩
    | error reason w' => exact ⟨trivial, _, rfl⟩
  · exact .ret trivial

theorem ofInput_readLine (stream : Stream) :
    Ensures (fun _ => True) (fun _ => True) Fault.OfInput (readLine stream) := by
  intro d _
  rw [readLine_eq]
  split
  · exact ⟨trivial, _, rfl⟩
  · split
    · exact ⟨trivial, _, rfl⟩
    · split
      · exact ⟨trivial, trivial⟩
      · exact ⟨trivial, ofInput_of_integer ‹_›⟩

theorem ofInput_read : Ensures (fun _ => True) (fun _ => True) Fault.OfInput read := by
  refine .get_bind fun d _ => ?_
  cases d.input with
  | none => exact .fail ⟨_, rfl⟩
  | literal text =>
    dsimp only
    cases hv : Input.integer text.toList with
    | ok v => exact .ret trivial
    | error f => exact .fail (ofInput_of_integer hv)
  | reader stream =>
    refine ofInput_prompt.bind fun _ _ => ?_
    exact (ofInput_readLine stream).bind fun _ _ => .ret trivial
  | channel c =>
    intro d _
    show _ ∧ Yields _ _ (onInput Channel.fetch c d)
    unfold onInput Channel.fetch
    rcases c.recv with ⟨v | - | -, c'⟩
    · exact ⟨trivial, trivial⟩
    · exact ⟨trivial, _, rfl⟩
    · exact ⟨trivial, trivial⟩

/-- The writer of `d` has been given the line of a value, and has failed to pass it on. -/
def Unflushed (v : Int) (f : Fault) (d d' : Devices) : Prop :=
  ∃ w w' g, d.output = .writer w ∧ d' = { d with output := .writer w' } ∧
    w'.written = w.written ++ (Numeral.render v ++ "\n") ∧
    some g ∈ w.flushes.head? ∧ f = .device .output (.writeFailed g.reason)

theorem write_error_of_writer {w : Writer} (ho : d.output = .writer w)
    (h : write v d = .error f d') : d' = d ∨ Unflushed v f d d' := by
  rw [write, get_bind, ho] at h
  by_cases hv : Numeral.Writable v
  · simp only [hv] at h
    have h : onWriter (Numeral.render v ++ "\n") (fun reason => .device .output (.writeFailed reason))
        w d = .error f d' := h
    unfold onWriter at h
    cases hw : Writer.put (Numeral.render v ++ "\n") w with
    | ok u w' =>
      rw [hw] at h
      cases h
    | error reason w' =>
      rw [hw] at h
      cases h
      rcases Writer.put_error hw with rfl | ⟨hwritten, g, hg, rfl⟩
      · exact .inl (by rw [← ho])
      · exact .inr ⟨w, w', g, ho, rfl, hwritten, hg, rfl⟩
  · simp only [hv] at h
    cases h
    exact .inl rfl

/-- A write that fails has changed nothing, unless a line could not be passed on. -/
theorem write_error (h : write v d = .error f d') : d' = d ∨ Unflushed v f d d' := by
  cases ho : d.output with
  | writer w => exact write_error_of_writer ho h
  | none =>
    rw [write, get_bind, ho] at h
    cases h
    exact .inl rfl
  | channel c =>
    rw [write, get_bind, ho] at h
    unfold onOutput Channel.deliver at h
    dsimp only at h
    cases hs : c.send v with
    | ok c' =>
      rw [hs] at h
      cases h
    | error g =>
      rw [hs] at h
      cases h
      exact .inl (by rw [← ho])
  | feedback =>
    rw [write, get_bind, ho] at h
    dsimp only at h
    rw [get_bind] at h
    cases hi : d.input with
    | none | literal text | reader stream =>
      rw [hi] at h
      cases h
      exact .inl rfl
    | channel c =>
      rw [hi] at h
      unfold onInput Channel.deliver at h
      dsimp only at h
      cases hs : c.send v with
      | ok c' =>
        rw [hs] at h
        cases h
      | error g =>
        rw [hs] at h
        cases h
        exact .inl (by rw [← hi])

end Devices

end Intcode
