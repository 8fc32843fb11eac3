import Intcode.Channel

/-! # The log of a channel

Sender and receiver of a channel see how their operations end. A log of these ends is legal if every
entry follows from the ones before it (`Justified`): sends are taken until the channel is closed and
refused afterwards, and a receiver gets the values that were sent, in order, before it finds the
end. That it finds the end again from then on is a consequence, because nothing is sent any more. -/

namespace Intcode

/-- How an operation on the channel has ended. -/
inductive Note
  | sent (v : Int)
  | refused (f : ChannelFault)
  | closed
  | received (v : Int)
  | failed (f : Channel.RecvFault)
  | drained (vs : List Int)
deriving DecidableEq, Repr

namespace Note

/-- The values that were sent. -/
def sent? : Note → Option Int
  | sent v => some v
  | refused _ | closed | received _ | failed _ | drained _ => none

def allSent (log : List Note) : List Int := log.filterMap sent?

/-- The values that an operation has brought to the receiver. -/
def gained : Note → List Int
  | received v => [v]
  | drained vs => vs
  | sent _ | refused _ | closed | failed _ => []

def obtained (log : List Note) : List Int := log.flatMap gained

/-- The end of a receive. -/
def EndsReceive : Note → Prop
  | received _ | failed _ => True
  | sent _ | refused _ | closed | drained _ => False

/-- Whether an entry may follow the ones before it. -/
def Justified (name : String) (before : List Note) : Note → Prop
  | sent _ => closed ∉ before
  | refused f => f = .sendClosed name ∧ closed ∈ before
  | closed | failed .negativeTimeout => True
  | received v => obtained before ++ [v] <+: allSent before
  | drained vs => obtained before ++ vs <+: allSent before
  | failed (.channel f) => obtained before = allSent before ∧
      (f = .recvClosed name ∧ closed ∈ before ∨ f = .timedOut name ∧ closed ∉ before)

theorem allSent_append (log : List Note) (e : Note) :
    allSent (log ++ [e]) = allSent log ++ e.sent?.toList := by
  rw [allSent, List.filterMap_append]
  cases h : e.sent? <;> simp [allSent, h]

theorem obtained_append (log : List Note) (e : Note) :
    obtained (log ++ [e]) = obtained log ++ e.gained := by
  simp [obtained]

/-- Every entry follows from the ones before it. -/
def Legal (name : String) (log : List Note) : Prop :=
  ∀ before e after, log = before ++ e :: after → e.Justified name before

theorem Legal.append {name : String} {log : List Note} {e : Note} (h : Legal name log)
    (he : e.Justified name log) : Legal name (log ++ [e]) := by
  intro before e' after hlog
  rcases List.eq_nil_or_concat after with rfl | ⟨after', e'', rfl⟩
  · obtain ⟨rfl, he'⟩ := List.append_inj' hlog rfl
    cases he'
    exact he
  · rw [List.concat_eq_append, ← List.cons_append, ← List.append_assoc] at hlog
    obtain ⟨hlog, -⟩ := List.append_inj' hlog rfl
    exact h before e' after' hlog

theorem Legal.of_append {name : String} {log rest : List Note} (h : Legal name (log ++ rest)) :
    Legal name log := by
  intro before e after hlog
  exact h before e (after ++ rest) (by rw [hlog, List.append_assoc, List.cons_append])

theorem Legal.obtained_prefix_append {name : String} (log : List Note) {rest : List Note}
    (h : Legal name (log ++ rest)) (hlog : obtained log <+: allSent log) :
    obtained (log ++ rest) <+: allSent (log ++ rest) := by
  induction rest generalizing log with
  | nil => rwa [List.append_nil]
  | cons e rest ih =>
    have he : e.Justified name log := h log e rest rfl
    rw [List.append_cons] at h ⊢
    refine ih _ h ?_
    rw [obtained_append, allSent_append]
    cases e with
    | sent v =>
      rw [gained, List.append_nil]
      exact hlog.trans (List.prefix_append _ _)
    | received v | drained vs =>
      rw [sent?, Option.toList_none, List.append_nil]
      exact he
    | refused f | closed | failed f =>
      rw [gained, sent?, Option.toList_none, List.append_nil, List.append_nil]
      exact hlog

theorem Legal.obtained_prefix {name : String} {log : List Note} (h : Legal name log) :
    obtained log <+: allSent log :=
  h.obtained_prefix_append [] (List.prefix_refl [])

/-- Nothing is sent any more once the channel has been closed. -/
theorem Legal.allSent_of_closed {name : String} {log rest : List Note}
    (h : Legal name (log ++ rest)) (hclosed : closed ∈ log) :
    allSent (log ++ rest) = allSent log := by
  induction rest generalizing log with
  | nil => rw [List.append_nil]
  | cons e rest ih =>
    have he : e.Justified name log := h log e rest rfl
    rw [List.append_cons] at h ⊢
    rw [ih h (List.mem_append_left _ hclosed), allSent_append]
    cases e with
    | sent v => exact absurd hclosed he
    | refused f | closed | received v | failed f | drained vs => exact List.append_nil _

/-- A receive ends with the mark exactly if the channel has been closed and all values received. -/
theorem Justified.ended_iff {name : String} {before : List Note} {e : Note}
    (h : e.Justified name before) (he : e.EndsReceive) (hbound : e ≠ .failed .negativeTimeout) :
    e = failed (.channel (.recvClosed name)) ↔
      closed ∈ before ∧ obtained before = allSent before := by
  cases e with
  | sent v | refused f | closed | drained vs => cases he
  | received v =>
    refine iff_of_false nofun ?_
    rintro ⟨-, hall⟩
    have hlen := h.length_le
    rw [hall, List.length_append, List.length_singleton] at hlen
    omega
  | failed f =>
    cases f with
    | negativeTimeout => exact absurd rfl hbound
    | channel f =>
      obtain ⟨hall, ⟨rfl, hclosed⟩ | ⟨rfl, hopen⟩⟩ := h
      · exact iff_of_true rfl ⟨hclosed, hall⟩
      · exact iff_of_false nofun fun hc => hopen hc.1

/-- After the end of the traffic every receive finds it again. -/
theorem Legal.ended_again {name : String} {before after : List Note} {e : Note}
    (h : Legal name (before ++ .failed (.channel (.recvClosed name)) :: after)) (hmem : e ∈ after)
    (he : e.EndsReceive) (hbound : e ≠ .failed .negativeTimeout) :
    e = failed (.channel (.recvClosed name)) := by
  obtain ⟨between, rest, rfl⟩ := List.append_of_mem hmem
  obtain ⟨hall, ⟨-, hclosed⟩ | ⟨hf, -⟩⟩ := h before _ _ rfl
  · rw [← List.cons_append, ← List.append_assoc] at h
    have hlegal := h.of_append
    refine ((h _ e rest rfl).ended_iff he hbound).mpr ⟨List.mem_append_left _ hclosed, ?_⟩
    -- all that was sent had been obtained before
    have hsent := hlegal.allSent_of_closed hclosed
    refine hlegal.obtained_prefix.eq_of_length_le ?_
    rw [hsent, ← hall]
    simp [obtained]
  · cases hf

end Note

end Intcode
