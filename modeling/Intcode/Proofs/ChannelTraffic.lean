import Intcode.Proofs.ChannelLog
import Intcode.Proofs.ChannelQueue
import Intcode.Proofs.Interleaving

/-! # Traffic through a channel

One sender and one receiver use a channel at the same time. To send or to close is one action, but a
receive or a drain takes the items off the queue one by one, and a mark that it has taken goes back
in an action of its own. In between the sender may act: it finds a closed channel without its mark.
Nobody can tell, though. As long as the receiver does not hold the mark the channel is regular, and
while it does, the queue is empty and nothing can be sent (`Sound`). So the values come out as they
went in, and the log of both sides is legal. -/

namespace Intcode

/-- What the receiver is doing. `holding` is the time between taking the mark and putting it back,
in a receive or in a drain that has taken some values before. -/
inductive Receiver
  | idle
  | waiting (timed : Bool)
  | draining (taken : List Int)
  | holding (drained : Option (List Int))
deriving DecidableEq, Repr

namespace Receiver

def holds : Receiver → Bool
  | holding _ => true
  | idle | waiting _ | draining _ => false

/-- The values that a drain has taken so far. -/
def taken : Receiver → List Int
  | draining vs | holding (some vs) => vs
  | idle | waiting _ | holding none => []

/-- Whether the next action is to take an item. -/
def takes : Receiver → Bool
  | waiting _ | draining _ => true
  | idle | holding _ => false

/-- Whether an empty queue ends the operation. -/
def yields : Receiver → Bool
  | waiting timed => timed
  | draining _ => true
  | idle | holding _ => false

end Receiver

/-- A channel in use, and how the operations on it have ended, the earliest first. -/
structure Traffic where
  channel : Channel
  receiver : Receiver := .idle
  log : List Note := []
deriving DecidableEq, Repr

namespace Traffic

def start (name : String) : Traffic := { channel := { name } }

/-- An action of the sender, a call of the receiver, or one of the receiver's actions on the queue:
to take the first item, to give up at an empty queue, to put the mark back. -/
inductive Action
  | send (v : Int)
  | close
  | recv (timeout : Option Rat)
  | drain
  | take
  | giveUp
  | putBack
deriving DecidableEq, Repr

def ready (t : Traffic) : Action → Bool
  | .send _ | .close => true
  | .recv _ | .drain => t.receiver = .idle
  | .take => t.receiver.takes && !t.channel.queue.isEmpty
  | .giveUp => t.receiver.yields && t.channel.queue.isEmpty
  | .putBack => t.receiver.holds

/-- Ends an operation. -/
def note (t : Traffic) (e : Note) : Traffic := { t with log := t.log ++ [e] }

@[simp]
theorem channel_note (t : Traffic) (e : Note) : (t.note e).channel = t.channel := rfl

@[simp]
theorem receiver_note (t : Traffic) (e : Note) : (t.note e).receiver = t.receiver := rfl

def step (a : Action) (t : Traffic) : Traffic :=
  match a with
  | .send v =>
    match t.channel.send v with
    | .ok c => { t with channel := c }.note (.sent v)
    | .error f => t.note (.refused f)
  | .close => { t with channel := t.channel.close }.note .closed
  | .recv timeout =>
    if timeout.any (· < 0) then t.note (.failed .negativeTimeout)
    else { t with receiver := .waiting timeout.isSome }
  | .drain => { t with receiver := .draining [] }
  | .take =>
    match t.receiver, t.channel.take with
    | .waiting _, some (.value v, c) => { t with channel := c, receiver := .idle }.note (.received v)
    | .waiting _, some (.endMark, c) => { t with channel := c, receiver := .holding none }
    | .draining vs, some (.value v, c) => { t with channel := c, receiver := .draining (vs ++ [v]) }
    | .draining vs, some (.endMark, c) => { t with channel := c, receiver := .holding (some vs) }
    | _, _ => t
  | .giveUp =>
    match t.receiver with
    | .waiting _ =>
      { t with receiver := .idle }.note (.failed (.channel (.timedOut t.channel.name)))
    | .draining vs => { t with receiver := .idle }.note (.drained vs)
    | _ => t
  | .putBack =>
    let t' := { t with channel := t.channel.putBack, receiver := .idle }
    match t.receiver with
    | .holding none => t'.note (.failed (.channel (.recvClosed t.channel.name)))
    | .holding (some vs) => t'.note (.drained vs)
    | _ => t

/-- The two sides act in any order. -/
def interleaving : Interleaving Action Traffic := ⟨fun t a => t.ready a = true, step⟩

instance (t : Traffic) (a : Action) : Decidable (interleaving.Ready t a) :=
  inferInstanceAs (Decidable (t.ready a = true))

abbrev Run (t : Traffic) (actions : List Action) (u : Traffic) : Prop :=
  interleaving.Run t actions u

/-! ### A receiver that is left alone -/

section
variable {c : Channel} {log : List Note}

/-- How a receive ends. -/
def ofReceive : Except Channel.RecvFault Int → Note
  | .ok v => .received v
  | .error f => .failed f

theorem waiting_alone {timeout : Rat} (h : ¬ timeout < 0) (c : Channel) (log : List Note) :
    ∃ actions, Run ⟨c, .waiting true, log⟩ actions
      ⟨(c.recvWithin timeout).2, .idle, log ++ [ofReceive (c.recvWithin timeout).1]⟩ := by
  rw [Channel.recvWithin, if_neg h]
  rcases c.recv_cases with ⟨hq, hr⟩ | ⟨v, is, hq, hr⟩ | ⟨is, hq, hr⟩
  · rw [hr]
    refine ⟨[.giveUp], ?_, rfl⟩
    simp [interleaving, ready, Receiver.yields, hq]
  · rw [hr]
    refine ⟨[.take], ?_, ?_⟩
    · simp [interleaving, ready, Receiver.takes, hq]
    · simp [interleaving, step, Channel.take, hq, note, ofReceive, Interleaving.Run]
  · rw [hr]
    refine ⟨[.take, .putBack], ?_, ?_, ?_⟩
    · simp [interleaving, ready, Receiver.takes, hq]
    · simp [interleaving, step, Channel.take, hq, ready, Receiver.holds]
    · simp [interleaving, step, Channel.take, hq, note, Channel.putBack, ofReceive,
        Interleaving.Run]

/-- The actions of a receive, one after the other, are `Channel.recvWithin`. -/
theorem recv_alone (c : Channel) (log : List Note) (timeout : Rat) :
    ∃ actions, Run ⟨c, .idle, log⟩ (.recv (some timeout) :: actions)
      ⟨(c.recvWithin timeout).2, .idle, log ++ [ofReceive (c.recvWithin timeout).1]⟩ := by
  by_cases h : timeout < 0
  · refine ⟨[], rfl, ?_⟩
    simp [interleaving, step, h, note, ofReceive, Interleaving.Run, Channel.recvWithin]
  · obtain ⟨actions, hrun⟩ := waiting_alone h c log
    have hcall : interleaving.step (.recv (some timeout)) ⟨c, .idle, log⟩ =
        ⟨c, .waiting true, log⟩ := by
      simp [interleaving, step, h]
    rw [← hcall] at hrun
    exact ⟨actions, rfl, hrun⟩

theorem drain_cons {name : String} {v : Int} {is : List Item} {closed : Bool} :
    Channel.drain ⟨name, .value v :: is, closed⟩ =
      (v :: (Channel.drain ⟨name, is, closed⟩).1, (Channel.drain ⟨name, is, closed⟩).2) := by
  simp only [Channel.drain, Item.cutValues]
  split <;> rfl

theorem draining_alone (name : String) (is : List Item) (closed : Bool) (vs : List Int)
    (log : List Note) :
    ∃ actions, Run ⟨⟨name, is, closed⟩, .draining vs, log⟩ actions
      ⟨(Channel.drain ⟨name, is, closed⟩).2, .idle,
        log ++ [.drained (vs ++ (Channel.drain ⟨name, is, closed⟩).1)]⟩ := by
  induction is generalizing vs with
  | nil =>
    refine ⟨[.giveUp], rfl, ?_⟩
    simp [interleaving, step, note, Interleaving.Run, Channel.drain, Item.cutValues, Channel.take]
  | cons i is ih =>
    cases i with
    | value v =>
      obtain ⟨actions, h⟩ := ih (vs ++ [v])
      refine ⟨.take :: actions, rfl, ?_⟩
      rw [drain_cons]
      rwa [List.append_assoc, List.singleton_append] at h
    | endMark =>
      refine ⟨[.take, .putBack], rfl, rfl, ?_⟩
      simp [interleaving, step, note, Interleaving.Run, Channel.drain, Item.cutValues,
        Channel.take, Channel.putBack]

/-- The actions of a drain, one after the other, are `Channel.drain`. -/
theorem drain_alone (c : Channel) (log : List Note) :
    ∃ actions, Run ⟨c, .idle, log⟩ (.drain :: actions)
      ⟨c.drain.2, .idle, log ++ [.drained c.drain.1]⟩ := by
  obtain ⟨actions, h⟩ := draining_alone c.name c.queue c.closed [] log
  exact ⟨actions, rfl, h⟩

end

/-! ### What every action keeps -/

/-- The channel is regular, or closed and empty while the receiver holds the mark. -/
def Intact (c : Channel) : Receiver → Prop
  | .idle | .waiting _ | .draining _ => c.Regular
  | .holding _ => c.closed = true ∧ c.queue = []

/-- An open channel is regular, and may be replaced by another regular one. -/
theorem Intact.of_open {c d : Channel} {r : Receiver} (h : Intact c r) (ho : ¬ c.closed = true) :
    c.Regular ∧ (d.Regular → Intact d r) := by
  cases r with
  | idle | waiting timed | draining vs => exact ⟨h, id⟩
  | holding drained => exact absurd h.1 ho

/-- What the receiver has and what is still queued are the values that were sent. -/
structure Sound (name : String) (t : Traffic) : Prop where
  named : t.channel.name = name
  closed : t.channel.closed = true ↔ .closed ∈ t.log
  intact : Intact t.channel t.receiver
  conserved : Note.obtained t.log ++ t.receiver.taken ++ t.channel.values = Note.allSent t.log
  legal : Note.Legal name t.log

variable {name : String} {t u : Traffic} {e : Note}

/-- An action that ends an operation: the entry accounts for what has changed. -/
theorem Sound.logged (h : t.Sound name) (hlog : u.log = t.log ++ [e])
    (hname : u.channel.name = t.channel.name)
    (hclosed : u.channel.closed = true ↔ t.channel.closed = true ∨ e = .closed)
    (hintact : Intact u.channel u.receiver)
    (hvalues : e.gained ++ u.receiver.taken ++ u.channel.values =
      t.receiver.taken ++ t.channel.values ++ e.sent?.toList)
    (he : e.Justified name t.log) : u.Sound name where
  named := hname.trans h.named
  closed := by
    rw [hclosed, h.closed, hlog, List.mem_append, List.mem_singleton]
    exact or_congr_right eq_comm
  intact := hintact
  conserved := by
    rw [hlog, Note.allSent_append, Note.obtained_append, ← h.conserved]
    simp only [List.append_assoc] at hvalues ⊢
    rw [hvalues]
  legal := by
    rw [hlog]
    exact h.legal.append he

/-- An action in the middle of an operation. -/
theorem Sound.unlogged (h : t.Sound name) (hlog : u.log = t.log)
    (hname : u.channel.name = t.channel.name) (hclosed : u.channel.closed = t.channel.closed)
    (hintact : Intact u.channel u.receiver)
    (hvalues : u.receiver.taken ++ u.channel.values = t.receiver.taken ++ t.channel.values) :
    u.Sound name where
  named := hname.trans h.named
  closed := by rw [hclosed, h.closed, hlog]
  intact := hintact
  conserved := by rw [hlog, List.append_assoc, hvalues, ← List.append_assoc, h.conserved]
  legal := by rw [hlog]; exact h.legal

/-- An operation that fails changes nothing. -/
theorem Sound.note (h : t.Sound name) (hgained : e.gained = []) (hsent : e.sent? = none)
    (hclosed : e = .closed → t.channel.closed = true) (he : e.Justified name t.log) :
    (t.note e).Sound name := by
  refine h.logged rfl rfl ?_ h.intact ?_ he
  · exact ⟨.inl, fun hc => hc.elim id hclosed⟩
  · rw [hgained, hsent, List.nil_append, Option.toList_none, List.append_nil]
    rfl

theorem Sound.send (h : t.Sound name) (v : Int) : (t.step (.send v)).Sound name := by
  simp only [step]
  cases hs : t.channel.send v with
  | error f =>
    have hcl : t.channel.closed = true := by
      unfold Channel.send at hs
      split at hs
      · assumption
      · cases hs
    rw [Channel.send_of_closed hcl, h.named] at hs
    cases hs
    exact h.note rfl rfl nofun ⟨rfl, h.closed.mp hcl⟩
  | ok c =>
    have ho : ¬ t.channel.closed = true := by
      intro hcl
      rw [Channel.send_of_closed hcl] at hs
      cases hs
    obtain ⟨hopen, hnext⟩ := h.intact.of_open ho
    obtain ⟨hreg, hvalues, hclosed, -⟩ := hopen.send hs
    refine h.logged rfl (Channel.name_send hs) ?_ (hnext hreg) ?_ ?_
    · exact iff_of_false (by simp [hclosed]) (by simp [ho])
    · simp [Note.gained, Note.sent?, hvalues]
    · exact fun hm => ho (h.closed.mpr hm)

theorem Sound.close (h : t.Sound name) : (t.step .close).Sound name := by
  simp only [step]
  by_cases hcl : t.channel.closed = true
  · have hc : t.channel.close = t.channel := by rw [Channel.close, if_pos hcl]
    rw [hc]
    exact h.note rfl rfl (fun _ => hcl) trivial
  · obtain ⟨hopen, hnext⟩ := h.intact.of_open hcl
    obtain ⟨hreg, hvalues⟩ := hopen.close
    refine h.logged rfl (Channel.name_close _) ?_ (hnext hreg) ?_ trivial
    · exact iff_of_true (Channel.closed_close _) (.inr rfl)
    · simp [Note.gained, Note.sent?, hvalues]

theorem Sound.recv (h : t.Sound name) (hidle : t.receiver = .idle) (timeout : Option Rat) :
    (t.step (.recv timeout)).Sound name := by
  have hreg := h.intact
  simp only [step]
  rw [hidle] at hreg
  split
  · exact h.note rfl rfl nofun trivial
  · refine h.unlogged rfl rfl rfl hreg ?_
    rw [hidle]
    rfl

theorem Sound.drain (h : t.Sound name) (hidle : t.receiver = .idle) :
    (t.step .drain).Sound name := by
  have hreg := h.intact
  rw [hidle] at hreg
  refine h.unlogged rfl rfl rfl hreg ?_
  rw [hidle]
  rfl

/-- The receiver has taken the mark, and with it everything that was queued. -/
theorem Sound.hold {c d : Channel} {r : Receiver} {log : List Note} {drained : Option (List Int)}
    (h : Sound name ⟨c, r, log⟩) (hput : d.putBack = c) (hq : d.queue = []) (hcl : c.closed = true)
    (hv : c.values = []) (htaken : (Receiver.holding drained).taken = r.taken) :
    Sound name ⟨d, .holding drained, log⟩ := by
  subst hput
  have hd : d.values = [] := Channel.values_of_nil hq
  refine h.unlogged rfl rfl rfl ⟨hcl, hq⟩ ?_
  show _ ++ d.values = r.taken ++ d.putBack.values
  rw [htaken, hd, hv]

theorem Sound.take (h : t.Sound name) : (t.step .take).Sound name := by
  obtain ⟨c, r, log⟩ := t
  cases r with
  | idle | holding drained => exact h
  | waiting timed =>
    have hreg : c.Regular := h.intact
    simp only [step]
    rcases hreg.take_cases with ⟨ht, -⟩ | ⟨v, d, ht, hd, hv, hcl, hn⟩ | ⟨d, ht, hput, hq, hcl, hv⟩
    · rw [ht]
      exact h
    · rw [ht]
      refine h.logged rfl hn (by simp [hcl]) hd ?_ ⟨d.values, ?_⟩
      · simp [Note.gained, Note.sent?, Receiver.taken, hv]
      · rw [← h.conserved]
        simp [Receiver.taken, hv]
    · rw [ht]
      exact h.hold hput hq hcl hv rfl
  | draining vs =>
    have hreg : c.Regular := h.intact
    simp only [step]
    rcases hreg.take_cases with ⟨ht, -⟩ | ⟨v, d, ht, hd, hv, hcl, hn⟩ | ⟨d, ht, hput, hq, hcl, hv⟩
    · rw [ht]
      exact h
    · rw [ht]
      refine h.unlogged rfl hn hcl hd ?_
      simp [Receiver.taken, hv]
    · rw [ht]
      exact h.hold hput hq hcl hv rfl

/-- The queue of a regular channel is empty only as long as the channel is open. -/
theorem Sound.giveUp (h : t.Sound name) (hq : t.channel.queue = []) :
    (t.step .giveUp).Sound name := by
  obtain ⟨c, r, log⟩ := t
  have hv : c.values = [] := Channel.values_of_nil hq
  have hconserved := h.conserved
  simp only [hv, List.append_nil] at hconserved
  cases r with
  | idle | holding drained => exact h
  | waiting timed =>
    have hreg : c.Regular := h.intact
    have ho : ¬ c.closed = true := by
      intro hcl
      rw [Channel.Regular, hq, hv, hcl] at hreg
      cases hreg
    simp only [Traffic.step]
    refine h.logged rfl rfl (by simp) hreg ?_ ⟨?_, .inr ⟨?_, ?_⟩⟩
    · simp [Note.gained, Note.sent?, Receiver.taken]
    · simpa [Receiver.taken] using hconserved
    · exact congrArg ChannelFault.timedOut h.named
    · exact fun hm => ho (h.closed.mpr hm)
  | draining vs =>
    simp only [Traffic.step]
    refine h.logged rfl rfl (by simp) h.intact ?_ ⟨[], ?_⟩
    · simp [Note.gained, Note.sent?, Receiver.taken]
    · simpa [Receiver.taken] using hconserved

/-- With its mark, a closed channel is regular again. -/
theorem Sound.putBack (h : t.Sound name) : (t.step .putBack).Sound name := by
  obtain ⟨c, r, log⟩ := t
  cases r with
  | idle | waiting timed | draining vs => exact h
  | holding drained =>
    obtain ⟨hcl, hq⟩ := h.intact
    have hv : c.values = [] := Channel.values_of_nil hq
    have hput : c.putBack.queue = ([] : List Int).map .value ++ Channel.marks c.closed := by
      have hcl' : c.closed = true := hcl
      have hq' : c.queue = [] := hq
      rw [Channel.putBack, hq', hcl']
      rfl
    have hreg : c.putBack.Regular := Channel.regular_of_queue hput
    have hv' : c.putBack.values = [] := Channel.values_of_queue hput
    have hconserved := h.conserved
    simp only [hv, List.append_nil] at hconserved
    cases drained with
    | none =>
      simp only [Traffic.step]
      refine h.logged rfl rfl ?_ hreg ?_ ⟨?_, .inl ⟨?_, h.closed.mp hcl⟩⟩
      · exact iff_of_true hcl (.inl hcl)
      · simp [Note.gained, Note.sent?, Receiver.taken, hv, hv']
      · simpa [Receiver.taken] using hconserved
      · exact congrArg ChannelFault.recvClosed h.named
    | some vs =>
      simp only [Traffic.step]
      refine h.logged rfl rfl ?_ hreg ?_ ⟨[], ?_⟩
      · exact iff_of_true hcl (.inl hcl)
      · simp [Note.gained, Note.sent?, Receiver.taken, hv, hv']
      · simpa [Receiver.taken] using hconserved

theorem Sound.step (h : t.Sound name) {a : Action} (ha : t.ready a = true) :
    (t.step a).Sound name := by
  cases a with
  | send v => exact h.send v
  | close => exact h.close
  | recv timeout => exact h.recv (of_decide_eq_true ha) timeout
  | drain => exact h.drain (of_decide_eq_true ha)
  | take => exact h.take
  | giveUp =>
    have hq := (Bool.and_eq_true_iff.mp ha).2
    exact h.giveUp (List.isEmpty_iff.mp hq)
  | putBack => exact h.putBack

theorem sound_start (name : String) : (start name).Sound name where
  named := rfl
  closed := iff_of_false Bool.false_ne_true List.not_mem_nil
  intact := Channel.regular_ofList name []
  conserved := rfl
  legal := by
    intro before e after h
    exact absurd h.symm (by simp [start])

theorem sound_run {actions : List Action} (h : (start name).Run actions t) : t.Sound name :=
  h.preserves (fun _ _ hs ha => hs.step ha) (sound_start name)

/-- While it holds the mark, the receiver leaves the queue empty. -/
theorem Sound.queue (h : t.Sound name) : t.channel.queue =
    t.channel.values.map .value ++ Channel.marks (t.channel.closed && !t.receiver.holds) := by
  obtain ⟨c, r, log⟩ := t
  cases r with
  | idle | waiting timed | draining vs =>
    have hreg : c.queue = c.values.map .value ++ Channel.marks c.closed := h.intact
    simpa [Receiver.holds] using hreg
  | holding drained =>
    have hq : c.queue = [] := h.intact.2
    simp [Receiver.holds, Channel.values_of_nil hq, hq, Channel.marks]

/-- A receive at a closed channel from which everything has been received does not wait. -/
theorem Sound.take_mark (h : t.Sound name) {timed : Bool} (hr : t.receiver = .waiting timed)
    (hclosed : .closed ∈ t.log) (hall : Note.obtained t.log = Note.allSent t.log) :
    t.ready .take = true ∧ t.ready .giveUp = false ∧ (t.step .take).receiver = .holding none := by
  have hcl := h.closed.mpr hclosed
  have hv : t.channel.values = [] := by
    have hconserved := h.conserved
    rw [hr, hall] at hconserved
    simpa [Receiver.taken] using hconserved
  have hq : t.channel.queue = [.endMark] := by
    rw [h.queue, hv, hcl, hr]
    rfl
  simp [ready, Traffic.step, hr, hq, Receiver.takes, Channel.take]

/-- Under every interleaving of the two sides nothing is lost, doubled or reordered: what has been
obtained, what a drain holds and what is queued are together what was sent. A closed channel has one
mark, behind all values, unless the receiver holds it. Sends fail once the channel has been closed,
and only then. A receive with a negative bound fails at once and changes nothing. Any other one ends
with the mark if the channel has been closed and everything received, and only then; so do all
receives after it, and no receive waits there. It runs out of time only at an open channel from
which everything has been received. -/
theorem nothing_lost {actions : List Action} (h : (start name).Run actions t) :
    Note.obtained t.log ++ t.receiver.taken ++ t.channel.values = Note.allSent t.log ∧
    t.channel.queue =
      t.channel.values.map .value ++ Channel.marks (t.channel.closed && !t.receiver.holds) ∧
    (t.channel.closed = true ↔ .closed ∈ t.log) ∧
    (∀ before e after, t.log = before ++ e :: after →
      (∀ v, e = .sent v → .closed ∉ before) ∧
      (∀ f, e = .refused f → f = .sendClosed name ∧ .closed ∈ before) ∧
      (e.EndsReceive → e ≠ .failed .negativeTimeout →
        (e = .failed (.channel (.recvClosed name)) ↔
          .closed ∈ before ∧ Note.obtained before = Note.allSent before)) ∧
      (e = .failed (.channel (.recvClosed name)) → ∀ e' ∈ after, e'.EndsReceive →
        e' ≠ .failed .negativeTimeout → e' = e) ∧
      (∀ f, e = .failed (.channel f) → f = .recvClosed name ∨
        f = .timedOut name ∧ .closed ∉ before ∧ Note.obtained before = Note.allSent before)) ∧
    (∀ timed, t.receiver = .waiting timed → .closed ∈ t.log →
      Note.obtained t.log = Note.allSent t.log →
      t.ready .take = true ∧ t.ready .giveUp = false ∧
        (t.step .take).receiver = .holding none) ∧
    (t.receiver = .holding none → t.ready .putBack = true ∧
      (t.step .putBack).log = t.log ++ [.failed (.channel (.recvClosed name))]) ∧
    (∀ timeout, timeout < 0 →
      t.step (.recv (some timeout)) = t.note (.failed .negativeTimeout)) := by
  have hs := sound_run h
  refine ⟨hs.conserved, hs.queue, hs.closed, ?_, ?_, ?_, ?_⟩
  · intro before e after hlog
    have he := hs.legal before e after hlog
    refine ⟨?_, ?_, he.ended_iff, ?_, ?_⟩
    · rintro v rfl
      exact he
    · rintro f rfl
      exact he
    · rintro rfl e' hmem
      have hlegal := hs.legal
      rw [hlog] at hlegal
      exact hlegal.ended_again hmem
    · rintro f rfl
      obtain ⟨hall, ⟨rfl, -⟩ | ⟨rfl, hopen⟩⟩ := he
      · exact .inl rfl
      · exact .inr ⟨rfl, hopen, hall⟩
  · exact fun timed hr => hs.take_mark hr
  · intro hr
    simp [ready, step, hr, Receiver.holds, note, hs.named]
  · intro timeout hneg
    simp [step, hneg]

/-- A send and a close go on while the receiver holds the mark. -/
theorem nothing_lost_marked :
    let actions : List Action := [.send 5, .recv none, .take, .close, .recv (some 1), .take,
      .send 6, .close, .putBack, .drain, .take, .putBack]
    let log : List Note := [.sent 5, .received 5, .closed, .refused (.sendClosed "c"), .closed,
      .failed (.channel (.recvClosed "c")), .drained []]
    let t : Traffic := ⟨⟨"c", [.endMark], true⟩, .idle, log⟩
    (start "c").Run actions t ∧ Note.obtained t.log ++ [] ++ t.channel.values = [5] := by
  intro actions log t
  have h : (start "c").Run actions t := by decide
  exact ⟨h, (nothing_lost h).1⟩

/-- A bound below zero hides the end of the traffic. -/
theorem closed_negativeTimeout :
    ¬ ∀ name actions t, (start name).Run actions t →
      ∀ before e after, t.log = before ++ e :: after → e.EndsReceive →
        (e = .failed (.channel (.recvClosed name)) ↔
          .closed ∈ before ∧ Note.obtained before = Note.allSent before) := by
  intro hall
  have hrun : (start "").Run [.close, .recv (some (-1))]
      ⟨⟨"", [.endMark], true⟩, .idle, [.closed, .failed .negativeTimeout]⟩ := by decide
  have h := hall _ _ _ hrun [.closed] (.failed .negativeTimeout) [] rfl trivial
  cases h.mpr ⟨by decide, rfl⟩

end Traffic

end Intcode
