import Intcode.Network
import Intcode.Proofs.ChannelQueue
import Intcode.Proofs.Execution
import Intcode.Proofs.SessionStep

/-! # What a stage asks of its channel

The next step of a stage needs at most one channel, and of that one operation only. `Stage.request`
names the operation together with the stage that follows each answer; `Network.advance` does no more
than serve the request, at the stage's own channel if it reads and at its sink otherwise, and record
a fault that was raised. -/

namespace Intcode

/-- An operation on a channel, and the stage after each answer. -/
inductive Request
  | rest (after : Stage)
  | send (v : Int) (sent : Stage) (refused : ChannelFault → Stage)
  | receive (got : Int → Stage) (waiting : Stage) (ended : ChannelFault → Stage)
  | close (after : Stage)

namespace Request

/-- The end of the channel at which the request is made. -/
def side : Request → Side
  | receive .. => .input
  | rest _ | send .. | close _ => .output

def serve (c : Channel) : Request → Stage × Channel
  | rest s => (s, c)
  | send v sent refused =>
    match c.send v with
    | .ok c => (sent, c)
    | .error f => (refused f, c)
  | receive got waiting ended =>
    match c.recv with
    | (.value v, c) => (got v, c)
    | (.nothing, c) => (waiting, c)
    | (.ended, c) => (ended (.recvClosed c.name), c)
  | close s => (s, c.close)

variable {r q : Request} {c : Channel}

theorem serve_receive_snd (got : Int → Stage) (waiting : Stage) (ended : ChannelFault → Stage)
    (c : Channel) : ((receive got waiting ended).serve c).2 = c.recv.2 := by
  simp only [serve]
  rcases c.recv with ⟨v | - | -, d⟩ <;> rfl

/-- The stage after a receive depends on what was received and on the channel's name. -/
theorem serve_receive_fst {got : Int → Stage} {waiting : Stage} {ended : ChannelFault → Stage}
    {c d : Channel} (h : d.recv.1 = c.recv.1) (hn : d.name = c.name) :
    ((receive got waiting ended).serve d).1 = ((receive got waiting ended).serve c).1 := by
  have hn' : d.recv.2.name = c.recv.2.name := by rw [Channel.name_recv, Channel.name_recv, hn]
  simp only [serve]
  generalize c.recv = x, d.recv = y at h hn'
  obtain ⟨x₁, x₂⟩ := x
  obtain ⟨y₁, y₂⟩ := y
  simp only at h hn'
  subst h
  cases y₁ <;> simp [hn']

theorem ordered_serve (r : Request) (hc : c.Ordered) : (r.serve c).2.Ordered := by
  cases r with
  | rest s => exact hc
  | send v sent refused =>
    simp only [serve]
    cases h : c.send v with
    | ok d => exact hc.send h
    | error f => exact hc
  | receive got waiting ended => rw [serve_receive_snd]; exact hc.recv
  | close s => exact Channel.ordered_close c

/-- What is done at the back of a queue does not empty it. -/
theorem queue_serve_ne_nil (hr : r.side = .output) (hq : c.queue ≠ []) :
    (r.serve c).2.queue ≠ [] := by
  cases r with
  | rest s => exact hq
  | send v sent refused =>
    simp only [serve]
    cases h : c.send v with
    | ok d => exact Channel.queue_send_ne_nil h
    | error f => exact hq
  | receive got waiting ended => cases hr
  | close s => exact Channel.queue_close_ne_nil hq

/-- A request of the sender and one of the receiver commute on a queue that holds something. -/
theorem serve_comm (hr : r.side = .output) (hq : q.side = .input) (hc : c.Ordered)
    (hne : c.queue ≠ []) :
    (q.serve (r.serve c).2).1 = (q.serve c).1 ∧ (r.serve (q.serve c).2).1 = (r.serve c).1 ∧
      (q.serve (r.serve c).2).2 = (r.serve (q.serve c).2).2 := by
  obtain ⟨got, waiting, ended, rfl⟩ : ∃ got waiting ended, q = receive got waiting ended := by
    cases q with
    | receive got waiting ended => exact ⟨got, waiting, ended, rfl⟩
    | rest | send | close => cases hq
  simp only [serve_receive_snd]
  cases r with
  | rest s => exact ⟨rfl, rfl, rfl⟩
  | send v sent refused =>
    simp only [serve]
    cases h : c.send v with
    | ok d =>
      obtain ⟨h1, h2⟩ := Channel.recv_send hc hne h
      rw [h2]
      exact ⟨serve_receive_fst h1 (Channel.name_send h), rfl, rfl⟩
    | error f =>
      rw [Channel.recv_send_error h]
      exact ⟨rfl, rfl, rfl⟩
  | receive got waiting ended => cases hr
  | close s =>
    have h := Channel.recv_close hc hne
    refine ⟨serve_receive_fst (by rw [serve, h]) (Channel.name_close c), rfl, ?_⟩
    simp only [serve, h]

end Request

namespace Stage

/-- The stage after an effect that needs no value. -/
def settled (m : Machine) : Effect → Stage
  | .next b | .write _ b => ⟨m, .running b⟩
  | .halt => ⟨m, .closing none⟩
  | .read t b => ⟨m, .reading t b⟩

/-- The stage that has received a value for the target `t`. -/
def resume (m : Machine) (t b v : Int) : Stage :=
  match Machine.poke t v m with
  | .ok _ m => ⟨m, .running b⟩
  | .error f m => ⟨m, .raised f⟩

variable {s : Stage}

def request (s : Stage) : Request :=
  match s.status with
  | .running a =>
    match Machine.execute a s.machine with
    | .ok (.write v b) m =>
      .send v (settled m (.write v b)) fun f => ⟨m, .raised (.device .output (.channel f))⟩
    | .ok e m => .rest (settled m e)
    | .error f m => .rest ⟨m, .raised f⟩
  | .reading t b =>
    .receive (resume s.machine t b) s fun f => ⟨s.machine, .raised (.device .input (.channel f))⟩
  | .raised f => .rest ⟨s.machine, .closing (some f)⟩
  | .closing outcome => .close ⟨s.machine, .finished outcome⟩
  | .finished _ => .rest s

theorem side_request_running (m : Machine) (a : Int) :
    (Stage.mk m (.running a)).request.side = .output := by
  simp only [request]
  split <;> rfl

theorem side_request_eq_input : s.request.side = .input ↔ ∃ t b, s.status = .reading t b := by
  obtain ⟨m, status⟩ := s
  cases status with
  | running a => simp [side_request_running]
  | reading t b => simp [request, Request.side]
  | raised | closing | finished => simp [request, Request.side]

/-- The fault that the next step records. -/
def failure? (s : Stage) : Option Fault :=
  match s.status with
  | .raised f => some f
  | _ => none

end Stage

namespace Network
variable {n : Network} {i : Nat} {s : Stage} {c : Channel}

/-- The channel at which a request of stage `i` is served. -/
def port (n : Network) (i : Nat) (r : Request) : Nat :=
  match r.side with
  | .input => i
  | .output => n.sink i

theorem set_self {α : Type} {l : List α} {k : Nat} {x : α} (h : l[k]? = some x) :
    l.set k x = l := by
  obtain ⟨hk, rfl⟩ := List.getElem?_eq_some_iff.mp h
  exact List.set_getElem_self hk

theorem onChannel_of_ok {α : Type} {side : Side} {k : Nat} {x : EStateM Fault Channel α}
    {cs : List Channel} {d : Channel} {r : α} (hc : cs[k]? = some c) (hx : x c = .ok r d) :
    onChannel side k x cs = .ok r (cs.set k d) := by
  simp only [onChannel, hc, hx]

theorem onChannel_of_error {α : Type} {side : Side} {k : Nat} {x : EStateM Fault Channel α}
    {cs : List Channel} {d : Channel} {f : Fault} (hc : cs[k]? = some c) (hx : x c = .error f d) :
    onChannel side k x cs = .error f (cs.set k d) := by
  simp only [onChannel, hc, hx]

theorem act_of_ok {m : Machine} {x : SessionM (List Channel) Progress} {p : Progress}
    {t : Session (List Channel)} (h : x { machine := m, world := n.channels } = .ok p t) :
    n.act i m x = ⟨n.stages.set i ⟨t.machine, .ofProgress p⟩, t.world, n.failures⟩ := by
  simp only [act, h, List.set_set]

theorem act_of_error {m : Machine} {x : SessionM (List Channel) Progress} {f : Fault}
    {t : Session (List Channel)} (h : x { machine := m, world := n.channels } = .error f t) :
    n.act i m x = ⟨n.stages.set i ⟨t.machine, .raised f⟩, t.world, n.failures⟩ := by
  simp only [act, h, List.set_set]

/-- The state of a channel after the wiring of a stage has sent a value to it. -/
theorem wiring_write_of_ok {v : Int} {d : Channel} (hc : n.channels[n.sink i]? = some c)
    (h : c.send v = .ok d) :
    (wiring i (n.sink i)).write v n.channels = .ok () (n.channels.set (n.sink i) d) :=
  onChannel_of_ok hc (by simp only [Channel.deliver, h])

theorem wiring_write_of_error {v : Int} {f : ChannelFault} (hc : n.channels[n.sink i]? = some c)
    (h : c.send v = .error f) :
    (wiring i (n.sink i)).write v n.channels =
      .error (.device .output (.channel f)) (n.channels.set (n.sink i) c) :=
  onChannel_of_error hc (by simp only [Channel.deliver, h])

theorem advance_running {m : Machine} {a : Int} (hs : n.stages[i]? = some ⟨m, .running a⟩)
    (hc : n.channels[n.sink i]? = some c) :
    n.advance i =
      { n with
        stages := n.stages.set i ((Stage.mk m (.running a)).request.serve c).1
        channels := n.channels.set (n.sink i) ((Stage.mk m (.running a)).request.serve c).2 } := by
  simp only [advance, hs, Stage.request]
  cases he : Machine.execute a m with
  | error f m' =>
    rw [act_of_error (Session.issue_of_error he)]
    simp only [Request.serve, set_self hc]
  | ok e m' =>
    cases e with
    | next b =>
      rw [act_of_ok (Session.issue_of_next he)]
      simp only [Request.serve, set_self hc]
      rfl
    | halt =>
      rw [act_of_ok (Session.issue_of_halt he)]
      simp only [Request.serve, set_self hc]
      rfl
    | read t b =>
      rw [act_of_ok (Session.issue_of_read he)]
      simp only [Request.serve, set_self hc]
      rfl
    | write v b =>
      cases hv : c.send v with
      | ok d =>
        rw [act_of_ok (Session.issue_of_write he (wiring_write_of_ok hc hv))]
        simp only [Request.serve, hv]
        rfl
      | error f =>
        rw [act_of_error (Session.issue_of_write_error he (wiring_write_of_error hc hv))]
        simp only [Request.serve, hv]

theorem advance_reading {m : Machine} {t b : Int} (hs : n.stages[i]? = some ⟨m, .reading t b⟩)
    (hc : n.channels[i]? = some c) :
    n.advance i =
      { n with
        stages := n.stages.set i ((Stage.mk m (.reading t b)).request.serve c).1
        channels := n.channels.set i ((Stage.mk m (.reading t b)).request.serve c).2 } := by
  have hread : ∀ {r : EStateM.Result Fault Channel (Option Int)}, Channel.fetch c = r →
      (wiring i (n.sink i)).read n.channels = match r with
        | .ok v d => .ok v (n.channels.set i d)
        | .error f d => .error f (n.channels.set i d) := by
    intro r hr
    cases r with
    | ok v d => exact onChannel_of_ok hc hr
    | error f d => exact onChannel_of_error hc hr
  simp only [advance, hs, Stage.request, Request.serve]
  match hr : c.recv with
  | (.nothing, d) =>
    have hf : Channel.fetch c = .ok none d := by simp only [Channel.fetch, hr]
    rw [act_of_ok (Session.complete_of_none (hread hf))]
    rfl
  | (.ended, d) =>
    have hf : Channel.fetch c = .error (.device .input (.channel (.recvClosed d.name))) d := by
      simp only [Channel.fetch, hr]
    rw [act_of_error (Session.complete_of_error (hread hf))]
  | (.value v, d) =>
    have hf : Channel.fetch c = .ok (some v) d := by simp only [Channel.fetch, hr]
    simp only [Stage.resume]
    cases hp : Machine.poke t v m with
    | ok old m' => rw [act_of_ok (Session.complete_of_some (hread hf) hp)]; rfl
    | error f m' => rw [act_of_error (Session.complete_of_some_error (hread hf) hp)]

/-- A step of stage `i` serves its request, and records a fault that was raised. -/
theorem advance_eq (hs : n.stages[i]? = some s) (hc : n.channels[n.port i s.request]? = some c) :
    n.advance i =
      { stages := n.stages.set i (s.request.serve c).1
        channels := n.channels.set (n.port i s.request) (s.request.serve c).2
        failures := n.failures ++ s.failure?.toList.map (i, ·) } := by
  obtain ⟨m, status⟩ := s
  cases status with
  | running a =>
    simp only [port, Stage.side_request_running] at hc ⊢
    rw [advance_running hs hc]
    simp only [Stage.failure?, Option.toList_none, List.map_nil, List.append_nil]
  | reading t b =>
    rw [advance_reading hs hc]
    simp only [Stage.failure?, Option.toList_none, List.map_nil, List.append_nil]
    rfl
  | raised f =>
    simp only [Stage.request, port, Request.side] at hc
    simp only [advance, hs, Stage.request, Request.serve, port, Request.side, set_self hc,
      Stage.failure?, Option.toList_some, List.map_cons, List.map_nil]
  | closing outcome =>
    simp only [Stage.request, port, Request.side] at hc
    have hm : n.channels.modify (n.sink i) Channel.close = n.channels.set (n.sink i) c.close := by
      rw [List.modify_eq_set, hc]
      rfl
    simp only [advance, hs, hm, Stage.request, Request.serve, port, Request.side, Stage.failure?,
      Option.toList_none, List.map_nil, List.append_nil]
  | finished outcome =>
    simp only [Stage.request, port, Request.side] at hc
    simp only [advance, hs, Stage.request, Request.serve, port, Request.side, set_self hc,
      set_self hs, Stage.failure?, Option.toList_none, List.map_nil, List.append_nil]

end Network

end Intcode
