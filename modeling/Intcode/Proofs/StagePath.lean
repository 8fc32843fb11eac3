import Intcode.Proofs.NetworkOrder
import Intcode.Proofs.Path

/-! # A stage that steps alone

While the other stages of a line wait, one stage can go its own way, from the channel that it reads
to the next one. `Spot` is the network around such a stage and its two channels. -/

namespace Intcode.Network

/-- What stands around one stage and its two channels. No fault has been recorded. -/
structure Spot where
  before : List Stage
  after : List Stage
  used : List Channel
  fresh : List Channel
  aligned : used.length = before.length

namespace Spot
variable (p : Spot) {s : Stage} {c d : Channel}

/-- The network with the stage `s`, which reads `c` and writes `d`. -/
def fill (s : Stage) (c d : Channel) : Network where
  stages := p.before ++ s :: p.after
  channels := p.used ++ c :: d :: p.fresh

/-- The index of the stage, and of the channel that it reads. -/
def index : Nat := p.before.length

theorem stages_fill : (p.fill s c d).stages[p.index]? = some s := by
  simp [fill, index]

theorem source_fill : (p.fill s c d).channels[p.index]? = some c := by
  simp [fill, index, ← p.aligned]

theorem sink_fill : (p.fill s c d).sink p.index = p.index + 1 := by
  refine Nat.mod_eq_of_lt ?_
  simp only [fill, index, ← p.aligned, List.length_append, List.length_cons]
  omega

theorem target_fill : (p.fill s c d).channels[p.index + 1]? = some d := by
  have h : p.used.length + 1 - p.used.length = 1 := by omega
  rw [index, ← p.aligned, fill, List.getElem?_append_right (by omega), h]
  rfl

theorem advance_fill_input (hside : s.request.side = .input) (hf : s.failure? = none) :
    (p.fill s c d).advance p.index = p.fill (s.request.serve c).1 (s.request.serve c).2 d := by
  have hport : (p.fill s c d).port p.index s.request = p.index := by simp only [port, hside]
  rw [advance_eq p.stages_fill (by rw [hport]; exact p.source_fill), hport, hf]
  simp [fill, index, ← p.aligned]

theorem advance_fill_output (hside : s.request.side = .output) (hf : s.failure? = none) :
    (p.fill s c d).advance p.index = p.fill (s.request.serve d).1 c (s.request.serve d).2 := by
  have hport : (p.fill s c d).port p.index s.request = p.index + 1 := by
    simp only [port, hside, sink_fill]
  rw [advance_eq p.stages_fill (by rw [hport]; exact p.target_fill), hport, hf]
  simp [fill, index, ← p.aligned]

theorem ready_fill (hf : s.isFinished = false) (hq : c.queue ≠ []) :
    (p.fill s c d).ready p.index = true :=
  ready_iff.mpr ⟨s, p.stages_fill, hf, fun _ => starved_of_queue_ne_nil p.source_fill hq⟩

/-! ### From the steps of a machine to steps of the network -/

variable {source sink : String} {vs ws : List Int} {a b : Int} {m m' : Machine}

/-- A closed channel with the values `vs` on it, and an open one. -/
def between (s : Stage) (source sink : String) (vs ws : List Int) : Network :=
  p.fill s (Channel.ofList source vs).close (.ofList sink ws)

theorem queue_close_ofList_ne_nil (name : String) (vs : List Int) :
    (Channel.ofList name vs).close.queue ≠ [] := by
  cases vs <;> exact List.cons_ne_nil _ _

theorem run_of_rest {s t : Stage} (hreq : s.request = .rest t) (hf : s.failure? = none)
    (hs : s.isFinished = false) :
    (p.between s source sink vs ws).Run [p.index] (p.between t source sink vs ws) := by
  refine ⟨p.ready_fill hs (queue_close_ofList_ne_nil source vs), ?_⟩
  refine (p.advance_fill_output (by rw [hreq]; rfl) hf).trans ?_
  rw [hreq]
  rfl

theorem run_of_send {s t : Stage} {v : Int} {refused : ChannelFault → Stage}
    (hreq : s.request = .send v t refused) (hf : s.failure? = none) (hs : s.isFinished = false) :
    (p.between s source sink vs ws).Run [p.index] (p.between t source sink vs (ws ++ [v])) := by
  refine ⟨p.ready_fill hs (queue_close_ofList_ne_nil source vs), ?_⟩
  refine (p.advance_fill_output (by rw [hreq]; rfl) hf).trans ?_
  rw [hreq]
  simp only [Request.serve, Channel.send_ofList]
  rfl

theorem run_of_receive {s : Stage} {v : Int} {got : Int → Stage} {waiting : Stage}
    {ended : ChannelFault → Stage} (hreq : s.request = .receive got waiting ended)
    (hf : s.failure? = none) (hs : s.isFinished = false) :
    (p.between s source sink (v :: vs) ws).Run [p.index] (p.between (got v) source sink vs ws) := by
  refine ⟨p.ready_fill hs (queue_close_ofList_ne_nil source (v :: vs)), ?_⟩
  refine (p.advance_fill_input (by rw [hreq]; rfl) hf).trans ?_
  rw [hreq]
  rfl

theorem run_of_close {s t : Stage} {c d : Channel} (hreq : s.request = .close t)
    (hf : s.failure? = none) (hs : s.isFinished = false) (hq : c.queue ≠ []) :
    (p.fill s c d).Run [p.index] (p.fill t c d.close) := by
  refine ⟨p.ready_fill hs hq, ?_⟩
  refine (p.advance_fill_output (by rw [hreq]; rfl) hf).trans ?_
  rw [hreq]
  rfl

theorem run_of_moves (source sink : String) (vs ws : List Int) {e : Event} (h : m.Moves a e b m') :
    ∃ js, (p.between ⟨m, .running a⟩ source sink (Event.received [e] ++ vs) ws).Run js
      (p.between ⟨m', .running b⟩ source sink vs (ws ++ Event.sent [e])) := by
  cases h with
  | next h =>
    have hreq : (Stage.mk m (.running a)).request = .rest ⟨m', .running b⟩ := by
      simp only [Stage.request, h, Stage.settled]
    rw [Event.sent_silent, List.append_nil]
    exact ⟨_, p.run_of_rest hreq rfl rfl⟩
  | @write v b m' h =>
    have hreq : ∃ refused,
        (Stage.mk m (.running a)).request = .send v ⟨m', .running b⟩ refused := by
      simp only [Stage.request, h, Stage.settled]
      exact ⟨_, rfl⟩
    obtain ⟨refused, hreq⟩ := hreq
    exact ⟨_, p.run_of_send hreq rfl rfl⟩
  | @read t v b old m₁ m' h hp =>
    have hreq : (Stage.mk m (.running a)).request = .rest ⟨m₁, .reading t b⟩ := by
      simp only [Stage.request, h, Stage.settled]
    have hgot : Stage.resume m₁ t b v = ⟨m', .running b⟩ := by simp only [Stage.resume, hp]
    rw [Event.sent_receive, List.append_nil, ← hgot]
    exact ⟨_, (p.run_of_rest hreq rfl rfl).append (p.run_of_receive rfl rfl rfl)⟩

/-- A machine finds its whole path in the network if its channel is closed already. -/
theorem run_of_path (source sink : String) (vs ws : List Int) {es : List Event}
    (h : m.Path a es b m') :
    ∃ js, (p.between ⟨m, .running a⟩ source sink (Event.received es ++ vs) ws).Run js
      (p.between ⟨m', .running b⟩ source sink vs (ws ++ Event.sent es)) := by
  induction h generalizing ws with
  | refl a m =>
    refine ⟨[], ?_⟩
    rw [Event.sent_nil, List.append_nil]
    rfl
  | @step a b c m m₁ m₂ e es hm _ ih =>
    obtain ⟨js, hjs⟩ := p.run_of_moves source sink (Event.received es ++ vs) ws hm
    obtain ⟨ks, hks⟩ := ih (ws ++ Event.sent [e])
    refine ⟨js ++ ks, ?_⟩
    rw [Event.received_cons e es, Event.sent_cons e es, List.append_assoc, ← List.append_assoc ws]
    exact hjs.append hks

/-- The stage as its machine leaves it at the end, and its output closed behind what was sent. -/
theorem run_of_halt (source sink : String) (vs ws : List Int) {es : List Event} {m₁ : Machine}
    (h : m.Path a es b m₁) (he : Machine.execute b m₁ = .ok .halt m') :
    ∃ js, (p.between ⟨m, .running a⟩ source sink (Event.received es ++ vs) ws).Run js
      (p.fill ⟨m', .finished none⟩ (Channel.ofList source vs).close
        (Channel.ofList sink (ws ++ Event.sent es)).close) := by
  obtain ⟨js, hjs⟩ := p.run_of_path source sink vs ws h
  have hreq : (Stage.mk m₁ (.running b)).request = .rest ⟨m', .closing none⟩ := by
    simp only [Stage.request, he, Stage.settled]
  have hend : (p.between ⟨m₁, .running b⟩ source sink vs (ws ++ Event.sent es)).Run [p.index]
      (p.between ⟨m', .closing none⟩ source sink vs (ws ++ Event.sent es)) :=
    p.run_of_rest hreq rfl rfl
  exact ⟨_, hjs.append (hend.append
    (p.run_of_close rfl rfl rfl (queue_close_ofList_ne_nil source vs)))⟩

end Spot

end Intcode.Network
