import Intcode.Proofs.Feedback
import Intcode.Proofs.Path

/-! # The course of one stage

A stage that steps while all others wait goes the path that its machine goes alone, as long as it
finds the values that it receives on its channel. What it sends is put behind the values on its
sink, and nothing else changes. This is so in a ring of one stage too, where it puts what it sends
behind the values that it has still to receive. -/

namespace Intcode.Network
variable {n n' n'' : Network} {i j : Nat} {s t t' : Stage} {c : Channel} {a b v : Int}
  {m m' m₁ : Machine} {taken taken' : Nat} {sent sent' vs : List Int} {e : Event} {es : List Event}

/-- Stage `i` has come to `t` by itself. It has taken so many values off its channel, and has put
the sent ones on its sink. -/
structure Course (i : Nat) (t : Stage) (taken : Nat) (sent : List Int) (n n' : Network) : Prop where
  run : ∃ js, n.Run js n'
  stages : n'.stages = n.stages.set i t
  channels : n'.channels.length = n.channels.length
  values : ∀ k, n'.values k = (if k = i then (n.values k).drop taken else n.values k) ++
    (if n.sink i = k then sent else [])

namespace Course

theorem sink (h : Course i t taken sent n n') : n'.sink i = n.sink i := by
  rw [Network.sink, Network.sink, h.channels]

theorem stage (h : Course i t taken sent n n') (hi : i < n.stages.length) :
    n'.stages[i]? = some t := by
  rw [h.stages]
  exact List.getElem?_set_self hi

theorem causal (h : Course i t taken sent n n') (hn : n.Causal) : n'.Causal := by
  obtain ⟨js, hrun⟩ := h.run
  exact hrun.preserves (fun n i (hn : Causal n) _ => hn.advance i) hn

theorem refl (hs : n.stages[i]? = some t) : Course i t 0 [] n n where
  run := ⟨[], rfl⟩
  stages := (set_self hs).symm
  channels := rfl
  values k := by simp

/-- The second part of the course takes what has been there from the start. -/
theorem trans (h : Course i t taken sent n n') (h' : Course i t' taken' sent' n' n'')
    (hle : taken + taken' ≤ (n.values i).length) :
    Course i t' (taken + taken') (sent ++ sent') n n'' where
  run := by
    obtain ⟨js, hjs⟩ := h.run
    obtain ⟨ks, hks⟩ := h'.run
    exact ⟨js ++ ks, hjs.append hks⟩
  stages := by rw [h'.stages, h.stages, List.set_set]
  channels := h'.channels.trans h.channels
  values k := by
    rw [h'.values, h.sink, h.values]
    by_cases hk : k = i
    · subst hk
      have hdrop : taken' ≤ ((n.values k).drop taken).length := by
        rw [List.length_drop]
        omega
      rw [if_pos rfl, if_pos rfl, if_pos rfl, List.drop_append_of_le_length hdrop, List.drop_drop,
        List.append_assoc]
      split <;> rfl
    · rw [if_neg hk, if_neg hk, if_neg hk, List.append_assoc]
      split <;> rfl

end Course

/-! ### Single steps -/

/-- A step that asks for no value. -/
theorem Causal.course_of_output (h : n.Causal) (hs : n.stages[i]? = some s)
    (hc : n.channels[n.sink i]? = some c) (hside : s.request.side = .output)
    (hf : s.isFinished = false) :
    Course i (s.request.serve c).1 0 s.written?.toList n (n.advance i) := by
  have hport : n.port i s.request = n.sink i := by simp only [port, hside]
  have hready : n.ready i = true :=
    ready_iff.mpr ⟨s, hs, hf, fun hi => by rw [hside] at hi; cases hi⟩
  refine ⟨⟨[i], hready, rfl⟩, ?_, (length_advance h.wellFormed i).2, fun k => ?_⟩
  · rw [advance_eq hs (by rwa [hport])]
  · have hdrop : (if k = i then (n.values k).drop 0 else n.values k) = n.values k := by
      split <;> rfl
    rw [hdrop]
    by_cases hk : n.sink i = k
    · subst hk
      rw [h.values_advance_output hs hside (h.wellFormed.lt_channels hs), if_pos rfl, if_pos rfl,
        written?, hs]
      rfl
    · rw [if_neg hk, List.append_nil]
      exact values_advance_ne hs (by rwa [hport]) (by rwa [hport])

/-- A step that receives a value. -/
theorem Causal.course_of_receive {t : Int} (h : n.Causal)
    (hs : n.stages[i]? = some ⟨m, .reading t b⟩) (hv : n.values i = v :: vs) :
    Course i (Stage.resume m t b v) 1 [] n (n.advance i) := by
  have hside : (Stage.mk m (.reading t b)).request.side = .input := rfl
  obtain ⟨c, hc⟩ := h.wellFormed.port_channel hs (Stage.mk m (.reading t b)).request
  have hvalues : n.values i = c.values := values_eq hc
  rw [hv] at hvalues
  obtain ⟨d, hr⟩ : ∃ d, c.recv = (.value v, d) := by
    rcases (h.regular_of hc).recv_cases with ⟨-, -, -, hnil⟩ | ⟨u, d, hr, -, hcons, -⟩ | ⟨-, -, hnil⟩
    · rw [hnil] at hvalues
      cases hvalues
    · rw [hcons] at hvalues
      cases hvalues
      exact ⟨d, hr⟩
    · rw [hnil] at hvalues
      cases hvalues
  have hqueue : c.queue ≠ [] := by
    intro hq
    rw [Channel.values_of_nil hq] at hvalues
    cases hvalues
  have hready : n.ready i = true :=
    ready_iff.mpr ⟨_, hs, rfl, fun _ => starved_of_queue_ne_nil hc hqueue⟩
  refine ⟨⟨[i], hready, rfl⟩, ?_, (length_advance h.wellFormed i).2, fun k => ?_⟩
  · rw [advance_eq hs hc]
    simp only [Stage.request, Request.serve, hr]
  · have hnil : (if n.sink i = k then ([] : List Int) else []) = [] := by split <;> rfl
    rw [hnil, List.append_nil]
    have htaken : n.taken? i = some v := by
      rw [taken?, hs]
      show (n.channels[i]?.bind fun c => (Stage.mk m (.reading t b)).taken? c) = some v
      rw [show n.channels[i]? = some c from hc]
      simp only [Option.bind_some, Stage.taken?, hr]
    have hstep := h.values_advance_input hs hside k
    by_cases hk : k = i
    · subst hk
      rw [if_pos rfl, htaken, hv] at hstep
      rw [if_pos rfl, hv]
      exact (List.cons.inj hstep).2
    · rw [if_neg (Ne.symm hk)] at hstep
      rw [if_neg hk]
      exact hstep

theorem Causal.sink_open (h : n.Causal) (hs : n.stages[i]? = some s) (hf : s.isFinished = false) :
    ∃ c, n.channels[n.sink i]? = some c ∧ c.closed = false := by
  have hpos : 0 < n.channels.length := Nat.zero_lt_of_lt (h.wellFormed.lt_channels hs)
  refine ⟨_, List.getElem?_eq_getElem (sink_lt hpos i), ?_⟩
  refine Bool.eq_false_iff.mpr fun hcl => ?_
  rw [(h.closed hs (List.getElem?_eq_getElem (sink_lt hpos i))).mp hcl] at hf
  cases hf

/-! ### From the path of a machine to the course of a stage -/

theorem Causal.course_of_moves (h : n.Causal) (hs : n.stages[i]? = some ⟨m, .running a⟩)
    (hm : m.Moves a e b m') (hv : Event.received [e] <+: n.values i) :
    ∃ n', Course i ⟨m', .running b⟩ (Event.received [e]).length (Event.sent [e]) n n' := by
  obtain ⟨c, hc, hopen⟩ := h.sink_open hs rfl
  have hstep := h.course_of_output hs hc (Stage.side_request_running m a) rfl
  cases hm with
  | next hx =>
    simp only [Stage.request, Stage.written?, hx] at hstep
    exact ⟨_, hstep⟩
  | write hx =>
    simp only [Stage.request, Stage.written?, hx, Request.serve, Channel.send_of_open hopen] at hstep
    exact ⟨_, hstep⟩
  | @read t v b old m₁ m' hx hp =>
    simp only [Stage.request, Stage.written?, hx] at hstep
    obtain ⟨vs, hvs⟩ := hv
    have hvalues : (n.advance i).values i = v :: vs := by
      have hnil : (if n.sink i = i then ([] : List Int) else []) = [] := by split <;> rfl
      rw [hstep.values, if_pos rfl, ← hvs]
      simp [Event.received, Event.received?]
    have hlt : i < n.stages.length := (List.getElem?_eq_some_iff.mp hs).1
    have hreceive := (hstep.causal h).course_of_receive (hstep.stage hlt) hvalues
    have hresume : Stage.resume m₁ t b v = ⟨m', .running b⟩ := by simp only [Stage.resume, hp]
    rw [hresume] at hreceive
    refine ⟨_, hstep.trans hreceive ?_⟩
    rw [← hvs]
    simp [Event.received, Event.received?]

/-- The stage finds the path of its machine, if all that is received on it is there. -/
theorem Causal.course_of_path (hp : m.Path a es b m') (h : n.Causal)
    (hs : n.stages[i]? = some ⟨m, .running a⟩) (hv : Event.received es <+: n.values i) :
    ∃ n', Course i ⟨m', .running b⟩ (Event.received es).length (Event.sent es) n n' := by
  induction hp generalizing n with
  | refl a m => exact ⟨n, .refl hs⟩
  | @step a b c m m₁ m₂ e es hm _ ih =>
    rw [Event.received_cons e es] at hv
    rw [Event.received_cons e es, Event.sent_cons e es, List.length_append]
    obtain ⟨n₁, h₁⟩ := h.course_of_moves hs hm ((List.prefix_append ..).trans hv)
    have hrest : Event.received es <+: n₁.values i := by
      obtain ⟨vs, hvs⟩ := hv
      rw [h₁.values, if_pos rfl, ← hvs, List.append_assoc, List.drop_left, List.append_assoc]
      exact List.prefix_append ..
    have hlt : i < n.stages.length := (List.getElem?_eq_some_iff.mp hs).1
    obtain ⟨n₂, h₂⟩ := ih (h₁.causal h) (h₁.stage hlt) hrest
    refine ⟨n₂, h₁.trans h₂ ?_⟩
    rw [← List.length_append]
    exact hv.length_le

/-- The stage halts where its machine halts, and closes its sink. -/
theorem Causal.course_of_halt (h : n.Causal) (hs : n.stages[i]? = some ⟨m, .running a⟩)
    (hp : m.Path a es b m₁) (he : Machine.execute b m₁ = .ok .halt m')
    (hv : Event.received es <+: n.values i) :
    ∃ n', Course i ⟨m', .finished none⟩ (Event.received es).length (Event.sent es) n n' := by
  have hlt : i < n.stages.length := (List.getElem?_eq_some_iff.mp hs).1
  obtain ⟨n₁, h₁⟩ := h.course_of_path hp hs hv
  have hs₁ := h₁.stage hlt
  have hlt₁ : i < n₁.stages.length := (List.getElem?_eq_some_iff.mp hs₁).1
  obtain ⟨c, hc, -⟩ := (h₁.causal h).sink_open hs₁ rfl
  have hhalt : Course i ⟨m', .closing none⟩ 0 [] n₁ (n₁.advance i) := by
    have hstep := (h₁.causal h).course_of_output hs₁ hc (Stage.side_request_running m₁ b) rfl
    simp only [Stage.request, Stage.written?, he] at hstep
    exact hstep
  have hs₂ := hhalt.stage hlt₁
  have hcausal := hhalt.causal (h₁.causal h)
  obtain ⟨d, hd, -⟩ := hcausal.sink_open hs₂ rfl
  have hclose : Course i ⟨m', .finished none⟩ 0 [] (n₁.advance i) ((n₁.advance i).advance i) :=
    hcausal.course_of_output hs₂ hd rfl rfl
  have hend := h₁.trans (hhalt.trans hclose (Nat.zero_le _)) hv.length_le
  rw [List.append_nil, List.append_nil] at hend
  exact ⟨_, hend⟩

end Intcode.Network
