import Intcode.Channel

/-! # Queues with an end

A channel that was filled with values is `Channel.ofList`, one that was closed behind them its
`close`; the equations say what each operation does to these. In general an end mark stands only in
a closed channel (`Ordered`). Then the two sides of a channel do not disturb each other: what the
sender does at the back of a queue that holds something commutes with a receive at its front. Where
nothing has been put in a queue by hand, it consists of values and, once closed, of one end mark
behind them (`Regular`). -/

namespace Intcode.Channel
variable {c d : Channel} {v : Int}

/-! ### Channels of values -/

theorem send_ofList (name : String) (vs : List Int) (v : Int) :
    (ofList name vs).send v = .ok (ofList name (vs ++ [v])) := by
  simp [send, ofList]

theorem drain_ofList (name : String) (vs : List Int) :
    (ofList name vs).drain = (vs, ofList name []) := by
  simp [drain, ofList, cutValues_map_value, take]

theorem cutValues_append (vs : List Int) (is : List Item) :
    Item.cutValues (vs.map .value ++ .endMark :: is) = (vs, .endMark :: is) := by
  induction vs with
  | nil => rfl
  | cons v vs ih => simp [Item.cutValues, ih]

theorem values_close_ofList (name : String) (vs : List Int) :
    (ofList name vs).close.values = vs := by
  have h : (ofList name vs).close = ⟨name, vs.map .value ++ [.endMark], true⟩ := rfl
  rw [values, drain, h, cutValues_append]
  rfl

/-! ### The end mark -/

/-- An end mark stands in the queue of a closed channel only. -/
def Ordered (c : Channel) : Prop := .endMark ∈ c.queue → c.closed = true

theorem ordered_ofList (name : String) (vs : List Int) : (ofList name vs).Ordered := by
  intro h
  simp [ofList] at h

theorem ordered_close (c : Channel) : c.close.Ordered := fun _ => c.closed_close

theorem Ordered.send (h : c.Ordered) (hs : c.send v = .ok d) : d.Ordered := by
  unfold Channel.send at hs
  split at hs
  · cases hs
  · cases hs
    intro hm
    exact h (by simpa using hm)

/-- What a receive gives, by the front of the queue. -/
theorem recv_cases (c : Channel) :
    (c.queue = [] ∧ c.recv = (.nothing, c)) ∨
    (∃ v is, c.queue = .value v :: is ∧ c.recv = (.value v, { c with queue := is })) ∨
    (∃ is, c.queue = .endMark :: is ∧ c.recv = (.ended, { c with queue := is ++ [.endMark] })) := by
  unfold recv take
  match hq : c.queue with
  | [] => exact .inl ⟨rfl, by simp⟩
  | .value v :: is => exact .inr (.inl ⟨v, is, rfl, by simp⟩)
  | .endMark :: is => exact .inr (.inr ⟨is, rfl, by simp [putBack]⟩)

theorem closed_recv (c : Channel) : c.recv.2.closed = c.closed := by
  rcases c.recv_cases with ⟨-, h⟩ | ⟨v, is, -, h⟩ | ⟨is, -, h⟩ <;> rw [h]

theorem name_recv (c : Channel) : c.recv.2.name = c.name := by
  rcases c.recv_cases with ⟨-, h⟩ | ⟨v, is, -, h⟩ | ⟨is, -, h⟩ <;> rw [h]

theorem Ordered.recv (h : c.Ordered) : c.recv.2.Ordered := by
  rcases c.recv_cases with ⟨-, hr⟩ | ⟨v, is, hq, hr⟩ | ⟨is, hq, hr⟩ <;> rw [hr]
  · exact h
  · exact fun hm => h (by rw [hq]; simp [show Item.endMark ∈ is from hm])
  · exact fun _ => h (by simp [hq])

/-! ### The two sides commute -/

/-- Puts an item at the back of the queue. -/
theorem recv_append {i : Item} (hq : c.queue ≠ []) (hm : .endMark ∉ c.queue) (closed : Bool) :
    recv { c with queue := c.queue ++ [i], closed } =
      (c.recv.1, { c.recv.2 with queue := c.recv.2.queue ++ [i], closed }) := by
  rcases c.recv_cases with ⟨h, -⟩ | ⟨v, is, h, hr⟩ | ⟨is, h, -⟩
  · exact absurd h hq
  · rw [hr]
    simp only [recv, take, h, List.cons_append]
  · exact absurd (by simp [h]) hm

theorem recv_send (hc : c.Ordered) (hq : c.queue ≠ []) (h : c.send v = .ok d) :
    d.recv.1 = c.recv.1 ∧ c.recv.2.send v = .ok d.recv.2 := by
  unfold send at h
  split at h
  · cases h
  · rename_i ho
    cases h
    have hm : .endMark ∉ c.queue := fun hm => ho (hc hm)
    rw [recv_append hq hm c.closed]
    refine ⟨rfl, ?_⟩
    rw [send, closed_recv, if_neg ho, ← closed_recv c]

theorem recv_send_error {f : ChannelFault} (h : c.send v = .error f) :
    c.recv.2.send v = .error f := by
  unfold send at h ⊢
  split at h
  · rename_i hcl
    rw [closed_recv, if_pos hcl, name_recv]
    exact h
  · cases h

theorem recv_close (hc : c.Ordered) (hq : c.queue ≠ []) :
    c.close.recv = (c.recv.1, c.recv.2.close) := by
  unfold close
  split
  · rename_i hcl
    rw [closed_recv, if_pos hcl]
  · rename_i ho
    have hm : .endMark ∉ c.queue := fun hm => ho (hc hm)
    rw [recv_append hq hm true, closed_recv, if_neg ho]

theorem name_send (h : c.send v = .ok d) : d.name = c.name := by
  unfold send at h
  split at h
  · cases h
  · cases h; rfl

theorem name_close (c : Channel) : c.close.name = c.name := by
  unfold close
  split <;> rfl

theorem queue_send_ne_nil (h : c.send v = .ok d) : d.queue ≠ [] := by
  unfold send at h
  split at h
  · cases h
  · cases h; simp

theorem queue_close_ne_nil (hq : c.queue ≠ []) : c.close.queue ≠ [] := by
  unfold close
  split
  · exact hq
  · simp

/-! ### Values and one mark behind them -/

/-- The end mark that belongs in a channel. -/
def marks (closed : Bool) : List Item := if closed then [.endMark] else []

def Regular (c : Channel) : Prop := c.queue = c.values.map .value ++ marks c.closed

theorem values_of_queue {vs : List Int} {closed : Bool}
    (h : c.queue = vs.map .value ++ marks closed) : c.values = vs := by
  have hcut : Item.cutValues c.queue = (vs, marks closed) := by
    rw [h]
    cases closed with
    | false => simpa [marks] using cutValues_map_value vs
    | true => exact cutValues_append vs []
  rw [values, drain, hcut]
  cases closed <;> rfl

theorem values_of_nil (h : c.queue = []) : c.values = [] := by
  have h' : c.queue = ([] : List Int).map .value ++ marks false := h
  exact values_of_queue h'

theorem regular_of_queue {vs : List Int} (h : c.queue = vs.map .value ++ marks c.closed) :
    c.Regular := by
  rwa [Regular, values_of_queue h]

theorem regular_ofList (name : String) (vs : List Int) : (ofList name vs).Regular :=
  regular_of_queue (List.append_nil (vs.map Item.value)).symm

namespace Regular

theorem send (h : c.Regular) (hs : c.send v = .ok d) :
    d.Regular ∧ d.values = c.values ++ [v] ∧ d.closed = false ∧ c.closed = false := by
  unfold Channel.send at hs
  split at hs
  · cases hs
  · rename_i ho
    cases hs
    rw [Bool.not_eq_true] at ho
    have hq : c.queue ++ [.value v] = (c.values ++ [v]).map .value ++ marks c.closed := by
      have hm : marks c.closed = [] := by rw [ho]; rfl
      have h' : c.queue = _ := h
      rw [h', hm, List.append_nil, List.append_nil, List.map_append]
      rfl
    exact ⟨regular_of_queue hq, values_of_queue hq, ho, ho⟩

theorem close (h : c.Regular) : c.close.Regular ∧ c.close.values = c.values := by
  unfold Channel.close
  split
  · exact ⟨h, rfl⟩
  · rename_i ho
    rw [Bool.not_eq_true] at ho
    have hq : c.queue ++ [.endMark] = c.values.map .value ++ marks true := by
      have hm : marks c.closed = [] := by rw [ho]; rfl
      have h' : c.queue = _ := h
      rw [h', hm, List.append_nil]
      rfl
    exact ⟨regular_of_queue hq, values_of_queue hq⟩

/-- What stands at the front. A mark that is put back restores the channel. -/
theorem take_cases (h : c.Regular) :
    (c.take = none ∧ c.queue = [] ∧ c.closed = false ∧ c.values = []) ∨
    (∃ v d, c.take = some (.value v, d) ∧ d.Regular ∧ c.values = v :: d.values ∧
      d.closed = c.closed ∧ d.name = c.name) ∨
    (∃ d, c.take = some (.endMark, d) ∧ d.putBack = c ∧ d.queue = [] ∧ c.closed = true ∧
      c.values = []) := by
  have h' : c.queue = _ := h
  unfold take
  cases hv : c.values with
  | nil =>
    rw [hv] at h'
    cases hcl : c.closed with
    | false =>
      have hq : c.queue = [] := by rw [h', hcl]; rfl
      exact .inl ⟨by rw [hq], hq, rfl, rfl⟩
    | true =>
      have hq : c.queue = [.endMark] := by rw [h', hcl]; rfl
      refine .inr (.inr ⟨{ c with queue := [] }, by rw [hq]; simp [hcl], ?_, rfl, rfl, rfl⟩)
      rw [putBack, List.nil_append, ← hq]
  | cons v vs =>
    rw [hv, List.map_cons, List.cons_append] at h'
    refine .inr (.inl ⟨v, { c with queue := vs.map .value ++ marks c.closed }, by rw [h'], ?_⟩)
    exact ⟨regular_of_queue rfl, by rw [values_of_queue rfl], rfl, rfl⟩

theorem recv_cases (h : c.Regular) :
    (c.recv = (.nothing, c) ∧ c.queue = [] ∧ c.closed = false ∧ c.values = []) ∨
    (∃ v d, c.recv = (.value v, d) ∧ d.Regular ∧ c.values = v :: d.values ∧
      d.closed = c.closed ∧ d.name = c.name) ∨
    (c.recv = (.ended, c) ∧ c.closed = true ∧ c.values = []) := by
  unfold Channel.recv
  rcases h.take_cases with ⟨ht, hrest⟩ | ⟨v, d, ht, hrest⟩ | ⟨d, ht, hd, -, hrest⟩
  · exact .inl ⟨by rw [ht], hrest⟩
  · exact .inr (.inl ⟨v, d, by rw [ht], hrest⟩)
  · exact .inr (.inr ⟨by rw [ht]; exact congrArg _ hd, hrest⟩)

theorem recv (h : c.Regular) : c.recv.2.Regular := by
  rcases h.recv_cases with ⟨hr, -⟩ | ⟨v, d, hr, hd, -⟩ | ⟨hr, -⟩
  · rwa [hr]
  · rwa [hr]
  · rwa [hr]

end Regular

/-- Closed, and all values have been received. -/
def Spent (c : Channel) : Prop := c.closed = true ∧ c.values = []

theorem Spent.recv (h : c.Spent) (hc : c.Regular) : c.recv = (.ended, c) := by
  rcases hc.recv_cases with ⟨-, -, ho, -⟩ | ⟨v, d, -, -, hv, -⟩ | ⟨hr, -⟩
  · rw [h.1] at ho; cases ho
  · rw [h.2] at hv; cases hv
  · exact hr

end Intcode.Channel
