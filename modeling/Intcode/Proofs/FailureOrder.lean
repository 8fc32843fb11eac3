import Intcode.Proofs.NetworkOrder
import Intcode.Proofs.StageFailure

/-! # The order of failures in a network

Traffic ends where the writer has closed the channel, and a writer that fails records its fault
before it closes. So in the list of failures the fault of a writer stands before the starvation that
follows from it, and the first fault of all is no consequence of another one. What carries the proof
is `Causal`: a channel is closed exactly when its writer has finished, and whoever starves does so
at a channel that is closed and empty, and will stay so. -/

namespace Intcode.Network
variable {n m : Network} {i j k : Nat} {s t : Stage} {c d p : Channel} {f g : Fault} {is : List Nat}

theorem of_getElem?_set {α : Type} {l : List α} {x y : α} (h : (l.set i x)[k]? = some y) :
    k = i ∧ y = x ∨ k ≠ i ∧ l[k]? = some y := by
  by_cases hk : k = i
  · subst hk
    rw [List.getElem?_set_self'] at h
    obtain ⟨z, -, rfl⟩ := Option.map_eq_some_iff.mp h
    exact .inl ⟨rfl, rfl⟩
  · rw [List.getElem?_set_ne (Ne.symm hk)] at h
    exact .inr ⟨hk, h⟩

/-- Channels are closed by their writers when these finish, stages fail for the reasons that they
have, and whoever starves has the failure of its writer in front of it in the list, unless the
writer has halted. -/
structure Causal (n : Network) : Prop where
  wellFormed : n.WellFormed
  regular : ∀ c ∈ n.channels, c.Regular
  closed : ∀ {i : Nat} {s : Stage} {d : Channel}, n.stages[i]? = some s →
    n.channels[n.sink i]? = some d → (d.closed = true ↔ s.isFinished = true)
  sound : ∀ {i : Nat} {s : Stage} {c : Channel}, n.stages[i]? = some s →
    n.channels[i]? = some c → s.Sound c
  recorded : ∀ {i : Nat} {f : Fault},
    (i, f) ∈ n.failures ↔ ∃ s, n.stages[i]? = some s ∧ s.recorded? = some f
  earlier : ∀ {before after : List (Nat × Fault)} {j : Nat} {name : String},
    n.failures = before ++ (j, .starvation name) :: after →
    ∀ {i : Nat} {s : Stage}, n.stages[i]? = some s → n.sink i = j →
      s.status = .finished none ∨ ∃ f, (i, f) ∈ before

namespace Causal

theorem regular_of (h : n.Causal) (hc : n.channels[k]? = some c) : c.Regular :=
  h.regular c (List.mem_of_getElem? hc)

/-- The writer of a channel that has ended has halted, or its failure has been recorded. -/
theorem outcome_of_closed (h : n.Causal) (hs : n.stages[i]? = some s)
    (hd : n.channels[n.sink i]? = some d) (hcl : d.closed = true) :
    s.status = .finished none ∨ ∃ f, (i, f) ∈ n.failures := by
  obtain ⟨outcome, ho⟩ := Stage.exists_outcome ((h.closed hs hd).mp hcl)
  cases outcome with
  | none => exact .inl ho
  | some f =>
    refine .inr ⟨f, h.recorded.mpr ⟨s, hs, ?_⟩⟩
    simp only [Stage.recorded?, ho]

/-- Whoever is about to record that it starves finds its writer's failure recorded already. -/
theorem outcome_of_starvation {name : String} (h : n.Causal) (hs : n.stages[j]? = some s)
    (hf : s.fault? = some (.starvation name)) (ht : n.stages[i]? = some t) (hij : n.sink i = j) :
    t.status = .finished none ∨ ∃ f, (i, f) ∈ n.failures := by
  have hc := List.getElem?_eq_getElem (h.wellFormed.lt_channels hs)
  rcases (h.sound hs hc).fault _ hf with hown | ⟨-, hspent⟩
  · exact absurd hown (Fault.not_own_starvation name)
  · subst hij
    exact h.outcome_of_closed ht hc hspent.1

section
variable (h : n.Causal) (hs : n.stages[i]? = some s)
  (hp : n.channels[n.port i s.request]? = some p)
include h hs hp

theorem closed_serve (ht : (n.stages.set i (s.request.serve p).1)[k]? = some t)
    (hd : (n.channels.set (n.port i s.request) (s.request.serve p).2)[n.sink k]? = some d) :
    d.closed = true ↔ t.isFinished = true := by
  have hi := h.wellFormed.lt_channels hs
  cases hside : s.request.side with
  | input =>
    obtain ⟨-, hopen, hopen'⟩ := Stage.serve_input (h.regular_of hp) hside
    -- a receive closes nothing
    obtain ⟨d', hd', hcl⟩ : ∃ d', n.channels[n.sink k]? = some d' ∧ d.closed = d'.closed := by
      rcases of_getElem?_set hd with ⟨hk, rfl⟩ | ⟨-, hd⟩
      · exact ⟨p, by rw [hk, hp], Request.closed_serve_input hside⟩
      · exact ⟨d, hd, rfl⟩
    rw [hcl]
    rcases of_getElem?_set ht with ⟨rfl, rfl⟩ | ⟨-, ht⟩
    · rw [h.closed hs hd', hopen, hopen']
    · exact h.closed ht hd'
  | output =>
    have hport : n.port i s.request = n.sink i := by simp only [port, hside]
    rw [hport] at hp hd
    rcases of_getElem?_set ht with ⟨rfl, rfl⟩ | ⟨hki, ht⟩
    · obtain ⟨c, hc⟩ : ∃ c, n.channels[k]? = some c := ⟨_, List.getElem?_eq_getElem hi⟩
      rcases of_getElem?_set hd with ⟨-, rfl⟩ | ⟨hne, -⟩
      · exact (Stage.serve_output (h.sound hs hc) hside (h.closed hs hp)).2
      · exact absurd rfl hne
    · have hne : n.sink k ≠ n.sink i := fun he =>
        hki (sink_inj (h.wellFormed.lt_channels ht) hi he)
      rcases of_getElem?_set hd with ⟨he, -⟩ | ⟨-, hd⟩
      · exact absurd he hne
      · exact h.closed ht hd

theorem sound_serve (ht : (n.stages.set i (s.request.serve p).1)[k]? = some t)
    (hc : (n.channels.set (n.port i s.request) (s.request.serve p).2)[k]? = some c) :
    t.Sound c := by
  have hreg := h.regular_of hp
  -- a stage that does not step only sees what is done to its channel
  have others : ∀ {t'}, n.stages[k]? = some t' → t'.Sound c := by
    intro t' ht'
    rcases of_getElem?_set hc with ⟨rfl, rfl⟩ | ⟨-, hc⟩
    · exact (h.sound ht' hp).serve hreg _
    · exact h.sound ht' hc
  rcases of_getElem?_set ht with ⟨rfl, rfl⟩ | ⟨-, ht⟩
  · cases hside : s.request.side with
    | input =>
      have hport : n.port k s.request = k := by simp only [port, hside]
      rcases of_getElem?_set hc with ⟨-, rfl⟩ | ⟨hne, -⟩
      · exact (Stage.serve_input hreg hside).1
      · exact absurd hport.symm hne
    | output =>
      have hport : n.port k s.request = n.sink k := by simp only [port, hside]
      rw [hport] at hp
      exact (Stage.serve_output (others hs) hside (h.closed hs hp)).1
  · exact others ht

theorem recorded_serve : (k, f) ∈ n.failures ++ s.failure?.toList.map (i, ·) ↔
    ∃ t, (n.stages.set i (s.request.serve p).1)[k]? = some t ∧ t.recorded? = some f := by
  have hi := (List.getElem?_eq_some_iff.mp hs).1
  have hadd : (k, f) ∈ s.failure?.toList.map (i, ·) ↔ k = i ∧ s.failure? = some f := by
    simp only [List.mem_map, Option.mem_toList, Prod.mk.injEq]
    constructor
    · rintro ⟨f', hf, rfl, rfl⟩
      exact ⟨rfl, hf⟩
    · rintro ⟨rfl, hf⟩
      exact ⟨f, hf, rfl, rfl⟩
  rw [List.mem_append, h.recorded, hadd]
  by_cases hk : k = i
  · subst hk
    rw [List.getElem?_set_self hi, hs]
    simp only [Option.some.injEq, exists_eq_left', Stage.recorded?_serve, true_and]
    constructor
    · rintro (hf | hf)
      · rw [hf, Option.some_or]
      · have hnone : s.recorded? = none := by
          obtain ⟨m, status⟩ := s
          cases status <;> first | rfl | cases hf
        rw [hnone, Option.none_or, hf]
    · intro hf
      exact Option.or_eq_some_iff.mp hf |>.imp id And.right
  · rw [List.getElem?_set_ne (Ne.symm hk)]
    simp only [hk, false_and, or_false]

theorem earlier_serve {before after : List (Nat × Fault)} {name : String}
    (hf : n.failures ++ s.failure?.toList.map (i, ·) = before ++ (j, .starvation name) :: after)
    (ht : (n.stages.set i (s.request.serve p).1)[k]? = some t) (hkj : n.sink k = j) :
    t.status = .finished none ∨ ∃ f, (k, f) ∈ before := by
  -- a writer that has halted stays as it is, and so does one that has not stepped
  have kept : ∀ {t'}, n.stages[k]? = some t' → t'.status = .finished none →
      t.status = .finished none := by
    intro t' ht' hfin
    rcases of_getElem?_set ht with ⟨rfl, rfl⟩ | ⟨-, ht⟩
    · rw [hs] at ht'
      cases ht'
      rw [Stage.serve_of_finished hfin, hfin]
    · rw [ht'] at ht
      cases ht
      exact hfin
  obtain ⟨t', ht'⟩ : ∃ t', n.stages[k]? = some t' := by
    rcases of_getElem?_set ht with ⟨rfl, -⟩ | ⟨-, ht⟩
    · exact ⟨s, hs⟩
    · exact ⟨t, ht⟩
  cases hfail : s.failure? with
  | none =>
    rw [hfail, Option.toList_none, List.map_nil, List.append_nil] at hf
    exact (h.earlier hf ht' hkj).imp_left (kept ht')
  | some f =>
    rw [hfail, Option.toList_some, List.map_singleton] at hf
    rcases List.eq_nil_or_concat after with rfl | ⟨after', e, rfl⟩
    · -- the starvation is the failure that this step records
      obtain ⟨rfl, he⟩ := List.append_inj' hf rfl
      obtain ⟨rfl, rfl⟩ := Prod.mk.inj (List.singleton_inj.mp he)
      have hstarved : s.fault? = some (.starvation name) := by
        obtain ⟨m, status⟩ := s
        cases status <;> first | exact hfail | cases hfail
      exact (h.outcome_of_starvation hs hstarved ht' hkj).imp_left (kept ht')
    · rw [List.concat_eq_append, ← List.cons_append, ← List.append_assoc] at hf
      obtain ⟨hf, -⟩ := List.append_inj' hf rfl
      exact (h.earlier hf ht' hkj).imp_left (kept ht')

end

theorem advance (h : n.Causal) (i : Nat) : (n.advance i).Causal := by
  cases hs : n.stages[i]? with
  | none => simpa only [Network.advance, hs] using h
  | some s =>
    obtain ⟨p, hp⟩ := h.wellFormed.port_channel hs s.request
    have hwf := h.wellFormed.advance i
    rw [advance_eq hs hp] at hwf ⊢
    have hsink : ∀ k, Network.sink ⟨n.stages.set i (s.request.serve p).1,
        n.channels.set (n.port i s.request) (s.request.serve p).2,
        n.failures ++ s.failure?.toList.map (i, ·)⟩ k = n.sink k := by
      intro k
      simp only [sink, List.length_set]
    constructor
    case wellFormed => exact hwf
    case regular =>
      intro c hc
      rcases List.mem_or_eq_of_mem_set hc with hc | rfl
      · exact h.regular c hc
      · exact s.request.regular_serve (h.regular_of hp)
    case closed =>
      intro k t d ht hd
      rw [hsink] at hd
      exact h.closed_serve hs hp ht hd
    case sound =>
      intro k t c ht hc
      exact h.sound_serve hs hp ht hc
    case recorded =>
      intro k f
      exact h.recorded_serve hs hp
    case earlier =>
      intro before after j name hf k t ht hkj
      rw [hsink] at hkj
      exact h.earlier_serve hs hp hf ht hkj

end Causal

/-- Before the first step nothing has failed, and only what no stage writes may be closed. -/
theorem causal_of_start (hwf : n.WellFormed) (hreg : ∀ c ∈ n.channels, c.Regular)
    (hstart : ∀ s ∈ n.stages, ∃ m, s = Stage.start m)
    (hopen : ∀ i, i < n.stages.length → ∀ d, n.channels[n.sink i]? = some d → d.closed = false)
    (hf : n.failures = []) : n.Causal := by
  have started : ∀ {i : Nat} {s : Stage}, n.stages[i]? = some s → ∃ m, s = Stage.start m :=
    fun hs => hstart _ (List.mem_of_getElem? hs)
  constructor
  case wellFormed => exact hwf
  case regular => exact hreg
  case closed =>
    intro i s d hs hd
    obtain ⟨m, rfl⟩ := started hs
    rw [hopen i (List.getElem?_eq_some_iff.mp hs).1 d hd]
    exact iff_of_false Bool.false_ne_true Bool.false_ne_true
  case sound =>
    intro i s c hs _
    obtain ⟨m, rfl⟩ := started hs
    exact Stage.sound_of_running m 0
  case recorded =>
    intro i f
    rw [hf]
    constructor
    · intro h
      cases h
    · rintro ⟨s, hs, hr⟩
      obtain ⟨m, rfl⟩ := started hs
      cases hr
  case earlier =>
    intro before after j name h
    rw [hf] at h
    exact absurd h.symm (by simp)

theorem causal_line (machines : List Machine) (values : List Int) :
    (line machines values).Causal := by
  refine causal_of_start (wellFormed_line machines values) ?_ ?_ ?_ rfl
  · intro c hc
    simp only [line, List.mem_cons, List.mem_map] at hc
    rcases hc with rfl | ⟨i, -, rfl⟩
    · exact (Channel.regular_ofList _ values).close.1
    · exact Channel.regular_ofList _ []
  · intro s hs
    obtain ⟨m, -, rfl⟩ := List.mem_map.mp hs
    exact ⟨m, rfl⟩
  · intro i hi d hd
    -- what a stage writes stands behind the first channel
    have hsink : (line machines values).sink i = i + 1 := by
      rw [sink, length_channels_line]
      exact Nat.mod_eq_of_lt (Nat.succ_lt_succ (by simpa [line] using hi))
    rw [hsink, line, List.getElem?_cons_succ, List.getElem?_map] at hd
    obtain ⟨k, -, rfl⟩ := Option.map_eq_some_iff.mp hd
    rfl

theorem causal_ring (image phases : List Int) (signal : Int) :
    (ring image phases signal).Causal := by
  have filled : ∀ c ∈ (ring image phases signal).channels, ∃ name vs, c = .ofList name vs := by
    intro c hc
    obtain ⟨⟨phase, i⟩, -, rfl⟩ := List.mem_map.mp hc
    exact ⟨_, _, rfl⟩
  refine causal_of_start (wellFormed_ring image phases signal) ?_ ?_ ?_ rfl
  · intro c hc
    obtain ⟨name, vs, rfl⟩ := filled c hc
    exact Channel.regular_ofList name vs
  · intro s hs
    obtain ⟨phase, -, rfl⟩ := List.mem_map.mp hs
    exact ⟨_, rfl⟩
  · intro i _ d hd
    obtain ⟨name, vs, rfl⟩ := filled d (List.mem_of_getElem? hd)
    rfl

theorem Initial.causal (h : Initial n) : n.Causal := by
  cases h with
  | line machines values => exact causal_line machines values
  | ring image phases signal _ => exact causal_ring image phases signal

theorem length_advance (h : n.WellFormed) (i : Nat) :
    (n.advance i).stages.length = n.stages.length ∧
      (n.advance i).channels.length = n.channels.length := by
  cases hs : n.stages[i]? with
  | none => simp only [advance, hs, and_self]
  | some s =>
    obtain ⟨c, hc⟩ := h.port_channel hs s.request
    rw [advance_eq hs hc]
    exact ⟨List.length_set, List.length_set⟩

/-- What holds all along the runs of `n`. -/
structure Follows (n m : Network) : Prop where
  causal : m.Causal
  stages : m.stages.length = n.stages.length
  channels : m.channels.length = n.channels.length

theorem Follows.advance (h : Follows n m) (i : Nat) : Follows n (m.advance i) := by
  obtain ⟨hstages, hchannels⟩ := length_advance h.causal.wellFormed i
  exact ⟨h.causal.advance i, hstages.trans h.stages, hchannels.trans h.channels⟩

theorem Initial.follows (hn : Initial n) (hrun : n.Run is m) : Follows n m := by
  have hstep : ∀ m i, Follows n m → interleaving.Ready m i → Follows n (interleaving.step i m) :=
    fun m i hm _ => hm.advance i
  exact hrun.preserves hstep ⟨hn.causal, rfl, rfl⟩

/-- A channel is written by a stage, the first one of a line aside. -/
theorem exists_writer (hj : j < n.stages.length) (hle : n.stages.length ≤ n.channels.length)
    (h : j ≠ 0 ∨ n.channels.length = n.stages.length) :
    ∃ i t, n.stages[i]? = some t ∧ n.sink i = j := by
  have writes : ∀ i, i < n.stages.length → n.sink i = j →
      ∃ i t, n.stages[i]? = some t ∧ n.sink i = j :=
    fun i hi hs => ⟨i, _, List.getElem?_eq_getElem hi, hs⟩
  by_cases h0 : j = 0
  · refine writes (n.stages.length - 1) (by omega) ?_
    have hlen : n.stages.length - 1 + 1 = n.channels.length := by omega
    rw [sink, hlen, Nat.mod_self, h0]
  · refine writes (j - 1) (by omega) ?_
    rw [sink, Nat.sub_add_cancel (by omega), Nat.mod_eq_of_lt (by omega)]

/-- A stage that has failed stands in the list with that failure only. -/
theorem Causal.mem_of_outcome (h : n.Causal) {before : List (Nat × Fault)}
    (hsub : before ⊆ n.failures) (ht : n.stages[i]? = some t) (hg : t.fault? = some g)
    (hout : t.status = .finished none ∨ ∃ f, (i, f) ∈ before) : (i, g) ∈ before := by
  rcases hout with hfin | ⟨f, hf⟩
  · rw [Stage.fault?, hfin] at hg
    cases hg
  · obtain ⟨t', ht', hrec⟩ := h.recorded.mp (hsub hf)
    obtain rfl : t = t' := Option.some.inj (ht.symm.trans ht')
    obtain rfl : g = f := Option.some.inj (hg.symm.trans (Stage.fault?_of_recorded? hrec))
    exact hf

theorem Initial.line_or_ring (hn : Initial n) :
    (∃ machines values, n = Network.line machines values) ∨
      n.channels.length = n.stages.length := by
  cases hn with
  | line machines values => exact .inl ⟨machines, values, rfl⟩
  | ring image phases signal _ => exact .inr (by simp [Network.ring])

/-- The first failure of all: a starvation only behind a writer that has halted, or at the values
that a line was given. -/
theorem Follows.first_failure (h : Follows n m) (hn : Initial n)
    (hf : m.failures.head? = some (j, f)) :
    f.Own ∨ ∃ c, m.channels[j]? = some c ∧ f = .starvation c.name ∧ c.Spent ∧
      ((∃ i t, m.stages[i]? = some t ∧ m.sink i = j ∧ t.Halted) ∨
        j = 0 ∧ ∃ machines values, n = line machines values) := by
  obtain ⟨after, hfail⟩ := List.head?_eq_some_iff.mp hf
  have hmem : (j, f) ∈ m.failures := by simp [hfail]
  obtain ⟨s, hs, hrec⟩ := h.causal.recorded.mp hmem
  have hj := (List.getElem?_eq_some_iff.mp hs).1
  have hc := List.getElem?_eq_getElem (h.causal.wellFormed.lt_channels hs)
  rcases (h.causal.sound hs hc).fault f (Stage.fault?_of_recorded? hrec) with hown | ⟨rfl, hspent⟩
  · exact .inl hown
  · refine .inr ⟨_, hc, rfl, hspent, ?_⟩
    by_cases hline : j = 0 ∧ ∃ machines values, n = line machines values
    · exact .inr hline
    · have hwriter : j ≠ 0 ∨ m.channels.length = m.stages.length := by
        rw [h.stages, h.channels]
        rcases hn.line_or_ring with hl | hr
        · exact .inl fun h0 => hline ⟨h0, hl⟩
        · exact .inr hr
      obtain ⟨i, t, ht, hij⟩ := exists_writer hj h.causal.wellFormed.enough hwriter
      rw [← List.nil_append ((j, _) :: after)] at hfail
      rcases h.causal.earlier hfail ht hij with hfin | ⟨g, hg⟩
      · have hd := List.getElem?_eq_getElem (h.causal.wellFormed.lt_channels ht)
        exact .inl ⟨i, t, ht, hij, hfin, (h.causal.sound ht hd).halt (.inr hfin)⟩
      · cases hg

/-- In every state of a line or a ring, a stage that has failed did so by itself or because the
traffic on its own channel has ended, never because its channel refused a value. If its traffic has
ended and its writer has failed, then the failure of the writer has been recorded, and stands in
front of the other one in the list. So the fault that a network gives, the first one recorded, is
a stage's own, or else the writer has halted, unless there is none and the values that the line was
given have been received. -/
theorem first_failure_is_no_consequence (hn : Initial n) (hrun : n.Run is m) :
    (∀ (j : Nat) (s : Stage) (f : Fault), m.stages[j]? = some s → s.fault? = some f →
      (f.Own ∨ ∃ c, m.channels[j]? = some c ∧ f = .starvation c.name ∧ c.Spent) ∧
      ∀ name, f ≠ .device .output (.channel (.sendClosed name))) ∧
    (∀ (i j : Nat) (s t : Stage) (name : String) (g : Fault), m.stages[j]? = some s →
      s.fault? = some (.starvation name) → m.stages[i]? = some t → m.sink i = j →
      t.fault? = some g →
      (i, g) ∈ m.failures ∧
        ∀ before after, m.failures = before ++ (j, .starvation name) :: after → (i, g) ∈ before) ∧
    (∀ (j : Nat) (f : Fault), m.failures.head? = some (j, f) →
      (m.isFinished = true → ∀ k, m.result? k = some (.error f)) ∧
      (f.Own ∨ ∃ c, m.channels[j]? = some c ∧ f = .starvation c.name ∧ c.Spent ∧
        ((∃ i t, m.stages[i]? = some t ∧ m.sink i = j ∧ t.Halted) ∨
          j = 0 ∧ ∃ machines values, n = line machines values))) := by
  have h := hn.follows hrun
  refine ⟨?_, ?_, ?_⟩
  · intro j s f hs hf
    have hc := List.getElem?_eq_getElem (h.causal.wellFormed.lt_channels hs)
    rcases (h.causal.sound hs hc).fault f hf with hown | ⟨hst, hspent⟩
    · refine ⟨.inl hown, ?_⟩
      rintro name rfl
      exact hown
    · refine ⟨.inr ⟨_, hc, hst, hspent⟩, ?_⟩
      rintro name rfl
      cases hst
  · intro i j s t name g hs hf ht hij hg
    refine ⟨?_, fun before after hfail => ?_⟩
    · exact h.causal.mem_of_outcome (List.Subset.refl _) ht hg
        (h.causal.outcome_of_starvation hs hf ht hij)
    · have hsub : before ⊆ m.failures := by
        rw [hfail]
        exact List.subset_append_left _ _
      exact h.causal.mem_of_outcome hsub ht hg (h.causal.earlier hfail ht hij)
  · intro j f hf
    refine ⟨fun hfin k => ?_, h.first_failure hn hf⟩
    obtain ⟨after, hfail⟩ := List.head?_eq_some_iff.mp hf
    rw [result?, if_pos hfin, hfail]

/-- Each phase is the second instruction of its stage: one is none, the other one reads again. -/
theorem first_failure_is_no_consequence_ring :
    let n := ring [3, 2, 0] [42, 3] 5
    let is := [1, 1, 1, 0, 0, 0, 0, 0, 1, 1, 1]
    let m := is.foldl (fun n i => n.advance i) n
    let own := Fault.decode (.unknownOpcode 42 (some 2))
    Initial n ∧ n.Run is m ∧ m.isFinished = true ∧
      m.failures = [(0, own)] ++ (1, .starvation "amp1") :: [] ∧ (0, own) ∈ [(0, own)] ∧
      m.result? 0 = some (.error own) := by
  intro n is m own
  have hn : Initial n := .ring _ _ _ (by decide)
  have hrun : n.Run is m := by decide +kernel
  have hfin : m.isFinished = true := by decide +kernel
  have hfail : m.failures = [(0, own)] ++ (1, .starvation "amp1") :: [] := by decide +kernel
  obtain ⟨-, hcause, hfirst⟩ := first_failure_is_no_consequence hn hrun
  have hreader : m.stages[1]?.bind Stage.fault? = some (.starvation "amp1") := by decide +kernel
  have hwriter : m.stages[0]?.bind Stage.fault? = some own := by decide +kernel
  obtain ⟨s, hs, hf⟩ := Option.bind_eq_some_iff.mp hreader
  obtain ⟨t, ht, hg⟩ := Option.bind_eq_some_iff.mp hwriter
  have hsink : m.sink 0 = 1 := by decide +kernel
  have hhead : m.failures.head? = some (0, own) := by rw [hfail]; rfl
  obtain ⟨-, hbefore⟩ := hcause 0 1 s t "amp1" own hs hf ht hsink hg
  exact ⟨hn, hrun, hfin, hfail, hbefore _ _ hfail, (hfirst 0 own hhead).1 hfin 0⟩

end Intcode.Network
