import PpsDht.Lib.Exchange

/-!
# What requests and answers come from

The part of the invariant that is about packets.

* `run_issued`: what is sent belongs to a call that has started.
* `run_served`: an answer comes from a request that a server has handled on the
  way, in the state that it had then.
* `Settled.run`: a call that is over changes nothing any more.
-/

namespace Exchange

open Function

variable {ι κ α β σ ρ : Type*} {c : System ι κ α β σ ρ}
  {s s' : State ι α β σ ρ}

/-! ## Logs -/

section Logs

variable [DecidableEq α]

/-- The requests that a server has handled, in order. -/
def logOf (handled : List (Packet ι α β)) (a : α) : List β :=
  (handled.filter (fun q => q.server = a)).map Packet.body

theorem mem_logOf {handled : List (Packet ι α β)} {a : α} {b : β} :
    b ∈ logOf handled a ↔ ∃ q ∈ handled, q.server = a ∧ q.body = b := by
  rw [logOf, List.mem_map]
  constructor
  · rintro ⟨q, hq, rfl⟩
    rw [List.mem_filter, decide_eq_true_eq] at hq
    exact ⟨q, hq.1, hq.2, rfl⟩
  · rintro ⟨q, hq, ha, rfl⟩
    exact ⟨q, List.mem_filter.mpr ⟨hq, decide_eq_true ha⟩, rfl⟩

theorem logOf_append (handled handled' : List (Packet ι α β)) (a : α) :
    logOf (handled ++ handled') a = logOf handled a ++ logOf handled' a := by
  rw [logOf, List.filter_append, List.map_append, logOf, logOf]

theorem logOf_concat (handled : List (Packet ι α β)) (q : Packet ι α β)
    (a : α) :
    logOf (handled ++ [q]) a =
      logOf handled a ++ if q.server = a then [q.body] else [] := by
  rw [logOf, logOf, List.filter_append, List.map_append,
    List.filter_singleton]
  by_cases h : q.server = a
  · simp [h]
  · simp [h]

/-- A server goes from one state to another with the requests that it
handles. -/
inductive Serves (serve : σ → β → σ → List β → Prop) : σ → List β → σ → Prop
  | nil (state : σ) : Serves serve state [] state
  | concat {state state' state'' : σ} {bodies : List β} {body : β}
      {answers : List β} (h : Serves serve state bodies state')
      (hserve : serve state' body state'' answers) :
      Serves serve state (bodies ++ [body]) state''

end Logs

section Steps

variable [DecidableEq ι] [DecidableEq α]

/-! ## Requests -/

/-- The request belongs to a call that has started. -/
def Asked (c : System ι κ α β σ ρ) (s : State ι α β σ ρ) (i : ι) (n : Nat)
    (x : α × β) : Prop :=
  ∃ k, Makes c s i n k ∧ x ∈ (c.call k).requests

theorem Asked.step {i : ι} {n : Nat} {x : α × β} (h : Asked c s i n x)
    (hstep : Step c s s') : Asked c s' i n x := by
  obtain ⟨k, hk, hx⟩ := h
  exact ⟨k, hk.step hstep, hx⟩

/-- Everything that is sent belongs to a call that has started. -/
structure Issued (c : System ι κ α β σ ρ) (s : State ι α β σ ρ) : Prop where
  pending : ∀ i, ∀ x ∈ s.pending i, Asked c s i (s.current i) x
  requests : ∀ q ∈ s.requests, Asked c s q.process q.call q.content
  handled : ∀ q ∈ s.handled, Asked c s q.process q.call q.content

theorem Issued.pending_step (hcalls : Calls c s) (h : Issued c s)
    (hstep : Step c s s') :
    ∀ i, ∀ x ∈ s'.pending i, Asked c s' i (s'.current i) x := by
  intro i x hx
  have hstep' := hstep
  -- A result ends a call, which has sent its requests by then.
  have hsame : s'.results i = s.results i → x ∈ s.pending i →
      Asked c s' i (s'.current i) x := by
    intro hresults hmem
    have hasked := (h.pending i x hmem).step hstep'
    rwa [State.current, ← hresults] at hasked
  cases hstep with
  | call j k hfree hnext hwaits =>
    by_cases hij : i = j
    · subst hij
      have hmem : x ∈ (c.call k).requests := by
        simpa only [update_self] using hx
      exact ⟨k, makes_running (update_self ..) hnext, hmem⟩
    · exact hsame rfl (by simpa only [update_of_ne hij] using hx)
  | refuse j k r hfree hnext hreturns =>
    by_cases hij : i = j
    · subst hij
      rw [hcalls.free i hfree] at hx
      exact absurd hx List.not_mem_nil
    · exact hsame (update_of_ne hij ..) hx
  | send j y rest hpending =>
    by_cases hij : i = j
    · subst hij
      have hmem : x ∈ rest := by simpa only [update_self] using hx
      exact hsame rfl (hpending ▸ List.mem_cons_of_mem _ hmem)
    · exact hsame rfl (by simpa only [update_of_ne hij] using hx)
  | finish r k result before after hrunning hcall hsent hanswers hsocket
      hreturns =>
    by_cases hij : i = r.process
    · rw [hij, hsent] at hx
      exact absurd hx List.not_mem_nil
    · exact hsame (update_of_ne hij ..) hx
  | timeout j k hrunning hcall hsent =>
    by_cases hij : i = j
    · rw [hij, hsent] at hx
      exact absurd hx List.not_mem_nil
    · exact hsame (update_of_ne hij ..) hx
  | handle | take | loseRequest | loseAnswer | duplicateRequest
    | duplicateAnswer => exact hsame rfl hx

theorem Issued.requests_step (h : Issued c s) (hstep : Step c s s') :
    ∀ q ∈ s'.requests, Asked c s' q.process q.call q.content := by
  intro q hq
  have hold : q ∈ s.requests → Asked c s' q.process q.call q.content :=
    fun hmem => (h.requests q hmem).step hstep
  have hstep' := hstep
  cases hstep with
  | send i x rest hpending =>
    rcases List.mem_append.mp hq with hmem | hmem
    · exact hold hmem
    · rw [List.mem_singleton.mp hmem]
      exact (h.pending i x (hpending ▸ List.mem_cons_self)).step hstep'
  | handle q' before after state answers hrequests hserve =>
    exact hold (Protocol.mem_of_mem_rest hrequests hq)
  | loseRequest q' before after hrequests =>
    exact hold (Protocol.mem_of_mem_rest hrequests hq)
  | duplicateRequest q' hdup hq' =>
    rcases List.mem_cons.mp hq with rfl | hmem
    · exact hold hq'
    · exact hold hmem
  | call | refuse | take | finish | timeout | loseAnswer | duplicateAnswer =>
    exact hold hq

theorem issued_step (hcalls : Calls c s) (h : Issued c s)
    (hstep : Step c s s') : Issued c s' where
  pending := h.pending_step hcalls hstep
  requests := h.requests_step hstep
  handled := by
    intro q hq
    rcases hstep.handled with hhandled | ⟨q', hq', hhandled⟩
    · exact (h.handled q (hhandled ▸ hq)).step hstep
    · rw [hhandled] at hq
      rcases List.mem_append.mp hq with hmem | hmem
      · exact (h.handled q hmem).step hstep
      · rw [List.mem_singleton.mp hmem]
        exact (h.requests q' hq').step hstep

/-- What is sent belongs to a call that has started. -/
theorem run_issued {s₀ : State ι α β σ ρ} (h₀ : s₀.Initial)
    (hrun : Run c s₀ s) : Issued c s := by
  refine (Protocol.run_inv (fun s => Calls c s ∧ Issued c s)
    (fun _ _ h hstep => ⟨calls_step h.1 hstep, issued_step h.1 h.2 hstep⟩)
    hrun ⟨run_calls h₀ .refl, ?_⟩).2
  refine ⟨?_, ?_, ?_⟩
  · intro i x hx
    rw [h₀.pending] at hx
    exact absurd hx List.not_mem_nil
  · rw [h₀.requests]
    exact fun _ hq => absurd hq List.not_mem_nil
  · rw [h₀.handled]
    exact fun _ hq => absurd hq List.not_mem_nil

/-! ## Answers -/

/-- On the way from `s₀` to `s` the system goes from `u` to `u'`, in which the
server of an answer handles the request and sends the answer. -/
structure Origin (c : System ι κ α β σ ρ) (s₀ s : State ι α β σ ρ)
    (r q : Packet ι α β) (u u' : State ι α β σ ρ) : Prop where
  before : Run c s₀ u
  step : Step c u u'
  after : Run c u' s
  handled : u'.handled = u.handled ++ [q]
  process : q.process = r.process
  call : q.call = r.call
  server : q.server = r.server
  answer : ∃ answers,
    c.serve (u.servers q.server) q.body (u'.servers q.server) answers ∧
      r.body ∈ answers

/-- The answer has an origin. -/
def Answered (c : System ι κ α β σ ρ) (s₀ s : State ι α β σ ρ)
    (r : Packet ι α β) : Prop :=
  ∃ q u u', Origin c s₀ s r q u u'

/-- What was handled before the request, and behind it. -/
theorem Origin.split {s₀ u u' : State ι α β σ ρ} {r q : Packet ι α β}
    (h : Origin c s₀ s r q u u') :
    ∃ rest, s.handled = u.handled ++ q :: rest := by
  obtain ⟨rest, hrest⟩ := (Run.extends h.after).handled
  refine ⟨rest, ?_⟩
  rw [← hrest, h.handled, List.append_assoc, List.singleton_append]

theorem Origin.mem_handled {s₀ u u' : State ι α β σ ρ} {r q : Packet ι α β}
    (h : Origin c s₀ s r q u u') : q ∈ s.handled := by
  obtain ⟨rest, hrest⟩ := h.split
  exact Protocol.mem_of_split hrest

/-- An origin stays one. -/
theorem Answered.step {s₀ : State ι α β σ ρ} {r : Packet ι α β}
    (h : Answered c s₀ s r) (hstep : Step c s s') : Answered c s₀ s' r := by
  obtain ⟨q, u, u', ho⟩ := h
  exact ⟨q, u, u', { ho with after := ho.after.tail hstep }⟩

/-- The servers have handled what is recorded, and every answer comes from
there. -/
structure Served (c : System ι κ α β σ ρ) (s₀ s : State ι α β σ ρ) :
    Prop where
  initial : s₀.Initial
  run : Run c s₀ s
  servers : ∀ a,
    Serves c.serve (s₀.servers a) (logOf s.handled a) (s.servers a)
  answers : ∀ r ∈ s.answers, Answered c s₀ s r
  heard : ∀ r ∈ s.heard, Answered c s₀ s r

theorem Served.servers_step {s₀ : State ι α β σ ρ} (h : Served c s₀ s)
    (hstep : Step c s s') : ∀ a,
    Serves c.serve (s₀.servers a) (logOf s'.handled a) (s'.servers a) := by
  intro a
  cases hstep with
  | handle q before after state answers hrequests hserve =>
    simp only [logOf_concat]
    by_cases ha : q.server = a
    · subst ha
      rw [if_pos rfl, update_self]
      exact .concat (h.servers q.server) hserve
    · rw [if_neg ha, List.append_nil, update_of_ne (Ne.symm ha)]
      exact h.servers a
  | call | refuse | send | take | finish | timeout | loseRequest | loseAnswer
    | duplicateRequest | duplicateAnswer => exact h.servers a

theorem Served.answers_step {s₀ : State ι α β σ ρ} (h : Served c s₀ s)
    (hstep : Step c s s') : ∀ r ∈ s'.answers, Answered c s₀ s' r := by
  intro r hr
  have hstep' := hstep
  have hold : r ∈ s.answers → Answered c s₀ s' r :=
    fun hmem => (h.answers r hmem).step hstep'
  cases hstep with
  | handle q before after state answers hrequests hserve =>
    rcases List.mem_append.mp hr with hmem | hmem
    · exact hold hmem
    · obtain ⟨b, hb, rfl⟩ := List.mem_map.mp hmem
      refine ⟨q, s, _, h.run, hstep', .refl, rfl, rfl, rfl, rfl, answers, ?_,
        hb⟩
      simp only [update_self]
      exact hserve
  | take r' k before after hrunning hcall hsent hanswers hsocket hwaits =>
    exact hold (Protocol.mem_of_mem_rest hanswers hr)
  | finish r' k result before after hrunning hcall hsent hanswers hsocket
      hreturns =>
    exact hold (Protocol.mem_of_mem_rest hanswers hr)
  | loseAnswer r' before after hanswers =>
    exact hold (Protocol.mem_of_mem_rest hanswers hr)
  | duplicateAnswer r' hdup hr' =>
    rcases List.mem_cons.mp hr with rfl | hmem
    · exact hold hr'
    · exact hold hmem
  | call | refuse | send | timeout | loseRequest | duplicateRequest =>
    exact hold hr

theorem served_step {s₀ : State ι α β σ ρ} (h : Served c s₀ s)
    (hstep : Step c s s') : Served c s₀ s' where
  initial := h.initial
  run := h.run.tail hstep
  servers := h.servers_step hstep
  answers := h.answers_step hstep
  heard := by
    intro x hx
    rcases hstep.heard with hheard | ⟨r, hr, _, hheard⟩
    · exact (h.heard x (hheard ▸ hx)).step hstep
    · rw [hheard] at hx
      rcases List.mem_append.mp hx with hmem | hmem
      · exact (h.heard x hmem).step hstep
      · rw [List.mem_singleton.mp hmem]
        exact (h.answers r hr).step hstep

/-- An answer comes from a request that was handled on the way. -/
theorem run_served {s₀ : State ι α β σ ρ} (h₀ : s₀.Initial)
    (hrun : Run c s₀ s) : Served c s₀ s := by
  refine Protocol.run_inv (Served c s₀) (fun _ _ => served_step) hrun ?_
  refine ⟨h₀, .refl, ?_, ?_, ?_⟩
  · intro a
    rw [h₀.handled]
    exact .nil _
  · rw [h₀.answers]
    exact fun _ hr => absurd hr List.not_mem_nil
  · rw [h₀.heard]
    exact fun _ hx => absurd hx List.not_mem_nil

/-! ## Calls that have not started, and calls that are over -/

omit [DecidableEq ι] [DecidableEq α] in
/-- Nothing of a call that has not started has been handled. -/
theorem Issued.not_handled (h : Issued c s) {i : ι} {n : Nat}
    (hn : ¬ s.Began i n) : ∀ q ∈ s.handled, ¬ (q.process = i ∧ q.call = n) := by
  rintro q hq ⟨rfl, rfl⟩
  obtain ⟨k, hk, _⟩ := h.handled q hq
  exact hn hk.began

/-- The call has started, and no request of it is still to be handled. -/
structure Settled (s : State ι α β σ ρ) (i : ι) (n : Nat) : Prop where
  began : s.Began i n
  pending : n = s.current i → s.pending i = []
  requests : ∀ q ∈ s.requests, ¬ (q.process = i ∧ q.call = n)

theorem Settled.pending_step {i : ι} {n : Nat} (h : Settled s i n)
    (hstep : Step c s s') : n = s'.current i → s'.pending i = [] := by
  intro hn
  -- A call that gets its result is no longer the current one.
  have hover : s'.current i ≠ s.current i + 1 := by
    have hle := h.began.le
    omega
  have hlength : ∀ r : ρ, (s.results i ++ [r]).length = s.current i + 1 :=
    fun r => List.length_append
  cases hstep with
  | call j k hfree hnext hwaits =>
    by_cases hij : i = j
    · subst hij
      exact absurd hn (Nat.ne_of_lt (h.began.lt hfree))
    · exact (update_of_ne hij ..).trans (h.pending hn)
  | refuse j k r hfree hnext hreturns =>
    by_cases hij : i = j
    · subst hij
      refine absurd ?_ hover
      simp only [State.current, update_self]
      exact hlength r
    · refine h.pending ?_
      simpa only [State.current, update_of_ne hij] using hn
  | send j x rest hpending =>
    by_cases hij : i = j
    · subst hij
      rw [h.pending hn] at hpending
      cases hpending
    · exact (update_of_ne hij ..).trans (h.pending hn)
  | finish r k result before after hrunning hcall hsent hanswers hsocket
      hreturns =>
    by_cases hij : i = r.process
    · rw [hij]
      exact hsent
    · refine h.pending ?_
      simpa only [State.current, update_of_ne hij] using hn
  | timeout j k hrunning hcall hsent =>
    by_cases hij : i = j
    · rw [hij]
      exact hsent
    · refine h.pending ?_
      simpa only [State.current, update_of_ne hij] using hn
  | handle | take | loseRequest | loseAnswer | duplicateRequest
    | duplicateAnswer => exact h.pending hn

theorem Settled.requests_step {i : ι} {n : Nat} (h : Settled s i n)
    (hstep : Step c s s') :
    ∀ q ∈ s'.requests, ¬ (q.process = i ∧ q.call = n) := by
  intro q hq
  cases hstep with
  | send j x rest hpending =>
    rcases List.mem_append.mp hq with hmem | hmem
    · exact h.requests q hmem
    · rw [List.mem_singleton.mp hmem]
      rintro ⟨rfl, rfl⟩
      cases hpending.symm.trans (h.pending rfl)
  | handle q' before after state answers hrequests hserve =>
    exact h.requests q (Protocol.mem_of_mem_rest hrequests hq)
  | loseRequest q' before after hrequests =>
    exact h.requests q (Protocol.mem_of_mem_rest hrequests hq)
  | duplicateRequest q' hdup hq' =>
    rcases List.mem_cons.mp hq with rfl | hmem
    · exact h.requests q hq'
    · exact h.requests q hmem
  | call | refuse | take | finish | timeout | loseAnswer | duplicateAnswer =>
    exact h.requests q hq

theorem Settled.step {i : ι} {n : Nat} (h : Settled s i n)
    (hstep : Step c s s') : Settled s' i n where
  began := h.began.step hstep
  pending := h.pending_step hstep
  requests := h.requests_step hstep

/-- Nothing of a call that is over is handled any more. -/
theorem Settled.run {i : ι} {n : Nat} (h : Settled s i n)
    (hrun : Run c s s') :
    ∃ rest, s'.handled = s.handled ++ rest ∧
      ∀ q ∈ rest, ¬ (q.process = i ∧ q.call = n) := by
  refine (Protocol.run_inv (fun s' => Settled s' i n ∧
    ∃ rest, s'.handled = s.handled ++ rest ∧
      ∀ q ∈ rest, ¬ (q.process = i ∧ q.call = n)) ?_ hrun
    ⟨h, [], (List.append_nil _).symm, fun _ hq => absurd hq List.not_mem_nil⟩).2
  rintro t t' ⟨ht, rest, hrest, hnone⟩ hstep
  refine ⟨ht.step hstep, ?_⟩
  rcases hstep.handled with hhandled | ⟨q, hq, hhandled⟩
  · exact ⟨rest, hhandled.trans hrest, hnone⟩
  · refine ⟨rest ++ [q], ?_, ?_⟩
    · rw [hhandled, hrest, List.append_assoc]
    · intro q' hq'
      rcases List.mem_append.mp hq' with hmem | hmem
      · exact hnone q' hmem
      · rw [List.mem_singleton.mp hmem]
        exact ht.requests q hq

end Steps

end Exchange
