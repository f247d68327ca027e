import PpsDht.Lib.Loop
import PpsDht.Lib.Protocol
import Mathlib.Data.List.Infix
import Mathlib.Logic.Function.Basic

/-!
# Processes and servers over an unreliable network

A process makes one call after the other, each on a socket of its own.  A call
sends its requests, and then takes the answers that arrive until it has a
result or the socket times out.  A server takes one request after the other,
and sends answers to the socket that the request came from: a packet carries
the process and the number of its call.  The network delays and reorders what it
carries, and it may lose and duplicate it.

`handled`, `heard` and `lost` are histories.  No step reads them, except that a
call sees the server and the body of the answers it has taken.

* `Run.extends`: what a run adds to the histories.
* `run_calls`: a result is what the call makes of the answers it took.
-/

namespace Exchange

open Function

variable {ι κ α β σ ρ : Type*}

/-! ## Calls -/

/-- A call: what it sends, the result it has after the answers it took, if it
has one, and its result when no other answer comes. -/
structure Call (α β ρ : Type*) where
  requests : List (α × β)
  after : List (α × β) → Option ρ
  timeout : List (α × β) → ρ

/-- The result of a call that takes these answers and no others. -/
def Call.outcome (call : Call α β ρ) (taken : List (α × β)) : ρ :=
  (call.after taken).getD (call.timeout taken)

/-- A call that returns at once. -/
def Call.refuse (r : ρ) : Call α β ρ where
  requests := []
  after := fun _ => some r
  timeout := fun _ => r

/-- A call that feeds the answers to a loop. -/
def Call.loop {τ : Type*} (requests : List (α × β)) (start : τ)
    (body : τ → α × β → Loop.Step τ ρ) (stop : τ → ρ) : Call α β ρ where
  requests := requests
  after := fun taken =>
    match Loop.feedStep body start taken with
    | .again _ => none
    | .done r => some r
  timeout := Loop.feed body stop start

@[simp] theorem Call.outcome_refuse (r : ρ) (taken : List (α × β)) :
    (Call.refuse r).outcome taken = r := rfl

@[simp] theorem Call.outcome_loop {τ : Type*} (requests : List (α × β))
    (start : τ) (body : τ → α × β → Loop.Step τ ρ) (stop : τ → ρ)
    (taken : List (α × β)) :
    (Call.loop requests start body stop).outcome taken =
      Loop.feed body stop start taken := by
  rw [Call.outcome, Call.loop]
  cases h : Loop.feedStep body start taken with
  | again s => simp only [h, Option.getD_none]
  | done r =>
    simp only [h, Option.getD_some]
    exact (Loop.feed_of_feedStep_done stop taken h).symm

section EndsAfter

variable {τ : Type*} {requests : List (α × β)} {start : τ}
  {body : τ → α × β → Loop.Step τ ρ} {stop : τ → ρ} {good : α × β → Prop}
  {Ready : Nat → τ → Prop} {n : Nat} {r : ρ}

/-- A loop that waits for `n` answers of a kind has no result before. -/
theorem Call.after_loop (h : Loop.WaitsFor body good Ready n)
    (hstart : Ready 0 start) {taken : List (α × β)}
    (hgood : ∀ x ∈ taken, good x) (hfew : taken.length < n) :
    (Call.loop requests start body stop).after taken = none := by
  obtain ⟨s', _, hs'⟩ :=
    h.feedStep taken hgood (Nat.zero_add _ ▸ hfew) hstart
  simp only [Call.loop, hs']

/-- With fewer answers it stops where they have led to. -/
theorem Call.outcome_loop_few (h : Loop.WaitsFor body good Ready n)
    (hstart : Ready 0 start) {taken : List (α × β)}
    (hgood : ∀ x ∈ taken, good x) (hfew : taken.length < n) :
    ∃ s', Ready taken.length s' ∧
      (Call.loop requests start body stop).outcome taken = stop s' := by
  obtain ⟨s', hready, hs'⟩ :=
    h.feedStep taken hgood (Nat.zero_add _ ▸ hfew) hstart
  rw [Nat.zero_add] at hready
  refine ⟨s', hready, ?_⟩
  rw [Call.outcome_loop]
  exact Loop.feed_of_feedStep_again stop taken hs'

/-- The last answer gives the result. -/
theorem Call.outcome_loop_all (h : Loop.EndsAfter body good Ready n r)
    (hstart : Ready 0 start) {taken : List (α × β)}
    (hgood : ∀ x ∈ taken, good x) (hall : taken.length = n) (hpos : 0 < n) :
    (Call.loop requests start body stop).outcome taken = r := by
  rw [Call.outcome_loop]
  exact h.feed stop taken hgood (by omega) hpos hstart

end EndsAfter

/-! ## States -/

/-- A request or an answer: the process and the number of its call, the server,
and what is sent. -/
structure Packet (ι α β : Type*) where
  process : ι
  call : Nat
  server : α
  body : β

/-- What a call sees of a packet. -/
def Packet.content (q : Packet ι α β) : α × β := (q.server, q.body)

/-- What stays fixed in a run.  `program` is the next call of a process, given
the results of those before it. -/
structure System (ι κ α β σ ρ : Type*) where
  program : ι → List ρ → Option κ
  call : κ → Call α β ρ
  serve : σ → β → σ → List β → Prop
  duplicates : Prop

/-- The state.  `handled` are the requests that the servers have taken, `heard`
the answers that the calls have taken, and `lost` what the network has lost. -/
structure State (ι α β σ ρ : Type*) where
  servers : α → σ
  results : ι → List ρ
  running : ι → Bool
  pending : ι → List (α × β)
  requests : List (Packet ι α β)
  answers : List (Packet ι α β)
  handled : List (Packet ι α β)
  heard : List (Packet ι α β)
  lost : List (Packet ι α β)

/-- The number of the call that a process is in, or makes next. -/
def State.current (s : State ι α β σ ρ) (i : ι) : Nat := (s.results i).length

/-- What a process sends. -/
def State.packet (s : State ι α β σ ρ) (i : ι) (x : α × β) :
    Packet ι α β where
  process := i
  call := s.current i
  server := x.1
  body := x.2

variable {c : System ι κ α β σ ρ} {s s' : State ι α β σ ρ}

/-- The call `n` of a process has started. -/
def State.Began (s : State ι α β σ ρ) (i : ι) (n : Nat) : Prop :=
  n < s.current i ∨ n = s.current i ∧ s.running i = true

/-- The call `n` of a process is `k`, and it has started. -/
structure Makes (c : System ι κ α β σ ρ) (s : State ι α β σ ρ) (i : ι)
    (n : Nat) (k : κ) : Prop where
  began : s.Began i n
  next : c.program i ((s.results i).take n) = some k

theorem State.Began.le {i : ι} {n : Nat} (h : s.Began i n) :
    n ≤ s.current i := by
  rcases h with hlt | ⟨heq, _⟩ <;> omega

/-- A process starts its first call before any other. -/
theorem State.Began.first {i : ι} {n : Nat} (h : s.Began i n) :
    s.Began i 0 := by
  by_cases hzero : s.current i = 0
  · rcases h with hlt | ⟨_, hrunning⟩
    · omega
    · exact Or.inr ⟨hzero.symm, hrunning⟩
  · exact Or.inl (Nat.pos_of_ne_zero hzero)

/-- A process that is in no call has ended what it has started. -/
theorem State.Began.lt {i : ι} {n : Nat} (h : s.Began i n)
    (hfree : s.running i = false) : n < s.current i := by
  rcases h with hlt | ⟨_, hrunning⟩
  · exact hlt
  · rw [hfree] at hrunning
    cases hrunning

/-- A process without a result that is in no call has not started any. -/
theorem State.not_began {i : ι} (hresults : s.results i = [])
    (hfree : s.running i = false) (n : Nat) : ¬ s.Began i n := by
  intro h
  have hlt := h.lt hfree
  rw [State.current, hresults] at hlt
  exact Nat.not_lt_zero n hlt

/-- The call that a process is in. -/
theorem makes_running {i : ι} {k : κ} (hrunning : s.running i = true)
    (hcall : c.program i (s.results i) = some k) :
    Makes c s i (s.current i) k where
  began := Or.inr ⟨rfl, hrunning⟩
  next := by rwa [State.current, List.take_length]

/-- The first call of a process that has a result. -/
theorem makes_first {i : ι} {k : κ} {r : ρ} {rest : List ρ}
    (hresults : s.results i = r :: rest) (hfirst : c.program i [] = some k) :
    Makes c s i 0 k where
  began := by
    left
    rw [State.current, hresults]
    exact Nat.succ_pos _
  next := by rwa [List.take_zero]

theorem Makes.unique {i : ι} {n : Nat} {k k' : κ} (h : Makes c s i n k)
    (h' : Makes c s i n k') : k = k' :=
  Option.some.inj (h.next.symm.trans h'.next)

section Steps

variable [DecidableEq ι]

/-- The answers that the call `n` of a process has taken. -/
def State.heardIn (s : State ι α β σ ρ) (i : ι) (n : Nat) :
    List (Packet ι α β) :=
  s.heard.filter (fun r => r.process = i ∧ r.call = n)

/-- What the call `n` of a process sees of them. -/
def State.taken (s : State ι α β σ ρ) (i : ι) (n : Nat) : List (α × β) :=
  (s.heardIn i n).map Packet.content

/-- The answers after one more. -/
theorem taken_concat {r : Packet ι α β} (hheard : s'.heard = s.heard ++ [r])
    (i : ι) (n : Nat) :
    s'.taken i n = s.taken i n ++
      if r.process = i ∧ r.call = n then [r.content] else [] := by
  rw [State.taken, State.taken, State.heardIn, State.heardIn, hheard,
    List.filter_append, List.map_append]
  congr 1
  rw [List.filter_singleton]
  by_cases h : r.process = i ∧ r.call = n
  · simp [h]
  · simp [h]

/-- Where the calls stand.  A call that has returned made its result of the
answers that it took, and a call that is running has no result yet. -/
structure Calls (c : System ι κ α β σ ρ) (s : State ι α β σ ρ) : Prop where
  returned : ∀ i n r, (s.results i)[n]? = some r →
    ∃ k, Makes c s i n k ∧ (c.call k).outcome (s.taken i n) = r
  running : ∀ i, s.running i = true →
    ∃ k, c.program i (s.results i) = some k ∧
      (c.call k).after (s.taken i (s.current i)) = none
  free : ∀ i, s.running i = false → s.pending i = []
  heard : ∀ r ∈ s.heard, s.Began r.process r.call

/-- A call that has not started has taken nothing. -/
theorem Calls.taken_eq_nil (h : Calls c s) {i : ι} {n : Nat}
    (hn : ¬ s.Began i n) : s.taken i n = [] := by
  rw [State.taken, State.heardIn, List.map_eq_nil_iff,
    List.filter_eq_nil_iff]
  intro x hx hxi
  rw [decide_eq_true_eq] at hxi
  obtain ⟨rfl, rfl⟩ := hxi
  exact hn (h.heard x hx)

/-- Nothing has been taken in a call that has not started. -/
theorem Calls.taken_current (h : Calls c s) {i : ι}
    (hfree : s.running i = false) : s.taken i (s.current i) = [] := by
  refine h.taken_eq_nil ?_
  intro hbegan
  exact Nat.lt_irrefl _ (hbegan.lt hfree)

/-- The result of a call that has returned. -/
theorem Calls.outcome_eq (h : Calls c s) {i : ι} {n : Nat} {k : κ} {r : ρ}
    (hk : Makes c s i n k) (hr : (s.results i)[n]? = some r) :
    (c.call k).outcome (s.taken i n) = r := by
  obtain ⟨k', hk', houtcome⟩ := h.returned i n r hr
  cases hk'.unique hk
  exact houtcome

variable [DecidableEq α]

/-- One step. -/
inductive Step (c : System ι κ α β σ ρ) :
    State ι α β σ ρ → State ι α β σ ρ → Prop
  /-- A process starts its next call. -/
  | call (s : State ι α β σ ρ) (i : ι) (k : κ) (hfree : s.running i = false)
      (hnext : c.program i (s.results i) = some k)
      (hwaits : (c.call k).after [] = none) :
      Step c s { s with
        running := update s.running i true
        pending := update s.pending i (c.call k).requests }
  /-- The next call of a process returns at once. -/
  | refuse (s : State ι α β σ ρ) (i : ι) (k : κ) (r : ρ)
      (hfree : s.running i = false)
      (hnext : c.program i (s.results i) = some k)
      (hreturns : (c.call k).after [] = some r) :
      Step c s { s with results := update s.results i (s.results i ++ [r]) }
  /-- A call sends its next request. -/
  | send (s : State ι α β σ ρ) (i : ι) (x : α × β) (rest : List (α × β))
      (hpending : s.pending i = x :: rest) :
      Step c s { s with
        pending := update s.pending i rest
        requests := s.requests ++ [s.packet i x] }
  /-- A server handles a request. -/
  | handle (s : State ι α β σ ρ) (q : Packet ι α β)
      (before after : List (Packet ι α β)) (state : σ) (answers : List β)
      (hrequests : s.requests = before ++ q :: after)
      (hserve : c.serve (s.servers q.server) q.body state answers) :
      Step c s { s with
        servers := update s.servers q.server state
        requests := before ++ after
        answers := s.answers ++ answers.map (fun b => { q with body := b })
        handled := s.handled ++ [q] }
  /-- A call takes an answer and waits for the next one. -/
  | take (s : State ι α β σ ρ) (r : Packet ι α β) (k : κ)
      (before after : List (Packet ι α β))
      (hrunning : s.running r.process = true)
      (hcall : c.program r.process (s.results r.process) = some k)
      (hsent : s.pending r.process = [])
      (hanswers : s.answers = before ++ r :: after)
      (hsocket : r.call = s.current r.process)
      (hwaits : (c.call k).after
        (s.taken r.process (s.current r.process) ++ [r.content]) = none) :
      Step c s { s with
        answers := before ++ after
        heard := s.heard ++ [r] }
  /-- A call takes an answer and returns. -/
  | finish (s : State ι α β σ ρ) (r : Packet ι α β) (k : κ) (result : ρ)
      (before after : List (Packet ι α β))
      (hrunning : s.running r.process = true)
      (hcall : c.program r.process (s.results r.process) = some k)
      (hsent : s.pending r.process = [])
      (hanswers : s.answers = before ++ r :: after)
      (hsocket : r.call = s.current r.process)
      (hreturns : (c.call k).after
        (s.taken r.process (s.current r.process) ++ [r.content]) =
          some result) :
      Step c s { s with
        results := update s.results r.process (s.results r.process ++ [result])
        running := update s.running r.process false
        answers := before ++ after
        heard := s.heard ++ [r] }
  /-- The socket of a process times out, and its call returns. -/
  | timeout (s : State ι α β σ ρ) (i : ι) (k : κ)
      (hrunning : s.running i = true)
      (hcall : c.program i (s.results i) = some k)
      (hsent : s.pending i = []) :
      Step c s { s with
        results := update s.results i (s.results i ++
          [(c.call k).timeout (s.taken i (s.current i))])
        running := update s.running i false }
  /-- A request is lost. -/
  | loseRequest (s : State ι α β σ ρ) (q : Packet ι α β)
      (before after : List (Packet ι α β))
      (hrequests : s.requests = before ++ q :: after) :
      Step c s { s with
        requests := before ++ after
        lost := s.lost ++ [q] }
  /-- An answer is lost. -/
  | loseAnswer (s : State ι α β σ ρ) (r : Packet ι α β)
      (before after : List (Packet ι α β))
      (hanswers : s.answers = before ++ r :: after) :
      Step c s { s with
        answers := before ++ after
        lost := s.lost ++ [r] }
  /-- A request is duplicated. -/
  | duplicateRequest (s : State ι α β σ ρ) (q : Packet ι α β)
      (hdup : c.duplicates) (hq : q ∈ s.requests) :
      Step c s { s with requests := q :: s.requests }
  /-- An answer is duplicated. -/
  | duplicateAnswer (s : State ι α β σ ρ) (r : Packet ι α β)
      (hdup : c.duplicates) (hr : r ∈ s.answers) :
      Step c s { s with answers := r :: s.answers }

/-- A run. -/
abbrev Run (c : System ι κ α β σ ρ) :
    State ι α β σ ρ → State ι α β σ ρ → Prop :=
  Relation.ReflTransGen (Step c)

/-- Before the first call. -/
structure State.Initial (s : State ι α β σ ρ) : Prop where
  results : ∀ i, s.results i = []
  running : ∀ i, s.running i = false
  pending : ∀ i, s.pending i = []
  requests : s.requests = []
  answers : s.answers = []
  handled : s.handled = []
  heard : s.heard = []
  lost : s.lost = []

/-! ## What a step adds -/

/-- A step leaves the results of a process as they are, and it stays in its
call; or it adds a result and ends the call. -/
theorem Step.results (hstep : Step c s s') (i : ι) :
    s'.results i = s.results i ∧
        (s.running i = true → s'.running i = true) ∨
      ∃ r, s'.results i = s.results i ++ [r] ∧ s'.running i = false := by
  cases hstep with
  | call j k hfree hnext hwaits =>
    refine Or.inl ⟨rfl, ?_⟩
    intro hrunning
    by_cases h : i = j
    · subst h
      exact update_self ..
    · exact (update_of_ne h ..).trans hrunning
  | refuse j k r hfree hnext hreturns =>
    by_cases h : i = j
    · subst h
      exact Or.inr ⟨r, update_self .., hfree⟩
    · exact Or.inl ⟨update_of_ne h .., id⟩
  | finish r k result before after hrunning hcall hsent hanswers hsocket
      hreturns =>
    by_cases h : i = r.process
    · subst h
      exact Or.inr ⟨result, update_self .., update_self ..⟩
    · refine Or.inl ⟨update_of_ne h .., ?_⟩
      exact (update_of_ne h ..).trans
  | timeout j k hrunning hcall hsent =>
    by_cases h : i = j
    · subst h
      exact Or.inr ⟨_, update_self .., update_self ..⟩
    · refine Or.inl ⟨update_of_ne h .., ?_⟩
      exact (update_of_ne h ..).trans
  | send | handle | take | loseRequest | loseAnswer | duplicateRequest
    | duplicateAnswer => exact Or.inl ⟨rfl, id⟩

/-- A step adds no answer to those that were taken, or one to the call that its
process is in. -/
theorem Step.heard (hstep : Step c s s') :
    s'.heard = s.heard ∨
      ∃ r ∈ s.answers, (s.running r.process = true ∧
        r.call = s.current r.process) ∧ s'.heard = s.heard ++ [r] := by
  cases hstep with
  | take r k before after hrunning hcall hsent hanswers hsocket hwaits =>
    exact Or.inr ⟨r, Protocol.mem_of_split hanswers, ⟨hrunning, hsocket⟩, rfl⟩
  | finish r k result before after hrunning hcall hsent hanswers hsocket
      hreturns =>
    exact Or.inr ⟨r, Protocol.mem_of_split hanswers, ⟨hrunning, hsocket⟩, rfl⟩
  | call | refuse | send | handle | timeout | loseRequest | loseAnswer
    | duplicateRequest | duplicateAnswer => exact Or.inl rfl

/-- A step adds no request to those that were handled, or one. -/
theorem Step.handled (hstep : Step c s s') :
    s'.handled = s.handled ∨
      ∃ q ∈ s.requests, s'.handled = s.handled ++ [q] := by
  cases hstep with
  | handle q before after state answers hrequests hserve =>
    exact Or.inr ⟨q, Protocol.mem_of_split hrequests, rfl⟩
  | call | refuse | send | take | finish | timeout | loseRequest | loseAnswer
    | duplicateRequest | duplicateAnswer => exact Or.inl rfl

/-- A call that has started stays started. -/
theorem State.Began.step {i : ι} {n : Nat} (h : s.Began i n)
    (hstep : Step c s s') : s'.Began i n := by
  rcases hstep.results i with ⟨hresults, hrunning⟩ | ⟨r, hresults, _⟩
  · rw [State.Began, State.current, hresults]
    exact h.imp id (fun hn => ⟨hn.1, hrunning hn.2⟩)
  · left
    rw [State.current, hresults, List.length_append, List.length_singleton]
    exact Nat.lt_succ_of_le h.le

theorem Makes.step {i : ι} {n : Nat} {k : κ} (h : Makes c s i n k)
    (hstep : Step c s s') : Makes c s' i n k := by
  refine ⟨h.began.step hstep, ?_⟩
  rcases hstep.results i with ⟨hresults, _⟩ | ⟨r, hresults, _⟩
  · rw [hresults]
    exact h.next
  · rw [hresults, List.take_append_of_le_length h.began.le]
    exact h.next

/-- What a run adds to the histories. -/
structure Extends (c : System ι κ α β σ ρ) (s s' : State ι α β σ ρ) :
    Prop where
  results : ∀ i, s.results i <+: s'.results i
  handled : s.handled <+: s'.handled
  heard : s.heard <+: s'.heard
  makes : ∀ i n k, Makes c s i n k → Makes c s' i n k

theorem Run.extends (hrun : Run c s s') : Extends c s s' := by
  refine Protocol.run_inv (Extends c s) ?_ hrun
    ⟨fun _ => List.prefix_rfl, List.prefix_rfl, List.prefix_rfl,
      fun _ _ _ h => h⟩
  intro t t' h hstep
  refine ⟨?_, ?_, ?_, fun i n k hk => (h.makes i n k hk).step hstep⟩
  · intro i
    rcases hstep.results i with ⟨hresults, _⟩ | ⟨r, hresults, _⟩
    · rw [hresults]
      exact h.results i
    · rw [hresults]
      exact (h.results i).trans (List.prefix_append _ _)
  · rcases hstep.handled with hhandled | ⟨q, _, hhandled⟩
    · rw [hhandled]
      exact h.handled
    · rw [hhandled]
      exact h.handled.trans (List.prefix_append _ _)
  · rcases hstep.heard with hheard | ⟨r, _, _, hheard⟩
    · rw [hheard]
      exact h.heard
    · rw [hheard]
      exact h.heard.trans (List.prefix_append _ _)

/-! ## Results -/

/-- A call that has returned takes no other answer. -/
theorem taken_step {i : ι} {n : Nat} (hn : n < s.current i)
    (hstep : Step c s s') : s'.taken i n = s.taken i n := by
  rcases hstep.heard with hheard | ⟨r, _, ⟨_, hsocket⟩, hheard⟩
  · rw [State.taken, State.heardIn, hheard, State.taken, State.heardIn]
  · rw [taken_concat hheard, if_neg, List.append_nil]
    rintro ⟨rfl, rfl⟩
    exact Nat.ne_of_lt hn hsocket

/-- The results after a step: those that there were, and one that the running
call or a refused call has. -/
theorem Calls.of_result (h : Calls c s) (hstep : Step c s s') {i : ι} {k : κ}
    (hnext : c.program i (s.results i) = some k) {result : ρ}
    (hresults : s'.results i = s.results i ++ [result])
    (hresult : (c.call k).outcome (s'.taken i (s.current i)) = result) :
    ∀ n r, (s'.results i)[n]? = some r →
      ∃ k, Makes c s' i n k ∧ (c.call k).outcome (s'.taken i n) = r := by
  intro n r hr
  rw [hresults] at hr
  by_cases hn : n < (s.results i).length
  · rw [List.getElem?_append_left hn] at hr
    obtain ⟨k', hk', houtcome⟩ := h.returned i n r hr
    refine ⟨k', hk'.step hstep, ?_⟩
    rwa [taken_step hn hstep]
  · have hlt := (List.getElem?_eq_some_iff.mp hr).1
    rw [List.length_append, List.length_singleton] at hlt
    obtain rfl : n = (s.results i).length := by omega
    rw [List.getElem?_concat_length] at hr
    refine ⟨k, ⟨Or.inl ?_, ?_⟩, hresult.trans (Option.some.inj hr)⟩
    · rw [State.current, hresults, List.length_append, List.length_singleton]
      exact Nat.lt_succ_self _
    · rw [hresults, List.take_left]
      exact hnext

/-- Nothing is new about the results of a process. -/
theorem Calls.of_results_eq (h : Calls c s) (hstep : Step c s s') {i : ι}
    (hresults : s'.results i = s.results i) :
    ∀ n r, (s'.results i)[n]? = some r →
      ∃ k, Makes c s' i n k ∧ (c.call k).outcome (s'.taken i n) = r := by
  intro n r hr
  rw [hresults] at hr
  obtain ⟨k, hk, houtcome⟩ := h.returned i n r hr
  refine ⟨k, hk.step hstep, ?_⟩
  rwa [taken_step (List.getElem?_eq_some_iff.mp hr).1 hstep]

theorem Calls.returned_step (h : Calls c s) (hstep : Step c s s') :
    ∀ i n r, (s'.results i)[n]? = some r →
      ∃ k, Makes c s' i n k ∧ (c.call k).outcome (s'.taken i n) = r := by
  intro i
  have hstep' := hstep
  cases hstep with
  | refuse j k r hfree hnext hreturns =>
    by_cases hi : i = j
    · subst hi
      refine h.of_result hstep' hnext (update_self ..) ?_
      show (c.call k).outcome (s.taken i (s.current i)) = r
      rw [h.taken_current hfree, Call.outcome, hreturns, Option.getD_some]
    · exact h.of_results_eq hstep' (update_of_ne hi ..)
  | finish r k result before after hrunning hcall hsent hanswers hsocket
      hreturns =>
    by_cases hi : i = r.process
    · subst hi
      refine h.of_result hstep' hcall (update_self ..) ?_
      rw [taken_concat rfl, if_pos ⟨rfl, hsocket⟩, Call.outcome, hreturns,
        Option.getD_some]
    · exact h.of_results_eq hstep' (update_of_ne hi ..)
  | timeout j k hrunning hcall hsent =>
    by_cases hi : i = j
    · subst hi
      obtain ⟨k', hcall', hwaits⟩ := h.running i hrunning
      cases hcall.symm.trans hcall'
      refine h.of_result hstep' hcall (update_self ..) ?_
      show (c.call k).outcome (s.taken i (s.current i)) = _
      rw [Call.outcome, hwaits, Option.getD_none]
    · exact h.of_results_eq hstep' (update_of_ne hi ..)
  | call | send | handle | take | loseRequest | loseAnswer | duplicateRequest
    | duplicateAnswer => exact h.of_results_eq hstep' rfl

theorem Calls.running_step (h : Calls c s) (hstep : Step c s s') :
    ∀ i, s'.running i = true →
      ∃ k, c.program i (s'.results i) = some k ∧
        (c.call k).after (s'.taken i (s'.current i)) = none := by
  intro i hi
  cases hstep with
  | call j k hfree hnext hwaits =>
    by_cases hij : i = j
    · subst hij
      refine ⟨k, hnext, ?_⟩
      show (c.call k).after (s.taken i (s.current i)) = none
      rwa [h.taken_current hfree]
    · exact h.running i ((update_of_ne hij ..).symm.trans hi)
  | refuse j k r hfree hnext hreturns =>
    have hij : i ≠ j := by
      rintro rfl
      exact Bool.false_ne_true (hfree.symm.trans hi)
    simp only [State.current, update_of_ne hij]
    exact h.running i hi
  | take r k before after hrunning hcall hsent hanswers hsocket hwaits =>
    by_cases hij : i = r.process
    · subst hij
      refine ⟨k, hcall, ?_⟩
      rw [taken_concat rfl, if_pos ⟨rfl, hsocket⟩]
      exact hwaits
    · rw [taken_concat rfl, if_neg (fun heq => hij heq.1.symm),
        List.append_nil]
      exact h.running i hi
  | finish r k result before after hrunning hcall hsent hanswers hsocket
      hreturns =>
    have hij : i ≠ r.process := by
      rintro rfl
      exact Bool.false_ne_true ((update_self ..).symm.trans hi)
    rw [taken_concat rfl, if_neg (fun heq => hij heq.1.symm), List.append_nil]
    simp only [State.current, update_of_ne hij]
    exact h.running i ((update_of_ne hij ..).symm.trans hi)
  | timeout j k hrunning hcall hsent =>
    have hij : i ≠ j := by
      rintro rfl
      exact Bool.false_ne_true ((update_self ..).symm.trans hi)
    simp only [State.current, update_of_ne hij]
    exact h.running i ((update_of_ne hij ..).symm.trans hi)
  | send | handle | loseRequest | loseAnswer | duplicateRequest
    | duplicateAnswer => exact h.running i hi

theorem Calls.free_step (h : Calls c s) (hstep : Step c s s') :
    ∀ i, s'.running i = false → s'.pending i = [] := by
  intro i hi
  cases hstep with
  | call j k hfree hnext hwaits =>
    have hij : i ≠ j := by
      rintro rfl
      exact Bool.false_ne_true (hi.symm.trans (update_self ..))
    exact (update_of_ne hij ..).trans
      (h.free i ((update_of_ne hij ..).symm.trans hi))
  | send j x rest hpending =>
    have hij : i ≠ j := by
      rintro rfl
      exact List.cons_ne_nil x rest (hpending.symm.trans (h.free i hi))
    exact (update_of_ne hij ..).trans (h.free i hi)
  | finish r k result before after hrunning hcall hsent hanswers hsocket
      hreturns =>
    by_cases hij : i = r.process
    · rw [hij]
      exact hsent
    · exact h.free i ((update_of_ne hij ..).symm.trans hi)
  | timeout j k hrunning hcall hsent =>
    by_cases hij : i = j
    · rw [hij]
      exact hsent
    · exact h.free i ((update_of_ne hij ..).symm.trans hi)
  | refuse | handle | take | loseRequest | loseAnswer | duplicateRequest
    | duplicateAnswer => exact h.free i hi

theorem calls_step (h : Calls c s) (hstep : Step c s s') : Calls c s' where
  returned := h.returned_step hstep
  running := h.running_step hstep
  free := h.free_step hstep
  heard := by
    intro x hx
    rcases hstep.heard with hheard | ⟨r, _, ⟨hrunning, hsocket⟩, hheard⟩
    · rw [hheard] at hx
      exact (h.heard x hx).step hstep
    · rw [hheard] at hx
      rcases List.mem_append.mp hx with hx | hx
      · exact (h.heard x hx).step hstep
      · rw [List.mem_singleton.mp hx]
        exact State.Began.step (Or.inr ⟨hsocket, hrunning⟩) hstep

/-- A result is what the call makes of the answers that it took. -/
theorem run_calls {s₀ : State ι α β σ ρ} (h₀ : s₀.Initial)
    (hrun : Run c s₀ s) : Calls c s := by
  refine Protocol.run_inv (Calls c) (fun _ _ => calls_step) hrun ?_
  refine ⟨?_, ?_, fun i _ => h₀.pending i, ?_⟩
  · intro i n r hr
    rw [h₀.results, List.getElem?_nil] at hr
    cases hr
  · intro i hi
    rw [h₀.running] at hi
    cases hi
  · rw [h₀.heard]
    exact fun _ hx => absurd hx List.not_mem_nil

/-! ## A call that nothing disturbs -/

/-- A call can send all its requests. -/
theorem run_sends {i : ι} : ∀ (rest : List (α × β)) {s : State ι α β σ ρ},
    s.pending i = rest → Run c s { s with
      pending := update s.pending i []
      requests := s.requests ++ rest.map (s.packet i) } := by
  intro rest
  induction rest with
  | nil =>
    intro s hpending
    rw [← hpending, update_eq_self, hpending, List.map_nil, List.append_nil]
  | cons x rest ih =>
    intro s hpending
    have hstep := Step.send (c := c) s i x rest hpending
    have hrest := ih (s := { s with
        pending := update s.pending i rest
        requests := s.requests ++ [s.packet i x] }) (update_self ..)
    rw [update_idem, List.append_assoc] at hrest
    exact .head hstep hrest

/-- The last requests can get lost. -/
theorem run_loses {i : ι} (before : List (Packet ι α β)) :
    ∀ (requests : List (α × β)) {s : State ι α β σ ρ},
      s.requests = before ++ requests.map (s.packet i) → Run c s { s with
        requests := before
        lost := s.lost ++ requests.map (s.packet i) } := by
  intro requests
  induction requests with
  | nil =>
    intro s hrequests
    rw [List.map_nil, List.append_nil] at hrequests
    rw [← hrequests, List.map_nil, List.append_nil]
  | cons x requests ih =>
    intro s hrequests
    have hstep := Step.loseRequest (c := c) s (s.packet i x) before
      (requests.map (s.packet i)) hrequests
    have hrest := ih (s := { s with
        requests := before ++ requests.map (s.packet i)
        lost := s.lost ++ [s.packet i x] }) rfl
    rw [List.append_assoc] at hrest
    exact .head hstep hrest

/-- The servers behind these requests. -/
def served (state : α → σ) (servers : α → σ) (requests : List (α × β)) :
    α → σ :=
  requests.foldl (fun servers x => update servers x.1 (state x.1)) servers

theorem served_of_notMem (state : α → σ) {a : α} :
    ∀ (requests : List (α × β)) (servers : α → σ),
      a ∉ requests.map Prod.fst → served state servers requests a =
        servers a := by
  intro requests
  induction requests with
  | nil => exact fun _ _ => rfl
  | cons x requests ih =>
    intro servers ha
    rw [List.map_cons, List.mem_cons, not_or] at ha
    exact (ih _ ha.2).trans (update_of_ne ha.1 ..)

theorem served_of_mem (state : α → σ) {a : α} :
    ∀ {requests : List (α × β)} (servers : α → σ),
      (requests.map Prod.fst).Nodup → a ∈ requests.map Prod.fst →
      served state servers requests a = state a := by
  intro requests
  induction requests with
  | nil => exact fun _ _ ha => absurd ha List.not_mem_nil
  | cons x requests ih =>
    intro servers hnodup ha
    rw [List.map_cons, List.nodup_cons] at hnodup
    rw [List.map_cons, List.mem_cons] at ha
    rcases ha with rfl | ha
    · exact (served_of_notMem state requests _ hnodup.1).trans
        (update_self ..)
    · exact ih _ hnodup.2 ha

/-- Every server can answer the request of a call. -/
theorem run_handles {i : ι} (state : α → σ) (reply : α → β)
    (before : List (Packet ι α β)) :
    ∀ (requests : List (α × β)) {s : State ι α β σ ρ},
      (requests.map Prod.fst).Nodup →
      (∀ x ∈ requests, c.serve (s.servers x.1) x.2 (state x.1) [reply x.1]) →
      s.requests = before ++ requests.map (s.packet i) →
      Run c s { s with
        servers := served state s.servers requests
        requests := before
        answers := s.answers ++
          requests.map (fun x => s.packet i (x.1, reply x.1))
        handled := s.handled ++ requests.map (s.packet i) } := by
  intro requests
  induction requests with
  | nil =>
    intro s _ _ hrequests
    rw [List.map_nil, List.append_nil] at hrequests
    rw [← hrequests, List.map_nil, List.map_nil, List.append_nil,
      List.append_nil]
    exact .refl
  | cons x requests ih =>
    intro s hnodup hserve hrequests
    rw [List.map_cons, List.nodup_cons] at hnodup
    rw [List.map_cons] at hrequests
    have hstep := Step.handle (c := c) s (s.packet i x) before
      (requests.map (s.packet i)) (state x.1) [reply x.1] hrequests
      (hserve x List.mem_cons_self)
    refine .head hstep ?_
    have hrest := ih (s := { s with
        servers := update s.servers x.1 (state x.1)
        requests := before ++ requests.map (s.packet i)
        answers := s.answers ++ [s.packet i (x.1, reply x.1)]
        handled := s.handled ++ [s.packet i x] }) hnodup.2 (by
      intro y hy
      have hne : y.1 ≠ x.1 := by
        intro heq
        exact hnodup.1 (heq ▸ List.mem_map_of_mem hy)
      simp only [update_of_ne hne]
      exact hserve y (List.mem_cons_of_mem x hy)) rfl
    simp only [List.append_assoc, List.singleton_append] at hrest
    exact hrest

/-- A call can take its answers, until it has a result or the socket times
out. -/
theorem run_takes {i : ι} {k : κ} {r : ρ} (before : List (Packet ι α β)) :
    ∀ (answers taken : List (α × β)) {s : State ι α β σ ρ},
      s.running i = true → c.program i (s.results i) = some k →
      s.pending i = [] → s.answers = before ++ answers.map (s.packet i) →
      s.taken i (s.current i) = taken → (c.call k).after taken = none →
      (∀ part, part <+: answers → part ≠ answers →
        (c.call k).after (taken ++ part) = none) →
      (c.call k).outcome (taken ++ answers) = r →
      Run c s { s with
        results := update s.results i (s.results i ++ [r])
        running := update s.running i false
        answers := before
        heard := s.heard ++ answers.map (s.packet i) } := by
  intro answers
  induction answers with
  | nil =>
    intro taken s hrunning hcall hsent hanswers htaken hwaits _ houtcome
    have hstep := Step.timeout (c := c) s i k hrunning hcall hsent
    rw [List.append_nil, Call.outcome, hwaits, Option.getD_none] at houtcome
    rw [htaken, houtcome] at hstep
    rw [List.map_nil, List.append_nil] at hanswers
    rw [← hanswers, List.map_nil, List.append_nil]
    exact .single hstep
  | cons y answers ih =>
    intro taken s hrunning hcall hsent hanswers htaken _ hparts houtcome
    rw [List.map_cons] at hanswers
    have hcontent : (s.packet i y).content = y := rfl
    cases hafter : (c.call k).after (taken ++ [y]) with
    | some result =>
      -- Only the last answer ends the call.
      obtain rfl : answers = [] := by
        by_contra hne
        have hnone := hparts [y]
          (List.cons_prefix_cons.mpr ⟨rfl, List.nil_prefix⟩)
          (fun heq => hne (List.cons.inj heq).2.symm)
        cases hafter.symm.trans hnone
      rw [Call.outcome, hafter, Option.getD_some] at houtcome
      subst houtcome
      have hstep := Step.finish (c := c) s (s.packet i y) k result before []
        hrunning hcall hsent hanswers rfl (by rw [hcontent]; exact
          (congrArg (fun l => (c.call k).after (l ++ [y])) htaken).trans hafter)
      rw [List.append_nil] at hstep
      exact .single hstep
    | none =>
      have hwaits' : (c.call k).after (s.taken (s.packet i y).process
          (s.current (s.packet i y).process) ++ [(s.packet i y).content]) =
            none := by
        rw [hcontent]
        exact (congrArg (fun l => (c.call k).after (l ++ [y])) htaken).trans
          hafter
      have hstep := Step.take (c := c) s (s.packet i y) k before
        (answers.map (s.packet i)) hrunning hcall hsent hanswers rfl hwaits'
      have hrest := ih (taken ++ [y]) (s := { s with
          answers := before ++ answers.map (s.packet i)
          heard := s.heard ++ [s.packet i y] }) hrunning hcall hsent rfl (by
        rw [taken_concat rfl, if_pos ⟨rfl, rfl⟩, hcontent]
        exact congrArg (· ++ [y]) htaken) hafter (by
        intro part hpart hne
        rw [List.append_assoc, List.singleton_append]
        exact hparts (y :: part) (List.cons_prefix_cons.mpr ⟨rfl, hpart⟩)
          (fun heq => hne (List.cons.inj heq).2)) (by
        rw [List.append_assoc, List.singleton_append]
        exact houtcome)
      rw [List.append_assoc, List.singleton_append] at hrest
      exact .head hstep hrest

/-- The state behind a call.  The servers have handled the requests in `sent`,
and the call has taken their answers; the requests in `dropped` are lost. -/
structure Exchanged (s s' : State ι α β σ ρ) (i : ι)
    (sent dropped taken : List (α × β)) (state : α → σ) (r : ρ) : Prop where
  servers : s'.servers = served state s.servers sent
  results : s'.results = update s.results i (s.results i ++ [r])
  running : s'.running = s.running
  pending : s'.pending = s.pending
  requests : s'.requests = s.requests
  answers : s'.answers = s.answers
  handled : s'.handled = s.handled ++ sent.map (s.packet i)
  heard : s'.heard = s.heard ++ taken.map (s.packet i)
  lost : s'.lost = s.lost ++ dropped.map (s.packet i)

/-- A call can return on the answers to some of its requests, when it waits for
all of them. -/
theorem run_exchanged (h : Calls c s) (state : α → σ) (reply : α → β)
    {i : ι} {k : κ} {r : ρ} {sent dropped taken : List (α × β)}
    (hfree : s.running i = false)
    (hnext : c.program i (s.results i) = some k)
    (hrequests : (c.call k).requests = sent ++ dropped)
    (hnodup : (sent.map Prod.fst).Nodup)
    (hserve : ∀ x ∈ sent,
      c.serve (s.servers x.1) x.2 (state x.1) [reply x.1])
    (hanswers : sent.map (fun x => (x.1, reply x.1)) = taken)
    (hwaits : (c.call k).after [] = none)
    (hparts : ∀ part, part <+: taken → part ≠ taken →
      (c.call k).after part = none)
    (houtcome : (c.call k).outcome taken = r) :
    ∃ s', Run c s s' ∧ Exchanged s s' i sent dropped taken state r := by
  have hpending := h.free i hfree
  have htaken := h.taken_current hfree
  have hrun₁ := (Relation.ReflTransGen.single
    (Step.call s i k hfree hnext hwaits)).trans
    (run_sends (i := i) (sent ++ dropped)
      (by simp only [update_self, hrequests]))
  have hrun₂ := hrun₁.trans (run_loses (i := i)
    (s.requests ++ sent.map (s.packet i)) dropped
    (by rw [List.map_append, ← List.append_assoc]; rfl))
  have hrun₃ := hrun₂.trans (run_handles state reply s.requests sent hnodup
    hserve rfl)
  have hpackets : sent.map (fun x => s.packet i (x.1, reply x.1)) =
      taken.map (s.packet i) := by
    rw [← hanswers, List.map_map]
    rfl
  have hrun₄ := hrun₃.trans (run_takes (k := k) (r := r) s.answers taken []
    (update_self i true s.running) hnext (by simp only [update_self])
    (congrArg (s.answers ++ ·) hpackets) htaken hwaits hparts houtcome)
  refine ⟨_, hrun₄, rfl, rfl, ?_, ?_, rfl, rfl, rfl, rfl, rfl⟩
  · simp only
    rw [update_idem, ← hfree, update_eq_self]
  · simp only
    rw [update_idem, ← hpending, update_eq_self]

end Steps

end Exchange
