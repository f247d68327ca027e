import PpsDht.Lib.ExchangeHistory
import Mathlib.Data.List.Perm.Subperm

/-!
# Counting requests and answers

What holds when the network duplicates nothing.  A request is handled at most
once, and where a server sends at most one answer, no more answers are taken
than requests were handled.  Both are counted for one call and for the servers
of a predicate, so the servers that have answered a call are among those that
it asks, `Counted.servers_subperm`.  The calls whose requests have one answer
are those of the predicate `once`.
-/

namespace Exchange

open Function

variable {ι κ α β σ ρ : Type*}

/-! ## Requests -/

variable {c : System ι κ α β σ ρ} {s s' : State ι α β σ ρ} {once : κ → Prop}

/-- How many requests the call has still to send. -/
def State.unsent (s : State ι α β σ ρ) (i : ι) (n : Nat) (p : α → Bool) :
    Nat :=
  if n = s.current i then (s.pending i).countP (fun x => p x.1) else 0

theorem unsent_of_nil {i : ι} (h : s.pending i = []) (n : Nat)
    (p : α → Bool) : s.unsent i n p = 0 := by
  rw [State.unsent, h, List.countP_nil, ite_self]

theorem unsent_of_same {t : State ι α β σ ρ} {i : ι}
    (hresults : t.results i = s.results i)
    (hpending : t.pending i = s.pending i) (n : Nat) (p : α → Bool) :
    t.unsent i n p = s.unsent i n p := by
  rw [State.unsent, State.unsent, State.current, State.current, hresults,
    hpending]

/-- When a process has nothing to send and the others stay as they are, no fewer
requests are to be sent behind. -/
theorem le_unsent {t : State ι α β σ ρ} {j : ι} (hsent : s.pending j = [])
    (hsame : ∀ i, i ≠ j → t.results i = s.results i ∧
      t.pending i = s.pending i) (i : ι) (n : Nat) (p : α → Bool) :
    s.unsent i n p ≤ t.unsent i n p := by
  by_cases hij : i = j
  · subst hij
    exact (unsent_of_nil hsent n p).trans_le (Nat.zero_le _)
  · obtain ⟨hresults, hpending⟩ := hsame i hij
    exact (unsent_of_same hresults hpending n p).ge

variable [DecidableEq ι]

/-- How many of the packets belong to the call `n` of a process, with a server
that satisfies `p`. -/
def ofCall (l : List (Packet ι α β)) (i : ι) (n : Nat) (p : α → Bool) : Nat :=
  l.countP (fun q => q.process = i ∧ q.call = n ∧ p q.server)

/-- How many requests of the call are on their way or handled. -/
def State.asked (s : State ι α β σ ρ) (i : ι) (n : Nat) (p : α → Bool) : Nat :=
  ofCall s.requests i n p + ofCall s.handled i n p + s.unsent i n p

@[simp] theorem ofCall_append (l l' : List (Packet ι α β)) (i : ι) (n : Nat)
    (p : α → Bool) :
    ofCall (l ++ l') i n p = ofCall l i n p + ofCall l' i n p :=
  List.countP_append

/-- A packet in the middle counts as in front. -/
theorem ofCall_split {l before after : List (Packet ι α β)}
    {q : Packet ι α β} (h : l = before ++ q :: after) (i : ι) (n : Nat)
    (p : α → Bool) :
    ofCall l i n p = ofCall (before ++ after) i n p + ofCall [q] i n p := by
  have hcons : ofCall (q :: after) i n p =
      ofCall [q] i n p + ofCall after i n p := ofCall_append [q] after i n p
  rw [h, ofCall_append, ofCall_append, hcons]
  omega

/-- No packet of a call that has not started. -/
theorem ofCall_eq_zero {l : List (Packet ι α β)} {i : ι} {n : Nat}
    (h : ∀ q ∈ l, ¬ (q.process = i ∧ q.call = n)) (p : α → Bool) :
    ofCall l i n p = 0 := by
  rw [ofCall, List.countP_eq_zero]
  intro q hq hmatch
  rw [decide_eq_true_eq] at hmatch
  exact h q hq ⟨hmatch.1, hmatch.2.1⟩

/-- The packet that a process sends was to be sent before. -/
theorem unsent_send {t : State ι α β σ ρ} {j : ι} {x : α × β}
    {rest : List (α × β)} (h : s.pending j = x :: rest)
    (hresults : t.results = s.results)
    (hpending : t.pending = update s.pending j rest) (i : ι) (n : Nat)
    (p : α → Bool) :
    ofCall [s.packet j x] i n p + t.unsent i n p = s.unsent i n p := by
  by_cases hij : i = j
  · subst hij
    rw [State.unsent, State.unsent, State.current, hresults, hpending,
      update_self, h]
    by_cases hn : n = (s.results i).length
    · rw [if_pos hn, State.current, if_pos hn, List.countP_cons, Nat.add_comm]
      simp [ofCall, hn, List.countP_cons, State.packet, State.current]
    · rw [if_neg hn, State.current, if_neg hn, Nat.add_zero]
      exact ofCall_eq_zero (fun q hq h => hn (by
        rw [← h.2, List.mem_singleton.mp hq, State.packet, State.current])) p
  · have hzero : ofCall [s.packet j x] i n p = 0 :=
      ofCall_eq_zero (fun q hq h => hij (by
        rw [← h.1, List.mem_singleton.mp hq, State.packet])) p
    rw [hzero, Nat.zero_add]
    exact unsent_of_same (congrFun hresults i)
      ((congrFun hpending i).trans (update_of_ne hij ..)) n p

/-- The answers to one request. -/
theorem ofCall_answers {q : Packet ι α β} {answers : List β}
    (h : answers.length ≤ 1) (i : ι) (n : Nat) (p : α → Bool) :
    ofCall (answers.map (fun b => { q with body := b })) i n p ≤
      ofCall [q] i n p := by
  match answers, h with
  | [], _ => exact Nat.zero_le _
  | [b], _ => exact Nat.le_refl _

variable [DecidableEq α]

/-- Whatever a step does, the requests of a call that has started do not become
more. -/
theorem asked_step_le (hdup : ¬ c.duplicates) (hcalls : Calls c s)
    (hstep : Step c s s') {i : ι} {n : Nat} (hn : s.Began i n)
    (p : α → Bool) : s'.asked i n p ≤ s.asked i n p := by
  cases hstep with
  | call j k hfree hnext hwaits =>
    refine Nat.add_le_add_left ?_ _
    by_cases hij : i = j
    · subst hij
      have hne : n ≠ s.current i := Nat.ne_of_lt (hn.lt hfree)
      exact (if_neg hne).trans_le (Nat.zero_le _)
    · exact (unsent_of_same (by rfl) (update_of_ne hij ..) n p).le
  | refuse j k r hfree hnext hreturns =>
    refine Nat.add_le_add_left (le_unsent (j := j) ?_ ?_ i n p) _
    · exact hcalls.free j hfree
    · exact fun i' hij => ⟨(update_of_ne hij ..).symm, rfl⟩
  | send j x rest hpending =>
    have happend := ofCall_append s.requests [s.packet j x] i n p
    show ofCall (s.requests ++ [s.packet j x]) i n p + ofCall s.handled i n p +
      State.unsent { s with
        pending := update s.pending j rest
        requests := s.requests ++ [s.packet j x] } i n p ≤ s.asked i n p
    rw [State.asked]
    have hsend := unsent_send (t := { s with
      pending := update s.pending j rest
      requests := s.requests ++ [s.packet j x] }) hpending rfl rfl i n p
    omega
  | handle q before after state answers hrequests hserve =>
    have hsplit := ofCall_split hrequests i n p
    have happend := ofCall_append s.handled [q] i n p
    show ofCall (before ++ after) i n p + ofCall (s.handled ++ [q]) i n p +
      s.unsent i n p ≤ s.asked i n p
    rw [State.asked]
    omega
  | finish r k result before after hrunning hcall hsent hanswers hsocket
      hreturns =>
    refine Nat.add_le_add_left (le_unsent (j := r.process) ?_ ?_ i n p) _
    · exact hsent
    · exact fun i' hij => ⟨(update_of_ne hij ..).symm, rfl⟩
  | timeout j k hrunning hcall hsent =>
    refine Nat.add_le_add_left (le_unsent (j := j) ?_ ?_ i n p) _
    · exact hsent
    · exact fun i' hij => ⟨(update_of_ne hij ..).symm, rfl⟩
  | loseRequest q before after hrequests =>
    have hsplit := ofCall_split hrequests i n p
    show ofCall (before ++ after) i n p + ofCall s.handled i n p +
      s.unsent i n p ≤ s.asked i n p
    rw [State.asked]
    omega
  | duplicateRequest q hd hq => exact absurd hd hdup
  | duplicateAnswer r hd hr => exact absurd hd hdup
  | take | loseAnswer => exact Nat.le_refl _

/-- A call that a step starts was the next one of its process. -/
theorem State.Began.of_step {i : ι} {n : Nat} (h : s'.Began i n)
    (hstep : Step c s s') (hn : ¬ s.Began i n) :
    n = s.current i ∧ s.running i = false := by
  have hle : n ≤ s.current i := by
    rcases hstep.results i with ⟨hresults, _⟩ | ⟨r, hresults, hfree⟩
    · have hle := h.le
      rwa [State.current, hresults] at hle
    · have hlt := h.lt hfree
      rw [State.current, hresults, List.length_append,
        List.length_singleton] at hlt
      exact Nat.le_of_lt_succ hlt
  have heq : n = s.current i :=
    Nat.le_antisymm hle (Nat.le_of_not_lt (fun hlt => hn (Or.inl hlt)))
  exact ⟨heq, Bool.eq_false_iff.mpr (fun hrunning => hn (Or.inr ⟨heq, hrunning⟩))⟩

theorem Makes.of_step {i : ι} {n : Nat} {k : κ} (h : Makes c s' i n k)
    (hstep : Step c s s') (hn : s.Began i n) : Makes c s i n k := by
  refine ⟨hn, ?_⟩
  have hnext := h.next
  rcases hstep.results i with ⟨hresults, _⟩ | ⟨r, hresults, _⟩
  · rwa [hresults] at hnext
  · rwa [hresults, List.take_append_of_le_length hn.le] at hnext

/-- A call starts with the requests that it has. -/
theorem asked_start_le (hcalls : Calls c s) (hissued : Issued c s)
    (hstep : Step c s s') {i : ι} {n : Nat} {k : κ} (hn : ¬ s.Began i n)
    (hk : Makes c s' i n k) (p : α → Bool) :
    s'.asked i n p ≤ (c.call k).requests.countP (fun x => p x.1) := by
  obtain ⟨rfl, hfree⟩ := hk.began.of_step hstep hn
  have hnone : ∀ q : Packet ι α β, Asked c s q.process q.call q.content →
      ¬ (q.process = i ∧ q.call = s.current i) := by
    rintro q ⟨k', hk', _⟩ ⟨hi, hcall⟩
    have hbegan := hk'.began
    rw [hi, hcall] at hbegan
    exact hn hbegan
  have hrequests := ofCall_eq_zero
    (fun q hq => hnone q (hissued.requests q hq)) p
  have hhandled := ofCall_eq_zero
    (fun q hq => hnone q (hissued.handled q hq)) p
  cases hstep with
  | call j k' hfree' hnext hwaits =>
    by_cases hij : i = j
    · subst hij
      have hk' := hk.next
      rw [State.current, List.take_length] at hk'
      cases hk'.symm.trans hnext
      have hunsent : State.unsent { s with
          running := update s.running i true
          pending := update s.pending i (c.call k).requests } i (s.current i)
          p = (c.call k).requests.countP (fun x => p x.1) :=
        (if_pos rfl).trans (by simp only [update_self])
      rw [State.asked, hunsent, hrequests, hhandled, Nat.zero_add]
    · refine absurd ?_ hn
      exact hk.began.imp id (fun h =>
        ⟨rfl, (update_of_ne hij ..).symm.trans h.2⟩)
  | refuse j k' r hfree' hnext hreturns =>
    have hunsent := unsent_of_nil (s := { s with
        results := update s.results j (s.results j ++ [r]) })
      (hcalls.free i hfree) (s.current i) p
    rw [State.asked, hunsent, hrequests, hhandled]
    exact Nat.zero_le _
  | finish r k' result before after hrunning hcall hsent hanswers hsocket
      hreturns =>
    have hunsent := unsent_of_nil (s := { s with
        results := update s.results r.process (s.results r.process ++ [result])
        running := update s.running r.process false
        answers := before ++ after
        heard := s.heard ++ [r] })
      (hcalls.free i hfree) (s.current i) p
    rw [State.asked, hunsent, hrequests, hhandled]
    exact Nat.zero_le _
  | timeout j k' hrunning hcall hsent =>
    have hunsent := unsent_of_nil (s := { s with
        results := update s.results j (s.results j ++
          [(c.call k').timeout (s.taken j (s.current j))])
        running := update s.running j false })
      (hcalls.free i hfree) (s.current i) p
    rw [State.asked, hunsent, hrequests, hhandled]
    exact Nat.zero_le _
  | send | handle | take | loseRequest | loseAnswer | duplicateRequest
    | duplicateAnswer => exact absurd hk.began hn

/-- The requests of a call that are on their way or handled are among those
that it sends. -/
def AskedOnce (c : System ι κ α β σ ρ) (s : State ι α β σ ρ) : Prop :=
  ∀ i n k p, Makes c s i n k →
    s.asked i n p ≤ (c.call k).requests.countP (fun x => p x.1)

theorem askedOnce_step (hdup : ¬ c.duplicates) (hcalls : Calls c s)
    (hissued : Issued c s) (h : AskedOnce c s) (hstep : Step c s s') :
    AskedOnce c s' := by
  intro i n k p hk
  by_cases hn : s.Began i n
  · exact (asked_step_le hdup hcalls hstep hn p).trans
      (h i n k p (hk.of_step hstep hn))
  · exact asked_start_le hcalls hissued hstep hn hk p

/-! ## Answers -/

/-- A server sends at most one answer to what these calls send. -/
def AnswersOnce (c : System ι κ α β σ ρ) (once : κ → Prop) : Prop :=
  ∀ i results k, c.program i results = some k → once k →
    ∀ x ∈ (c.call k).requests, ∀ state state' answers,
      c.serve state x.2 state' answers → answers.length ≤ 1

/-- How many answers to the call are on their way or taken. -/
def State.answered (s : State ι α β σ ρ) (i : ι) (n : Nat) (p : α → Bool) :
    Nat :=
  ofCall s.answers i n p + ofCall s.heard i n p

/-- There are no more answers to these calls than requests that were
handled. -/
def AnsweredOnce (c : System ι κ α β σ ρ) (once : κ → Prop)
    (s : State ι α β σ ρ) : Prop :=
  ∀ i n p, (∀ k, Makes c s i n k → once k) →
    s.answered i n p ≤ ofCall s.handled i n p

theorem answeredOnce_step (hdup : ¬ c.duplicates)
    (honce : AnswersOnce c once) (hissued : Issued c s)
    (h : AnsweredOnce c once s) (hstep : Step c s s') :
    AnsweredOnce c once s' := by
  intro i n p hcalls
  have hcall : ∀ k, Makes c s i n k → once k := fun k hk =>
    hcalls k (hk.step hstep)
  have hold := h i n p hcall
  rw [State.answered] at hold ⊢
  cases hstep with
  | handle q before after state answers hrequests hserve =>
    have hanswers : ofCall (answers.map (fun b => { q with body := b })) i n p ≤
        ofCall [q] i n p := by
      by_cases hq : q.process = i ∧ q.call = n
      · obtain ⟨k, hk, hx⟩ :=
          hissued.requests q (Protocol.mem_of_split hrequests)
        have hk' := hk
        rw [hq.1, hq.2] at hk'
        exact ofCall_answers (honce _ _ _ hk.next (hcall k hk') _ hx _ _ _
          hserve) i n p
      · rw [ofCall_eq_zero (fun r hr hr' => ?_)]
        · exact Nat.zero_le _
        · obtain ⟨b, _, rfl⟩ := List.mem_map.mp hr
          exact hq hr'
    simp only [ofCall_append]
    omega
  | take r k before after hrunning hcall hsent hanswers hsocket hwaits =>
    have hsplit := ofCall_split hanswers i n p
    simp only [ofCall_append] at hsplit ⊢
    omega
  | finish r k result before after hrunning hcall hsent hanswers hsocket
      hreturns =>
    have hsplit := ofCall_split hanswers i n p
    simp only [ofCall_append] at hsplit ⊢
    omega
  | loseAnswer r before after hanswers =>
    have hsplit := ofCall_split hanswers i n p
    simp only at hold ⊢
    omega
  | duplicateRequest q hd hq => exact absurd hd hdup
  | duplicateAnswer r hd hr => exact absurd hd hdup
  | call | refuse | send | timeout | loseRequest => exact hold

/-- What is counted in a run without duplicates. -/
structure Counted (c : System ι κ α β σ ρ) (once : κ → Prop)
    (s₀ s : State ι α β σ ρ) : Prop where
  calls : Calls c s
  issued : Issued c s
  served : Served c s₀ s
  asked : AskedOnce c s
  answered : AnsweredOnce c once s

/-- The counts of a run. -/
theorem run_counted (hdup : ¬ c.duplicates) (honce : AnswersOnce c once)
    {s₀ : State ι α β σ ρ} (h₀ : s₀.Initial) (hrun : Run c s₀ s) :
    Counted c once s₀ s := by
  refine Protocol.run_inv (Counted c once s₀) ?_ hrun ?_
  · intro t t' h hstep
    exact {
      calls := calls_step h.calls hstep
      issued := issued_step h.calls h.issued hstep
      served := served_step h.served hstep
      asked := askedOnce_step hdup h.calls h.issued h.asked hstep
      answered := answeredOnce_step hdup honce h.issued h.answered hstep }
  · refine ⟨run_calls h₀ .refl, run_issued h₀ .refl, run_served h₀ .refl,
      ?_, ?_⟩
    · intro i n k p hk
      exact absurd hk.began (State.not_began (h₀.results i) (h₀.running i) n)
    · intro i n p _
      rw [State.answered, h₀.answers, h₀.heard]
      exact Nat.zero_le _

/-! ## The answers that a call takes -/

section Taken

variable {s₀ : State ι α β σ ρ}

omit [DecidableEq α] in
theorem mem_heardIn {r : Packet ι α β} {i : ι} {n : Nat} :
    r ∈ s.heardIn i n ↔ r ∈ s.heard ∧ r.process = i ∧ r.call = n := by
  rw [State.heardIn, List.mem_filter, decide_eq_true_eq]

omit [DecidableEq α] in
theorem countP_heardIn (i : ι) (n : Nat) (p : α → Bool) :
    (s.heardIn i n).countP (fun r => p r.server) = ofCall s.heard i n p := by
  rw [State.heardIn, List.countP_filter, ofCall]
  refine List.countP_congr (fun r _ => ?_)
  simp only [Bool.and_eq_true, decide_eq_true_eq]
  tauto

/-- The servers that have answered a call are among those that it asks. -/
theorem Counted.servers_subperm (h : Counted c once s₀ s) {i : ι} {n : Nat}
    {k : κ} (hk : Makes c s i n k) (honce : once k) :
    ((s.heardIn i n).map Packet.server).Subperm
      ((c.call k).requests.map Prod.fst) := by
  rw [List.subperm_iff_count]
  intro a
  rw [List.count_eq_countP, List.count_eq_countP, List.countP_map,
    List.countP_map]
  have hheard := countP_heardIn (s := s) i n (fun b => b == a)
  have hasked := h.asked i n k (fun b => b == a) hk
  have hanswered := h.answered i n (fun b => b == a)
    (fun k' hk' => hk'.unique hk ▸ honce)
  rw [State.asked] at hasked
  rw [State.answered] at hanswered
  show (s.heardIn i n).countP (fun r => r.server == a) ≤
    (c.call k).requests.countP (fun x => x.1 == a)
  omega

/-- The answers to a call come from different servers when its requests go to
different servers. -/
theorem Counted.servers_nodup (h : Counted c once s₀ s) {i : ι} {n : Nat}
    {k : κ} (hk : Makes c s i n k) (honce : once k)
    (hnodup : ((c.call k).requests.map Prod.fst).Nodup) :
    ((s.heardIn i n).map Packet.server).Nodup := by
  obtain ⟨l, hperm, hsub⟩ := h.servers_subperm hk honce
  exact hperm.nodup_iff.mp (hnodup.sublist hsub)

end Taken

end Exchange
