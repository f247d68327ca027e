import PpsDht.Lib.ExchangeCount

/-!
# What becomes of the requests

Where the servers always answer, every request of a call is accounted for: it
is to be sent or on its way, its answer is on its way or taken, or one of the
two is lost.  So a call that is over has taken an answer to each request but for
those that are missing, `Accounted.length_heard`.

Whether a server answers may depend on its state: `good` holds of it at first,
and the requests of the system keep it.
-/

namespace Exchange

open Function

variable {ι κ α β σ ρ : Type*} [DecidableEq ι]
  {c : System ι κ α β σ ρ} {s s' : State ι α β σ ρ} {once : κ → Prop}
  {good : σ → Prop}

/-- How many requests of the call are to be sent, and how many of its packets
are on their way, taken or lost. -/
def State.accounts (s : State ι α β σ ρ) (i : ι) (n : Nat) (p : α → Bool) :
    Nat :=
  s.unsent i n p + (ofCall s.requests i n p + ofCall s.answers i n p +
    ofCall s.heard i n p + ofCall s.lost i n p)

/-- How many packets of the call are lost, or still on their way. -/
def State.missing (s : State ι α β σ ρ) (i : ι) (n : Nat) : Nat :=
  ofCall (s.requests ++ s.answers ++ s.lost) i n (fun _ => true)

/-! ## One step -/

/-- The answers to one request. -/
theorem le_ofCall_answers {q : Packet ι α β} {answers : List β}
    (h : answers ≠ []) (i : ι) (n : Nat) (p : α → Bool) :
    ofCall [q] i n p ≤
      ofCall (answers.map (fun b => { q with body := b })) i n p := by
  cases answers with
  | nil => exact absurd rfl h
  | cons b bs =>
    have hcons := ofCall_append [{ q with body := b }]
      (bs.map (fun b => { q with body := b })) i n p
    exact (Nat.le_add_right _ _).trans hcons.ge

variable [DecidableEq α]

/-- What the system sends keeps the servers good, and a good server answers
these calls. -/
def AnswersAll (c : System ι κ α β σ ρ) (once : κ → Prop) (good : σ → Prop) :
    Prop :=
  ∀ i results k, c.program i results = some k → ∀ x ∈ (c.call k).requests,
    ∀ state state' answers, good state → c.serve state x.2 state' answers →
      good state' ∧ (once k → answers ≠ [])

theorem good_step (hall : AnswersAll c once good) (hissued : Issued c s)
    (h : ∀ a, good (s.servers a)) (hstep : Step c s s') :
    ∀ a, good (s'.servers a) := by
  intro a
  cases hstep with
  | handle q before after state answers hrequests hserve =>
    obtain ⟨k, hk, hx⟩ := hissued.requests q (Protocol.mem_of_split hrequests)
    by_cases ha : a = q.server
    · subst ha
      have hgood := (hall _ _ _ hk.next _ hx _ _ _ (h q.server) hserve).1
      simpa only [update_self] using hgood
    · simpa only [update_of_ne ha] using h a
  | call | refuse | send | take | finish | timeout | loseRequest | loseAnswer
    | duplicateRequest | duplicateAnswer => exact h a

omit [DecidableEq α] in
/-- A request of the call that is handled has an answer. -/
theorem answers_of_good (hall : AnswersAll c once good) (hissued : Issued c s)
    {q : Packet ι α β} (hq : q ∈ s.requests) {state state' : σ}
    {answers : List β} (hgood : good state)
    (hserve : c.serve state q.body state' answers) {i : ι} {n : Nat} {k : κ}
    (hk : Makes c s i n k) (honce : once k) (p : α → Bool) :
    ofCall [q] i n p ≤
      ofCall (answers.map (fun b => { q with body := b })) i n p := by
  by_cases hcall : q.process = i ∧ q.call = n
  · obtain ⟨rfl, rfl⟩ := hcall
    obtain ⟨k', hk', hx⟩ := hissued.requests q hq
    have hserved := hall _ _ _ hk'.next _ hx _ _ _ hgood hserve
    exact le_ofCall_answers (hserved.2 (hk.unique hk' ▸ honce)) _ _ p
  · -- The request of another call does not count.
    rw [ofCall_eq_zero (fun r hr hr' => ?_)]
    · exact Nat.zero_le _
    · rw [List.mem_singleton.mp hr] at hr'
      exact hcall hr'

/-- No step leaves a request of a call unaccounted for. -/
theorem le_accounts_step (hall : AnswersAll c once good) (hcalls : Calls c s)
    (hissued : Issued c s) (hgood : ∀ a, good (s.servers a))
    (hstep : Step c s s') {i : ι} {n : Nat} {k : κ} (hk : Makes c s i n k)
    (honce : once k) (p : α → Bool) : s.accounts i n p ≤ s'.accounts i n p := by
  cases hstep with
  | call j k' hfree hnext hwaits =>
    refine Nat.add_le_add_right (le_unsent (hcalls.free j hfree) ?_ i n p) _
    exact fun i' hij => ⟨rfl, update_of_ne hij ..⟩
  | refuse j k' r hfree hnext hreturns =>
    refine Nat.add_le_add_right (le_unsent (hcalls.free j hfree) ?_ i n p) _
    exact fun i' hij => ⟨update_of_ne hij .., rfl⟩
  | send j x rest hpending =>
    have happend := ofCall_append s.requests [s.packet j x] i n p
    have hsend := unsent_send (t := { s with
      pending := update s.pending j rest
      requests := s.requests ++ [s.packet j x] }) hpending rfl rfl i n p
    unfold State.accounts
    simp only
    omega
  | handle q before after state answers hrequests hserve =>
    have hanswers := answers_of_good hall hissued
      (Protocol.mem_of_split hrequests) (hgood q.server) hserve hk honce p
    have hsplit := ofCall_split hrequests i n p
    have happend := ofCall_append s.answers
      (answers.map (fun b => { q with body := b })) i n p
    refine Nat.add_le_add_left ?_ _
    simp only
    omega
  | take r k' before after hrunning hcall hsent hanswers hsocket hwaits =>
    have hsplit := ofCall_split hanswers i n p
    have happend := ofCall_append s.heard [r] i n p
    refine Nat.add_le_add_left ?_ _
    simp only
    omega
  | finish r k' result before after hrunning hcall hsent hanswers hsocket
      hreturns =>
    have hsplit := ofCall_split hanswers i n p
    have happend := ofCall_append s.heard [r] i n p
    have hunsent : s.unsent i n p ≤ State.unsent { s with
        results := update s.results r.process (s.results r.process ++ [result])
        running := update s.running r.process false
        answers := before ++ after
        heard := s.heard ++ [r] } i n p := by
      refine le_unsent hsent ?_ i n p
      exact fun i' hij => ⟨update_of_ne hij .., rfl⟩
    unfold State.accounts
    simp only
    omega
  | timeout j k' hrunning hcall hsent =>
    refine Nat.add_le_add_right (le_unsent hsent ?_ i n p) _
    exact fun i' hij => ⟨update_of_ne hij .., rfl⟩
  | loseRequest q before after hrequests =>
    have hsplit := ofCall_split hrequests i n p
    have happend := ofCall_append s.lost [q] i n p
    refine Nat.add_le_add_left ?_ _
    simp only
    omega
  | loseAnswer r before after hanswers =>
    have hsplit := ofCall_split hanswers i n p
    have happend := ofCall_append s.lost [r] i n p
    refine Nat.add_le_add_left ?_ _
    simp only
    omega
  | duplicateRequest q hd hq =>
    have hcons : ofCall (q :: s.requests) i n p =
        ofCall [q] i n p + ofCall s.requests i n p :=
      ofCall_append [q] s.requests i n p
    refine Nat.add_le_add_left ?_ _
    simp only
    omega
  | duplicateAnswer r hd hr =>
    have hcons : ofCall (r :: s.answers) i n p =
        ofCall [r] i n p + ofCall s.answers i n p :=
      ofCall_append [r] s.answers i n p
    refine Nat.add_le_add_left ?_ _
    simp only
    omega

/-- A call that waits for answers has all its requests to send when it
starts. -/
theorem le_accounts_start (hstep : Step c s s') {i : ι} {n : Nat} {k : κ}
    (hn : ¬ s.Began i n) (hk : Makes c s' i n k)
    (hwaits : (c.call k).after [] = none) (p : α → Bool) :
    (c.call k).requests.countP (fun x => p x.1) ≤ s'.accounts i n p := by
  obtain ⟨rfl, hfree⟩ := hk.began.of_step hstep hn
  have hnext : c.program i (s.results i) = some k := by
    have hk' := hk.next
    rcases hstep.results i with ⟨hresults, _⟩ | ⟨r, hresults, _⟩
    · rwa [hresults, State.current, List.take_length] at hk'
    · rwa [hresults, State.current, List.take_left] at hk'
  have hbegan := hk.began
  have hmoves : s'.results i = s.results i → s'.running i ≠ s.running i := by
    intro hresults hrunning
    unfold State.Began State.current at hbegan
    rw [hresults, hrunning] at hbegan
    exact hn hbegan
  cases hstep with
  | call j k' hfree' hnext' hwaits' =>
    by_cases hij : i = j
    · subst hij
      cases hnext.symm.trans hnext'
      have hunsent : State.unsent { s with
          running := update s.running i true
          pending := update s.pending i (c.call k).requests } i (s.current i)
          p = (c.call k).requests.countP (fun x => p x.1) :=
        (if_pos rfl).trans (by simp only [update_self])
      rw [State.accounts, hunsent]
      omega
    · exact absurd (update_of_ne hij ..) (hmoves rfl)
  | refuse j k' r hfree' hnext' hreturns =>
    by_cases hij : i = j
    · subst hij
      cases hnext.symm.trans hnext'
      rw [hwaits] at hreturns
      cases hreturns
    · exact absurd rfl (hmoves (update_of_ne hij ..))
  | finish r k' result before after hrunning hcall hsent hanswers hsocket
      hreturns =>
    have hij : i ≠ r.process := by
      rintro rfl
      exact Bool.false_ne_true (hfree.symm.trans hrunning)
    exact absurd (update_of_ne hij ..) (hmoves (update_of_ne hij ..))
  | timeout j k' hrunning hcall hsent =>
    have hij : i ≠ j := by
      rintro rfl
      exact Bool.false_ne_true (hfree.symm.trans hrunning)
    exact absurd (update_of_ne hij ..) (hmoves (update_of_ne hij ..))
  | send | handle | take | loseRequest | loseAnswer | duplicateRequest
    | duplicateAnswer => exact absurd hbegan hn

/-! ## Runs -/

/-- Every request of a call that waits for answers is accounted for. -/
structure Accounted (c : System ι κ α β σ ρ) (once : κ → Prop)
    (good : σ → Prop) (s : State ι α β σ ρ) : Prop where
  calls : Calls c s
  issued : Issued c s
  good : ∀ a, good (s.servers a)
  accounts : ∀ i n k p, Makes c s i n k → once k →
    (c.call k).after [] = none →
      (c.call k).requests.countP (fun x => p x.1) ≤ s.accounts i n p

theorem run_accounted (hall : AnswersAll c once good) {s₀ : State ι α β σ ρ}
    (h₀ : s₀.Initial) (hgood : ∀ a, good (s₀.servers a))
    (hrun : Run c s₀ s) : Accounted c once good s := by
  refine Protocol.run_inv (Accounted c once good) ?_ hrun ?_
  · intro t t' h hstep
    refine ⟨calls_step h.calls hstep, issued_step h.calls h.issued hstep,
      good_step hall h.issued h.good hstep, ?_⟩
    intro i n k p hk honce hwaits
    by_cases hn : t.Began i n
    · have hk' := hk.of_step hstep hn
      exact (h.accounts i n k p hk' honce hwaits).trans
        (le_accounts_step hall h.calls h.issued h.good hstep hk' honce p)
    · exact le_accounts_start hstep hn hk hwaits p
  · refine ⟨run_calls h₀ .refl, run_issued h₀ .refl, hgood, ?_⟩
    intro i n k p hk
    exact absurd hk.began (State.not_began (h₀.results i) (h₀.running i) n)

omit [DecidableEq α] in
/-- A call that is over has taken an answer to each of its requests, but for
those that are missing. -/
theorem Accounted.length_heard (h : Accounted c once good s) {i : ι} {n : Nat}
    {k : κ} (hk : Makes c s i n k) (honce : once k)
    (hwaits : (c.call k).after [] = none) (hover : n < s.current i) :
    (c.call k).requests.length ≤ (s.heardIn i n).length + s.missing i n := by
  have hunsent : s.unsent i n (fun _ => true) = 0 :=
    if_neg (Nat.ne_of_lt hover)
  have haccounts := h.accounts i n k (fun _ => true) hk honce hwaits
  have hheard := countP_heardIn (s := s) i n (fun _ => true)
  rw [List.countP_true] at haccounts hheard
  rw [State.accounts] at haccounts
  rw [State.missing, ofCall_append, ofCall_append]
  omega

end Exchange
