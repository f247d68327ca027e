import Mathlib.Data.Nat.Notation

/-!
# Loops with fuel

A `while` loop is a body that maps a state either to the next state or to the
result with which the loop is left.  `run body fuel s` makes at most `fuel`
passes through the body; `none` says that the fuel ran out.

The rules that cover every use:

* `run_of_le` and `run_unique`: once a run has a result, more fuel changes
  nothing.
* `run_total`: an invariant and a measure that drops on every pass give a
  result and its postcondition, with an explicit bound on the fuel.
* `run_inv` and `run_diverges`: the partial-correctness rule, and the rule for
  a loop that never ends.
* `Leads.run` and `visited_inv`: a run that starts with given passes, and what
  holds of every state that a run visits.
* `feed_inv`: a loop that reads one item of an input per pass, with an
  invariant that sees the input still ahead.
* `feedStep`: where such a loop stands behind the input so far.
* `WaitsFor.feedStep` and `EndsAfter.feed`: a loop that waits for a number of
  items of a kind.
* `forall_feedTrace` and `of_forall_feedTrace`: the events on the way, and what
  can be told from them.
-/

namespace Loop

variable {σ ρ : Type*}

/-- What one pass through a loop body does. -/
inductive Step (σ ρ : Type*) where
  | again (s : σ)
  | done (r : ρ)

/-- The same pass with another result. -/
def Step.map {ρ' : Type*} (f : ρ → ρ') : Step σ ρ → Step σ ρ'
  | .again s => .again s
  | .done r => .done (f r)

/-- At most `fuel` passes through `body`, starting in `s`. -/
def run (body : σ → Step σ ρ) : Nat → σ → Option ρ
  | 0, _ => none
  | fuel + 1, s =>
    match body s with
    | .again s' => run body fuel s'
    | .done r => some r

@[simp] theorem run_zero (body : σ → Step σ ρ) (s : σ) :
    run body 0 s = none := rfl

theorem run_succ_again {body : σ → Step σ ρ} {s s' : σ} (fuel : Nat)
    (h : body s = .again s') : run body (fuel + 1) s = run body fuel s' := by
  rw [run, h]

theorem run_succ_done {body : σ → Step σ ρ} {s : σ} {r : ρ} (fuel : Nat)
    (h : body s = .done r) : run body (fuel + 1) s = some r := by
  rw [run, h]

private theorem run_add {body : σ → Step σ ρ} {r : ρ} (extra : Nat) :
    ∀ (fuel : Nat) (s : σ), run body fuel s = some r →
      run body (fuel + extra) s = some r := by
  intro fuel
  induction fuel with
  | zero =>
    intro s h
    rw [run_zero] at h
    exact absurd h (by simp)
  | succ fuel ih =>
    intro s h
    have hstep : fuel + 1 + extra = fuel + extra + 1 := by omega
    rw [hstep]
    cases hb : body s with
    | again s' =>
      rw [run_succ_again _ hb] at h ⊢
      exact ih s' h
    | done r' =>
      rw [run_succ_done _ hb] at h ⊢
      exact h

/-- More fuel does not change a result. -/
theorem run_of_le {body : σ → Step σ ρ} {s : σ} {r : ρ} {fuel fuel' : Nat}
    (hle : fuel ≤ fuel') (h : run body fuel s = some r) :
    run body fuel' s = some r := by
  have he : fuel' = fuel + (fuel' - fuel) := by omega
  rw [he]
  exact run_add _ fuel s h

/-- A loop has one result. -/
theorem run_unique {body : σ → Step σ ρ} {s : σ} {r r' : ρ}
    {fuel fuel' : Nat} (h : run body fuel s = some r)
    (h' : run body fuel' s = some r') : r = r' := by
  have h1 := run_of_le (Nat.le_max_left fuel fuel') h
  have h2 := run_of_le (Nat.le_max_right fuel fuel') h'
  exact Option.some.inj (h1.symm.trans h2)

/-- Total correctness.  Every pass from a state of `Inv` either goes on, keeps
`Inv` and lowers `μ`, or leaves the loop with a result of `Post`. -/
theorem run_total {body : σ → Step σ ρ} {Inv : σ → Prop} (μ : σ → Nat)
    {Post : ρ → Prop}
    (hstep : ∀ s, Inv s →
      (∃ s', body s = .again s' ∧ Inv s' ∧ μ s' < μ s) ∨
      ∃ r, body s = .done r ∧ Post r) :
    ∀ {fuel : Nat} {s : σ}, Inv s → μ s < fuel →
      ∃ r, run body fuel s = some r ∧ Post r := by
  intro fuel
  induction fuel with
  | zero =>
    intro s _ hμ
    exact absurd hμ (Nat.not_lt_zero _)
  | succ fuel ih =>
    intro s hinv hμ
    rcases hstep s hinv with ⟨s', hb, hinv', hlt⟩ | ⟨r, hb, hpost⟩
    · obtain ⟨r, hr, hpost⟩ := ih hinv' (by omega)
      exact ⟨r, (run_succ_again fuel hb).trans hr, hpost⟩
    · exact ⟨r, run_succ_done fuel hb, hpost⟩

/-- Partial correctness: whatever result a run has satisfies `Post`. -/
theorem run_inv {body : σ → Step σ ρ} {Inv : σ → Prop} {Post : ρ → Prop}
    (hstep : ∀ s, Inv s → (∃ s', body s = .again s' ∧ Inv s') ∨
      ∃ r, body s = .done r ∧ Post r) :
    ∀ {fuel : Nat} {s : σ} {r : ρ}, Inv s → run body fuel s = some r →
      Post r := by
  intro fuel
  induction fuel with
  | zero =>
    intro s r _ h
    rw [run_zero] at h
    exact absurd h (by simp)
  | succ fuel ih =>
    intro s r hinv h
    rcases hstep s hinv with ⟨s', hb, hinv'⟩ | ⟨r', hb, hpost⟩
    · rw [run_succ_again fuel hb] at h
      exact ih hinv' h
    · rw [run_succ_done fuel hb, Option.some.injEq] at h
      exact h ▸ hpost

/-- The number of passes after which a loop goes on. -/
def passes (body : σ → Step σ ρ) : Nat → σ → Nat
  | 0, _ => 0
  | fuel + 1, s =>
    match body s with
    | .again s' => passes body fuel s' + 1
    | .done _ => 0

theorem passes_succ_again {body : σ → Step σ ρ} {s s' : σ} (fuel : Nat)
    (h : body s = .again s') :
    passes body (fuel + 1) s = passes body fuel s' + 1 := by
  rw [passes, h]

theorem passes_succ_done {body : σ → Step σ ρ} {s : σ} {r : ρ} (fuel : Nat)
    (h : body s = .done r) : passes body (fuel + 1) s = 0 := by
  rw [passes, h]

/-! ## Segments of a run -/

/-- `n` passes that go on lead from `s` to `s'`. -/
def Leads (body : σ → Step σ ρ) : Nat → σ → σ → Prop
  | 0, s, s' => s = s'
  | n + 1, s, s' => ∃ t, body s = .again t ∧ Leads body n t s'

theorem Leads.trans {body : σ → Step σ ρ} {m : Nat} {s' s'' : σ}
    (h' : Leads body m s' s'') : ∀ {n : Nat} {s : σ}, Leads body n s s' →
      Leads body (n + m) s s'' := by
  intro n
  induction n with
  | zero =>
    rintro s rfl
    rw [Nat.zero_add]
    exact h'
  | succ n ih =>
    rintro s ⟨t, hb, ht⟩
    rw [Nat.add_right_comm]
    exact ⟨t, hb, ih ht⟩

/-- What is left of a run behind its first passes. -/
theorem Leads.run {body : σ → Step σ ρ} (fuel : Nat) {s' : σ} :
    ∀ {n : Nat} {s : σ}, Leads body n s s' →
      Loop.run body (fuel + n) s = Loop.run body fuel s' := by
  intro n
  induction n with
  | zero =>
    rintro s rfl
    rfl
  | succ n ih =>
    rintro s ⟨t, hb, ht⟩
    rw [← Nat.add_assoc, run_succ_again _ hb, ih ht]

/-- A result of the whole run is one of what is left of it. -/
theorem Leads.run_eq_some {body : σ → Step σ ρ} {n fuel : Nat} {s s' : σ}
    {r : ρ} (h : Leads body n s s') (hr : Loop.run body fuel s = some r) :
    Loop.run body fuel s' = some r := by
  rw [← h.run fuel]
  exact run_of_le (Nat.le_add_right fuel n) hr

/-- The states in which the passes of a run start. -/
def visited (body : σ → Step σ ρ) : Nat → σ → List σ
  | 0, _ => []
  | fuel + 1, s =>
    s :: match body s with
      | .again s' => visited body fuel s'
      | .done _ => []

/-- An invariant of the passes holds in every state that a run visits. -/
theorem visited_inv {body : σ → Step σ ρ} (Inv : σ → Prop)
    (hstep : ∀ s s', Inv s → body s = .again s' → Inv s') :
    ∀ {fuel : Nat} {s : σ}, Inv s → ∀ t ∈ visited body fuel s, Inv t := by
  intro fuel
  induction fuel with
  | zero =>
    intro s _ t ht
    exact absurd ht List.not_mem_nil
  | succ fuel ih =>
    intro s hs t ht
    rw [visited] at ht
    rcases List.mem_cons.mp ht with rfl | ht
    · exact hs
    · cases hb : body s with
      | again s' =>
        rw [hb] at ht
        exact ih (hstep s s' hs hb) t ht
      | done r =>
        rw [hb] at ht
        exact absurd ht List.not_mem_nil

/-- A state that passes lead to is visited. -/
theorem Leads.mem_visited {body : σ → Step σ ρ} (fuel : Nat) {s' : σ} :
    ∀ {n : Nat} {s : σ}, Leads body n s s' →
      s' ∈ visited body (fuel + n + 1) s := by
  intro n
  induction n with
  | zero =>
    rintro s rfl
    rw [visited]
    exact List.mem_cons_self
  | succ n ih =>
    rintro s ⟨t, hb, ht⟩
    rw [visited, hb]
    exact List.mem_cons_of_mem s (ih ht)

/-! ## Loops over an input -/

variable {ι : Type*}

/-- A loop that takes one item of its input per pass.  `stop` is the result
when the input ends first. -/
def feed (body : σ → ι → Step σ ρ) (stop : σ → ρ) : σ → List ι → ρ
  | s, [] => stop s
  | s, i :: is =>
    match body s i with
    | .again s' => feed body stop s' is
    | .done r => r

theorem feed_again {body : σ → ι → Step σ ρ} {stop : σ → ρ} {s s' : σ} {i : ι}
    (h : body s i = .again s') (is : List ι) :
    feed body stop s (i :: is) = feed body stop s' is := by
  rw [feed, h]

theorem feed_done {body : σ → ι → Step σ ρ} {stop : σ → ρ} {s : σ} {i : ι}
    {r : ρ} (h : body s i = .done r) (is : List ι) :
    feed body stop s (i :: is) = r := by
  rw [feed, h]

/-- A loop that reads part of its input and wraps its result. -/
theorem feed_map {ι' ρ' : Type*} (body : σ → ι → Step σ ρ) (stop : σ → ρ)
    (f : ρ → ρ') (g : ι' → ι) (is : List ι') : ∀ s : σ,
    feed (fun s i => (body s (g i)).map f) (fun s => f (stop s)) s is =
      f (feed body stop s (is.map g)) := by
  induction is with
  | nil =>
    intro s
    rfl
  | cons i is ih =>
    intro s
    rw [List.map_cons, feed, feed]
    cases body s (g i) with
    | again s' => exact ih s'
    | done r => rfl

/-- `Inv` relates the state to the input that is still ahead. -/
theorem feed_inv {body : σ → ι → Step σ ρ} {stop : σ → ρ}
    (Inv : σ → List ι → Prop) {Post : ρ → Prop}
    (hstep : ∀ s i is, Inv s (i :: is) →
      (∃ s', body s i = .again s' ∧ Inv s' is) ∨
      ∃ r, body s i = .done r ∧ Post r)
    (hstop : ∀ s, Inv s [] → Post (stop s)) :
    ∀ (is : List ι) {s : σ}, Inv s is → Post (feed body stop s is) := by
  intro is
  induction is with
  | nil =>
    intro s hinv
    exact hstop s hinv
  | cons i is ih =>
    intro s hinv
    rcases hstep s i is hinv with ⟨s', hb, hinv'⟩ | ⟨r, hb, hpost⟩
    · rw [feed_again hb]
      exact ih hinv'
    · rw [feed_done hb]
      exact hpost

/-- Where the loop stands behind some input. -/
def feedStep (body : σ → ι → Step σ ρ) : σ → List ι → Step σ ρ
  | s, [] => .again s
  | s, i :: is =>
    match body s i with
    | .again s' => feedStep body s' is
    | .done r => .done r

/-- A loop that waits behind its input stops there. -/
theorem feed_of_feedStep_again {body : σ → ι → Step σ ρ} (stop : σ → ρ)
    {s' : σ} : ∀ (is : List ι) {s : σ}, feedStep body s is = .again s' →
      feed body stop s is = stop s' := by
  intro is
  induction is with
  | nil =>
    intro s h
    cases h
    rfl
  | cons i is ih =>
    intro s h
    rw [feedStep] at h
    cases hb : body s i with
    | again t =>
      rw [hb] at h
      rw [feed_again hb]
      exact ih h
    | done r =>
      rw [hb] at h
      cases h

/-- A loop that has ended has its result from the input so far. -/
theorem feed_of_feedStep_done {body : σ → ι → Step σ ρ} (stop : σ → ρ)
    {r : ρ} : ∀ (is : List ι) {s : σ}, feedStep body s is = .done r →
      feed body stop s is = r := by
  intro is
  induction is with
  | nil =>
    intro s h
    cases h
  | cons i is ih =>
    intro s h
    rw [feedStep] at h
    cases hb : body s i with
    | again s' =>
      rw [hb] at h
      rw [feed_again hb]
      exact ih h
    | done r' =>
      rw [hb] at h
      rw [feed_done hb]
      exact Step.done.inj h

/-- The loop waits for `n` items of a kind.  `Ready j` is its state behind `j` of
them. -/
structure WaitsFor (body : σ → ι → Step σ ρ) (good : ι → Prop)
    (Ready : ℕ → σ → Prop) (n : ℕ) : Prop where
  again : ∀ j s i, j + 1 < n → good i → Ready j s →
    ∃ s', body s i = .again s' ∧ Ready (j + 1) s'

/-- The last of them ends the loop, with this result. -/
structure EndsAfter (body : σ → ι → Step σ ρ) (good : ι → Prop)
    (Ready : ℕ → σ → Prop) (n : ℕ) (r : ρ) : Prop
    extends WaitsFor body good Ready n where
  done : ∀ j s i, j + 1 = n → good i → Ready j s → body s i = .done r

section EndsAfter

variable {body : σ → ι → Step σ ρ} {good : ι → Prop} {Ready : ℕ → σ → Prop}
  {n : ℕ} {r : ρ}

/-- So does a loop that reads part of its input and wraps its result. -/
theorem WaitsFor.map {ι' ρ' : Type*} (h : WaitsFor body good Ready n)
    (f : ρ → ρ') (g : ι' → ι) :
    WaitsFor (fun s i => (body s (g i)).map f) (fun i => good (g i)) Ready
      n where
  again := by
    intro j s i hj hi hs
    obtain ⟨s', hb, hs'⟩ := h.again j s (g i) hj hi hs
    exact ⟨s', by simp only [hb, Step.map], hs'⟩

theorem EndsAfter.map {ι' ρ' : Type*} (h : EndsAfter body good Ready n r)
    (f : ρ → ρ') (g : ι' → ι) :
    EndsAfter (fun s i => (body s (g i)).map f) (fun i => good (g i)) Ready n
      (f r) where
  toWaitsFor := h.toWaitsFor.map f g
  done := by
    intro j s i hj hi hs
    simp only [h.done j s (g i) hj hi hs, Step.map]

/-- Where the loop stands behind fewer items. -/
theorem WaitsFor.feedStep (h : WaitsFor body good Ready n) (is : List ι) :
    ∀ {j : ℕ} {s : σ}, (∀ i ∈ is, good i) → j + is.length < n → Ready j s →
      ∃ s', Ready (j + is.length) s' ∧ feedStep body s is = .again s' := by
  induction is with
  | nil => exact fun _ _ hs => ⟨_, hs, rfl⟩
  | cons i is ih =>
    intro j s hgood hlen hs
    rw [List.length_cons] at hlen
    obtain ⟨s', hb, hs'⟩ :=
      h.again j s i (by omega) (hgood i List.mem_cons_self) hs
    obtain ⟨s'', hs'', hstep⟩ := ih
      (fun x hx => hgood x (List.mem_cons_of_mem i hx)) (by omega) hs'
    rw [Nat.add_assoc, Nat.add_comm 1] at hs''
    exact ⟨s'', hs'', by rw [Loop.feedStep, hb]; exact hstep⟩

/-- The last item ends it. -/
theorem EndsAfter.feed (h : EndsAfter body good Ready n r) (stop : σ → ρ)
    (is : List ι) : ∀ {j : ℕ} {s : σ}, (∀ i ∈ is, good i) →
      j + is.length = n → j < n → Ready j s → feed body stop s is = r := by
  induction is with
  | nil =>
    intro j s _ hlen hj _
    rw [List.length_nil] at hlen
    omega
  | cons i is ih =>
    intro j s hgood hlen hj hs
    rw [List.length_cons] at hlen
    have hi := hgood i List.mem_cons_self
    by_cases hlast : j + 1 = n
    · exact feed_done (h.done j s i hlast hi hs) is
    · obtain ⟨s', hb, hs'⟩ := h.again j s i (by omega) hi hs
      rw [feed_again hb]
      exact ih (fun x hx => hgood x (List.mem_cons_of_mem i hx)) (by omega)
        (by omega) hs'

end EndsAfter

/-! ## What a loop does on the way -/

variable {ε : Type*}

/-- The events of `feed`: those of each pass, and those of the end. -/
def feedTrace (body : σ → ι → Step σ ρ) (events : σ → ι → List ε)
    (last : σ → List ε) : σ → List ι → List ε
  | s, [] => last s
  | s, i :: is =>
    events s i ++
      match body s i with
      | .again s' => feedTrace body events last s' is
      | .done _ => []

theorem feedTrace_again {body : σ → ι → Step σ ρ} {s s' : σ} {i : ι}
    (h : body s i = .again s') (events : σ → ι → List ε) (last : σ → List ε)
    (is : List ι) :
    feedTrace body events last s (i :: is) =
      events s i ++ feedTrace body events last s' is := by
  rw [feedTrace, h]

theorem feedTrace_done {body : σ → ι → Step σ ρ} {s : σ} {i : ι} {r : ρ}
    (h : body s i = .done r) (events : σ → ι → List ε) (last : σ → List ε)
    (is : List ι) :
    feedTrace body events last s (i :: is) = events s i := by
  rw [feedTrace, h]
  exact List.append_nil _

/-- Every event is one of a state of `Inv`. -/
theorem forall_feedTrace {body : σ → ι → Step σ ρ} {events : σ → ι → List ε}
    {last : σ → List ε} (Inv : σ → List ι → Prop) {P : ε → Prop}
    (hstep : ∀ s i is, Inv s (i :: is) →
      (∀ e ∈ events s i, P e) ∧ ∀ s', body s i = .again s' → Inv s' is)
    (hlast : ∀ s, Inv s [] → ∀ e ∈ last s, P e) :
    ∀ (is : List ι) {s : σ}, Inv s is →
      ∀ e ∈ feedTrace body events last s is, P e := by
  intro is
  induction is with
  | nil =>
    intro s hinv
    exact hlast s hinv
  | cons i is ih =>
    intro s hinv e he
    obtain ⟨hevents, hnext⟩ := hstep s i is hinv
    cases hb : body s i with
    | again s' =>
      rw [feedTrace_again hb, List.mem_append] at he
      rcases he with he | he
      · exact hevents e he
      · exact ih (hnext s' hb) e he
    | done r =>
      rw [feedTrace_done hb] at he
      exact hevents e he

/-- What the end of a loop shows when every event is one of `P`. -/
theorem of_forall_feedTrace {body : σ → ι → Step σ ρ}
    {events : σ → ι → List ε} {last : σ → List ε} (Inv : σ → List ι → Prop)
    {P : ε → Prop} {Q : Prop}
    (hstep : ∀ s i is, Inv s (i :: is) → (∀ e ∈ events s i, P e) →
      (∃ s', body s i = .again s' ∧ Inv s' is) ∨ (∃ r, body s i = .done r) ∧ Q)
    (hlast : ∀ s, Inv s [] → (∀ e ∈ last s, P e) → Q) :
    ∀ (is : List ι) {s : σ}, Inv s is →
      (∀ e ∈ feedTrace body events last s is, P e) → Q := by
  intro is
  induction is with
  | nil =>
    intro s hinv h
    exact hlast s hinv h
  | cons i is ih =>
    intro s hinv h
    cases hb : body s i with
    | again s' =>
      rw [feedTrace_again hb, List.forall_mem_append] at h
      rcases hstep s i is hinv h.1 with ⟨t, ht, hinv'⟩ | ⟨⟨r, hr⟩, _⟩
      · cases hb.symm.trans ht
        exact ih hinv' h.2
      · cases hb.symm.trans hr
    | done r =>
      rw [feedTrace_done hb] at h
      rcases hstep s i is hinv h with ⟨t, ht, _⟩ | ⟨_, hq⟩
      · cases hb.symm.trans ht
      · exact hq

/-! ## Loops that never end -/

/-- A loop that keeps `Inv` and goes on from every state of `Inv` never
ends. -/
theorem run_diverges {body : σ → Step σ ρ} (Inv : σ → Prop)
    (h : ∀ s, Inv s → ∃ s', body s = .again s' ∧ Inv s') :
    ∀ (fuel : Nat) {s : σ}, Inv s → run body fuel s = none := by
  intro fuel
  induction fuel with
  | zero =>
    intro s _
    exact run_zero body s
  | succ fuel ih =>
    intro s hinv
    obtain ⟨s', hb, hinv'⟩ := h s hinv
    rw [run_succ_again fuel hb]
    exact ih hinv'

end Loop
