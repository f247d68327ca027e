import PpsDht.Client

/-!
# The grammar of the options

What `parse_opt_args` consumes is a sequence of pairs, an option and its value,
and then at most one `--`.  An `OptPair` carries what makes a pair acceptable:
its option is supported, and its value is positive and not `--`.

* `parseOptArgs_accounted`: the returned values are those of the last pairs,
  and the remaining arguments stand behind the consumed ones.
* `options_accounted`: which arguments `client_init` leaves in `argv`.
* `parseOptArgs_quorums_iff`: when the returned quorums are within `N`.
-/

namespace PpsDht

open CMem

/-! ## Pairs of options and values -/

/-- An option with its value, as `parse_option` accepts them. -/
structure OptPair (supportedArgs : Nat) where
  kind : OptionKind
  value : CString
  supported : supportedArgs &&& kind.flag ≠ 0
  not_end : value ≠ optEnd
  pos : 0 < (strtol value).value

namespace OptPair

variable {supportedArgs : Nat}

/-- The two arguments of the pair. -/
def tokens (pair : OptPair supportedArgs) : List CString :=
  [pair.kind.text, pair.value]

/-- The value as a number. -/
def number (pair : OptPair supportedArgs) : Nat :=
  (strtol pair.value).value.toNat

end OptPair

section

variable {supportedArgs : Nat}

/-- The value of the last pair of an option, or its default. -/
def lastValue (kind : OptionKind) (default : Nat)
    (pairs : List (OptPair supportedArgs)) : Nat :=
  match (pairs.filter (fun pair => pair.kind = kind)).getLast? with
  | some pair => pair.number
  | none => default

/-- The values that the pairs ask for. -/
def pairValues (pairs : List (OptPair supportedArgs)) : Args where
  N := lastValue .n 3 pairs
  R := lastValue .r 2 pairs
  W := lastValue .w 2 pairs

theorem lastValue_concat (kind : OptionKind) (default : Nat)
    (pairs : List (OptPair supportedArgs)) (pair : OptPair supportedArgs) :
    lastValue kind default (pairs ++ [pair]) =
      if pair.kind = kind then pair.number
      else lastValue kind default pairs := by
  by_cases hkind : pair.kind = kind
  · rw [if_pos hkind, lastValue, List.filter_append,
      List.filter_cons_of_pos (by simpa using hkind), List.filter_nil,
      List.getLast?_concat]
  · rw [if_neg hkind, lastValue, List.filter_append,
      List.filter_cons_of_neg (by simpa using hkind), List.filter_nil,
      List.append_nil, lastValue]

/-- One more pair sets its field. -/
theorem pairValues_concat (pairs : List (OptPair supportedArgs))
    (pair : OptPair supportedArgs) :
    pairValues (pairs ++ [pair]) =
      pair.kind.store (pairValues pairs) pair.number := by
  rw [pairValues, lastValue_concat, lastValue_concat, lastValue_concat]
  cases hkind : pair.kind with
  | n => rfl
  | r => rfl
  | w => rfl

end

/-- What a successful `parse_opt_args` has consumed, and what it leaves. -/
def Accounted (supportedArgs : Nat) (argv : List CString) (parsed : Args)
    (rem : List CString) : Prop :=
  ∃ pairs : List (OptPair supportedArgs), parsed = pairValues pairs ∧
    (argv = pairs.flatMap OptPair.tokens ++ optEnd :: rem ∨
      argv = pairs.flatMap OptPair.tokens ++ rem ∧
        ∀ arg ∈ rem.head?, (∀ kind : OptionKind, arg ≠ kind.text) ∧
          arg ≠ optEnd)

/-- The arguments that are left are the last ones. -/
theorem Accounted.suffix {supportedArgs : Nat} {argv rem : List CString}
    {parsed : Args} (h : Accounted supportedArgs argv parsed rem) :
    rem <:+ argv := by
  obtain ⟨pairs, _, hargv | ⟨hargv, _⟩⟩ := h
  · rw [hargv]
    exact (List.suffix_cons optEnd rem).trans (List.suffix_append _ _)
  · rw [hargv]
    exact List.suffix_append _ _

/-! ## The loop over the options -/

/-- The arguments in front of the state are pairs, and it holds their
values. -/
def Consumed (supportedArgs : Nat) (argv : List CString)
    (st : Args × List CString) : Prop :=
  ∃ pairs : List (OptPair supportedArgs), st.1 = pairValues pairs ∧
    argv = pairs.flatMap OptPair.tokens ++ st.2

/-- One pass consumes a pair, or ends the loop. -/
theorem Consumed.step {supportedArgs : Nat} {argv : List CString}
    (st : Args × List CString) (h : Consumed supportedArgs argv st) :
    (∃ st', parseOptBody supportedArgs st = .again st' ∧
      Consumed supportedArgs argv st') ∨
    ∃ r, parseOptBody supportedArgs st = .done r ∧
      ∀ parsed rem, r = .ok (some (parsed, rem)) →
        Accounted supportedArgs argv parsed rem := by
  obtain ⟨parsed, remArgv⟩ := st
  obtain ⟨pairs, hvalues, hargv⟩ := h
  cases remArgv with
  | nil =>
    refine Or.inr ⟨_, rfl, ?_⟩
    intro parsed' rem hok
    obtain ⟨rfl, rfl, _⟩ := checked_eq_some hok
    exact ⟨pairs, hvalues, Or.inr ⟨hargv, fun arg harg => by cases harg⟩⟩
  | cons arg rest =>
    by_cases hkind : ∃ kind : OptionKind, arg = kind.text
    · obtain ⟨kind, rfl⟩ := hkind
      rw [parseOptBody_option]
      cases hstep : optionStep (supportedArgs &&& kind.flag)
          (kind.text :: rest) (kind.store parsed) with
      | again st' =>
        obtain ⟨text, rem, rfl, hsupported, hend, hpos, rfl⟩ :=
          optionStep_again hstep
        let pair : OptPair supportedArgs :=
          { kind := kind, value := text, supported := hsupported,
            not_end := hend, pos := hpos }
        refine Or.inl ⟨_, rfl, pairs ++ [pair], ?_, ?_⟩
        · rw [pairValues_concat, ← hvalues]
          rfl
        · rw [hargv, List.flatMap_append, List.append_assoc]
          rfl
      | done r =>
        refine Or.inr ⟨r, rfl, ?_⟩
        intro parsed' rem hok
        rcases optionStep_done hstep with rfl | rfl
        · cases hok
        · cases hok
    · rw [not_exists] at hkind
      rw [parseOptBody_stop supportedArgs hkind]
      refine Or.inr ⟨_, rfl, ?_⟩
      intro parsed' rem hok
      obtain ⟨rfl, rfl, _⟩ := checked_eq_some hok
      by_cases hend : arg = optEnd
      · rw [if_pos hend]
        rw [hend] at hargv
        exact ⟨pairs, hvalues, Or.inl hargv⟩
      · rw [if_neg hend]
        refine ⟨pairs, hvalues, Or.inr ⟨hargv, ?_⟩⟩
        intro arg' harg'
        cases harg'
        exact ⟨hkind, hend⟩

/-- The arguments that `parse_opt_args` consumes. -/
theorem parseOptArgs_accounted {supportedArgs : Nat} {argv rem : List CString}
    {parsed : Args}
    (h : parseOptArgs supportedArgs argv = .ok (some (parsed, rem))) :
    Accounted supportedArgs argv parsed rem := by
  have hstart : Consumed supportedArgs argv (defaultArgs, argv) :=
    ⟨[], rfl, rfl⟩
  rw [parseOptArgs] at h
  exact Loop.run_inv Consumed.step hstart (run_of_runLoop_ok h) parsed rem rfl

/-! ## The arguments that a client leaves -/

/-- The number of arguments that are left, by the unsigned subtractions of
`client_init`. -/
theorem sizeSub_parsed {n k : Nat} (hn : n + 1 < 2 ^ 64) (hk : k ≤ n) :
    sizeSub (sizeSub (n + 1) 1) (sizeSub n k) = k := by
  rw [sizeSub, sizeSub, sizeSub]
  omega

/-- The options are parsed by their grammar, and `client_init` leaves the
required arguments, which are the last ones of the command line. -/
theorem options_accounted (supportedArgs : Nat) (argv : List CString) :
    (∀ parsed rem,
      parseOptArgs supportedArgs argv = .ok (some (parsed, rem)) →
      Accounted supportedArgs argv parsed rem) ∧
    ∀ (env : Env) (fuel : Nat) (content : Option (List UInt8))
      (sockets : Int × Int) (required : Nat) (client : Client)
      (rem : List CString), argv.length < 2 ^ 64 → required ≠ sizeMax →
      clientInitArgv env fuel content sockets argv required supportedArgs
        argv.length = .ok (.ok (client, rem)) →
      rem.length = required ∧ rem = argv.drop (argv.length - required) := by
  refine ⟨fun parsed rem h => parseOptArgs_accounted h, ?_⟩
  intro env fuel content sockets required client rem hlen hne h
  obtain ⟨name, rest, args, rfl, hparse, hcount, _⟩ := clientInitArgv_ok h
  have hsuffix := (parseOptArgs_accounted hparse).suffix
  have hrem : rem.length = required := by
    rw [← hcount hne]
    exact (sizeSub_parsed hlen hsuffix.length_le).symm
  refine ⟨hrem, ?_⟩
  rw [← hrem]
  exact List.suffix_iff_eq_drop.mp (hsuffix.trans (List.suffix_cons name rest))

/-- `prog -n 3 -w 2 -- k v`, which leaves `k v`. -/
def demoArgv : List CString :=
  [lit ['p', 'r', 'o', 'g'], optN, lit ['3'], optW, lit ['2'], optEnd,
    lit ['k'], lit ['v']]

theorem options_accounted_demo :
    Accounted (TOTAL_SERVERS ||| PUT_NEEDED) demoArgv.tail ⟨3, 2, 2⟩
      [lit ['k'], lit ['v']] ∧
    ∃ client rem, clientInitArgv demoEnv 20 (some demoFile) (3, 4) demoArgv 2
        (TOTAL_SERVERS ||| PUT_NEEDED) 8 = .ok (.ok (client, rem)) ∧
      rem.length = 2 ∧ rem = demoArgv.drop (demoArgv.length - 2) := by
  refine ⟨(options_accounted _ _).1 _ _ (by decide +kernel), ?_⟩
  obtain ⟨client, h⟩ : ∃ client, clientInitArgv demoEnv 20 (some demoFile)
      (3, 4) demoArgv 2 (TOTAL_SERVERS ||| PUT_NEEDED) 8 =
        .ok (.ok (client, [lit ['k'], lit ['v']])) := ⟨_, rfl⟩
  exact ⟨client, _, h, (options_accounted _ _).2 _ _ _ _ _ _ _ (by decide)
    (by decide) h⟩

/-! ## The quorums -/

/-- The quorums of the supported options are within `N`. -/
def QuorumsWithin (supportedArgs : Nat) (args : Args) : Prop :=
  (supportedArgs &&& GET_NEEDED ≠ 0 → args.R ≤ args.N) ∧
  (supportedArgs &&& PUT_NEEDED ≠ 0 → args.W ≤ args.N)

/-- Both bounds hold of the returned values unless both flags are supported and
the command line asks for a read quorum above `N`: `check_bounds` then checks
the write quorum only. -/
theorem parseOptArgs_quorums_iff (supportedArgs : Nat) (argv : List CString)
    (parsed : Args) (rem : List CString)
    (h : parseOptArgs supportedArgs argv = .ok (some (parsed, rem))) :
    QuorumsWithin supportedArgs parsed ↔
      (supportedArgs &&& GET_NEEDED ≠ 0 ∧ supportedArgs &&& PUT_NEEDED ≠ 0 →
        (defaultArgs.asked argv).R ≤ (defaultArgs.asked argv).N) := by
  obtain ⟨hasked, _, hbounds⟩ :=
    (parseOptArgs_spec supportedArgs argv).2 parsed rem h
  obtain ⟨hput, hget⟩ := (checkBounds_iff parsed supportedArgs).mp hbounds
  rw [← hasked]
  constructor
  · rintro ⟨hR, _⟩ ⟨hGET, _⟩
    exact hR hGET
  · intro hboth
    refine ⟨fun hGET => ?_, hput⟩
    by_cases hPUT : supportedArgs &&& PUT_NEEDED = 0
    · exact hget hPUT hGET
    · exact hboth ⟨hGET, hPUT⟩

/-- `-r 4 -n 5 -w 2 k`, with all flags supported. -/
theorem parseOptArgs_quorums_iff_demo :
    QuorumsWithin (TOTAL_SERVERS ||| GET_NEEDED ||| PUT_NEEDED)
      { N := 5, R := 4, W := 2 } :=
  (parseOptArgs_quorums_iff (TOTAL_SERVERS ||| GET_NEEDED ||| PUT_NEEDED)
    [optR, lit ['4'], optN, lit ['5'], optW, lit ['2'], lit ['k']]
    { N := 5, R := 4, W := 2 } [lit ['k']] (by decide +kernel)).mpr
      (fun _ => by decide)

/-- `-r 5` with both flags supported: `N` stays 3. -/
theorem readQuorum_unchecked :
    ¬ ∀ (supportedArgs : Nat) (argv : List CString) (parsed : Args)
        (rem : List CString),
      parseOptArgs supportedArgs argv = .ok (some (parsed, rem)) →
      QuorumsWithin supportedArgs parsed := by
  intro h
  have hrun : parseOptArgs (GET_NEEDED ||| PUT_NEEDED) [optR, lit ['5']] =
      .ok (some ({ N := 3, R := 5, W := 2 }, [])) := by decide +kernel
  exact absurd ((h _ _ _ _ hrun).1 (by decide)) (by decide)

end PpsDht
