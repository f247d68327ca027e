import PpsDht.ArgsGrammar

/-!
# The arguments that the option loop touches

`parse_opt_args` stops at the `NULL` behind the last argument.  `parse_option`
moves `*rem_argv` to the value of its option and compares that with `--`; its
own test is `*rem_argv == NULL`, where the loop tests `**rem_argv`, so it does
not see the end.

`parseOptAccess` lists, for one pass of the loop, the arguments whose text is
read and the positions that `*rem_argv` takes.  `argsSafe_iff`: both functions
stay inside `argv` unless a supported option is the last argument.
-/

namespace PpsDht

open CMem

/-- What a part of the parser touches: the indices of the arguments whose text
is read, and the values of `*rem_argv`. -/
structure ArgAccess where
  strings : List Nat
  positions : List Nat

/-- `parse_option`, with `*rem_argv` at index `i`. -/
def parseOptionAccess (supportedArg i : Nat) : ArgAccess :=
  if supportedArg ≠ 0 then { strings := [i + 1], positions := [i + 1] }
  else { strings := [], positions := [] }

/-- A branch of `parse_opt_args` that reads an option at index `i`. -/
def optionAccess (supportedArg : Nat) (remArgv : List CString) (i : Nat) :
    ArgAccess :=
  let access := parseOptionAccess supportedArg i
  { strings := i :: access.strings
    positions := i :: access.positions ++
      match parseOption supportedArg remArgv with
      | .ok (.ok _) => [i + 2]
      | _ => [] }

/-- One pass of the loop of `parse_opt_args`, for `argc` arguments. -/
def parseOptAccess (supportedArgs argc : Nat) (st : Args × List CString) :
    ArgAccess :=
  let i := argc - st.2.length
  match st.2 with
  | [] => { strings := [], positions := [i] }
  | arg :: rest =>
    if strcmp arg.bytes optN.bytes = 0 then
      optionAccess (supportedArgs &&& TOTAL_SERVERS) (arg :: rest) i
    else if strcmp arg.bytes optR.bytes = 0 then
      optionAccess (supportedArgs &&& GET_NEEDED) (arg :: rest) i
    else if strcmp arg.bytes optW.bytes = 0 then
      optionAccess (supportedArgs &&& PUT_NEEDED) (arg :: rest) i
    else if strcmp arg.bytes optEnd.bytes = 0 then
      { strings := [i], positions := [i, i + 1] }
    else { strings := [i], positions := [i] }

/-- The states in which the passes of `parse_opt_args` start. -/
def parseOptStates (supportedArgs : Nat) (argv : List CString) :
    List (Args × List CString) :=
  Loop.visited (parseOptBody supportedArgs) (argv.length + 1)
    (defaultArgs, argv)

/-- The parser reads arguments only and does not go behind the `NULL`, and an
option without a value makes it return `NULL`. -/
structure ArgsSafe (supportedArgs : Nat) (argv : List CString) : Prop where
  strings : ∀ st ∈ parseOptStates supportedArgs argv,
    ∀ i ∈ (parseOptAccess supportedArgs argv.length st).strings,
      i < argv.length
  positions : ∀ st ∈ parseOptStates supportedArgs argv,
    ∀ i ∈ (parseOptAccess supportedArgs argv.length st).positions,
      i ≤ argv.length
  noValue : ∀ (pairs : List (OptPair supportedArgs)) (kind : OptionKind),
    argv = pairs.flatMap OptPair.tokens ++ [kind.text] →
    parseOptArgs supportedArgs argv = .ok none

/-! ## One pass -/

/-- The accesses of the branch of an option. -/
theorem parseOptAccess_option (supportedArgs argc : Nat) (kind : OptionKind)
    (parsed : Args) (rest : List CString) :
    parseOptAccess supportedArgs argc (parsed, kind.text :: rest) =
      optionAccess (supportedArgs &&& kind.flag) (kind.text :: rest)
        (argc - (kind.text :: rest).length) := by
  have hNR : optR ≠ optN := by decide
  have hNW : optW ≠ optN := by decide
  have hRW : optW ≠ optR := by decide
  simp only [parseOptAccess, strcmp_eq_zero_iff]
  cases kind with
  | n => exact if_pos rfl
  | r => exact (if_neg hNR).trans (if_pos rfl)
  | w => exact (if_neg hNW).trans ((if_neg hRW).trans (if_pos rfl))

/-- Any other argument is read, and passed when it is `--`. -/
theorem parseOptAccess_stop (supportedArgs argc : Nat) {arg : CString}
    (harg : ∀ kind : OptionKind, arg ≠ kind.text) (parsed : Args)
    (rest : List CString) :
    parseOptAccess supportedArgs argc (parsed, arg :: rest) =
      if arg = optEnd then
        { strings := [argc - (arg :: rest).length]
          positions := [argc - (arg :: rest).length,
            argc - (arg :: rest).length + 1] }
      else
        { strings := [argc - (arg :: rest).length]
          positions := [argc - (arg :: rest).length] } := by
  simp only [parseOptAccess, strcmp_eq_zero_iff]
  rw [if_neg (show ¬arg = optN from harg .n),
    if_neg (show ¬arg = optR from harg .r),
    if_neg (show ¬arg = optW from harg .w)]

/-- An option that has a value, or is not supported, is read inside `argv`. -/
theorem optionAccess_inside {supportedArg argc : Nat} {arg : CString}
    {rest : List CString} (hargc : rest.length < argc)
    (h : supportedArg = 0 ∨ rest ≠ []) :
    (∀ i ∈ (optionAccess supportedArg (arg :: rest)
        (argc - (arg :: rest).length)).strings, i < argc) ∧
      ∀ i ∈ (optionAccess supportedArg (arg :: rest)
        (argc - (arg :: rest).length)).positions, i ≤ argc := by
  have hi : argc - (arg :: rest).length + rest.length + 1 = argc := by
    rw [List.length_cons]
    omega
  rw [optionAccess, parseOptionAccess, parseOption]
  by_cases hs : supportedArg ≠ 0
  · -- The text at `i + 1` is there, so `i + 2` is the `NULL` at most.
    have hrest : 0 < rest.length :=
      List.length_pos_of_ne_nil (h.resolve_left hs)
    simp only [if_pos hs]
    refine ⟨?_, ?_⟩
    · intro i hmem
      simp only [List.mem_cons, List.not_mem_nil, or_false] at hmem
      omega
    · intro i hmem
      have hle : i ≤ argc - (arg :: rest).length + 2 := by
        rcases List.mem_append.mp hmem with hmem | hmem
        · simp only [List.mem_cons, List.not_mem_nil, or_false] at hmem
          omega
        · split at hmem
          · rw [List.mem_singleton.mp hmem]
          · exact absurd hmem List.not_mem_nil
      omega
  · simp only [if_neg hs, List.append_nil, List.mem_singleton]
    refine ⟨?_, ?_⟩
    · rintro i rfl
      omega
    · rintro i rfl
      omega

/-- A pass stays inside `argv` unless its option is supported and has no value
behind it. -/
theorem parseOptAccess_inside {supportedArgs argc : Nat} {parsed : Args}
    {remArgv : List CString} (hargc : remArgv.length ≤ argc)
    (h : ∀ kind : OptionKind, supportedArgs &&& kind.flag ≠ 0 →
      remArgv ≠ [kind.text]) :
    (∀ i ∈ (parseOptAccess supportedArgs argc (parsed, remArgv)).strings,
      i < argc) ∧
    ∀ i ∈ (parseOptAccess supportedArgs argc (parsed, remArgv)).positions,
      i ≤ argc := by
  cases remArgv with
  | nil =>
    simp only [parseOptAccess, List.length_nil, Nat.sub_zero,
      List.mem_singleton]
    refine ⟨?_, ?_⟩
    · intro i hi
      exact absurd hi List.not_mem_nil
    · rintro i rfl
      exact Nat.le_refl i
  | cons arg rest =>
    rw [List.length_cons] at hargc
    by_cases hkind : ∃ kind : OptionKind, arg = kind.text
    · obtain ⟨kind, rfl⟩ := hkind
      rw [parseOptAccess_option]
      refine optionAccess_inside hargc ?_
      by_cases hs : supportedArgs &&& kind.flag = 0
      · exact Or.inl hs
      · refine Or.inr (fun hnil => h kind hs ?_)
        rw [hnil]
    · rw [not_exists] at hkind
      rw [parseOptAccess_stop supportedArgs argc hkind]
      have hi : argc - (arg :: rest).length < argc := by
        rw [List.length_cons]
        omega
      split
      · refine ⟨?_, ?_⟩
        · intro i hmem
          rw [List.mem_singleton.mp hmem]
          exact hi
        · intro i hmem
          simp only [List.mem_cons, List.not_mem_nil, or_false] at hmem
          omega
      · refine ⟨?_, ?_⟩
        · intro i hmem
          rw [List.mem_singleton.mp hmem]
          exact hi
        · intro i hmem
          rw [List.mem_singleton.mp hmem]
          exact hi.le

/-! ## The whole loop -/

theorem Consumed.next {supportedArgs : Nat} {argv : List CString}
    (st st' : Args × List CString) (h : Consumed supportedArgs argv st)
    (hst : parseOptBody supportedArgs st = .again st') :
    Consumed supportedArgs argv st' := by
  rcases Consumed.step st h with ⟨st'', hnext, hconsumed⟩ | ⟨r, hdone, _⟩
  · cases hst.symm.trans hnext
    exact hconsumed
  · cases hst.symm.trans hdone

/-- Every pass starts behind the pairs that were consumed. -/
theorem consumed_of_mem_parseOptStates {supportedArgs : Nat}
    {argv : List CString} {st : Args × List CString}
    (h : st ∈ parseOptStates supportedArgs argv) :
    Consumed supportedArgs argv st :=
  Loop.visited_inv (Consumed supportedArgs argv) Consumed.next
    ⟨[], rfl, rfl⟩ st h

/-- A pair is consumed by one pass. -/
theorem parseOptBody_pair {supportedArgs : Nat} (pair : OptPair supportedArgs)
    (parsed : Args) (rest : List CString) :
    parseOptBody supportedArgs (parsed, pair.tokens ++ rest) =
      .again (pair.kind.store parsed pair.number, rest) := by
  have hend : strcmp pair.value.bytes optEnd.bytes ≠ 0 := by
    rw [ne_eq, strcmp_eq_zero_iff]
    exact pair.not_end
  rw [OptPair.tokens, List.cons_append, List.singleton_append,
    parseOptBody_option, optionStep, parseOption, if_pos pair.supported]
  simp only [List.tail_cons]
  rw [if_neg hend, if_pos pair.pos]
  rfl

/-- The pairs are consumed one after the other. -/
theorem leads_pairs {supportedArgs : Nat} (rest : List CString) :
    ∀ (pairs : List (OptPair supportedArgs)) (parsed : Args), ∃ parsed',
      Loop.Leads (parseOptBody supportedArgs) pairs.length
        (parsed, pairs.flatMap OptPair.tokens ++ rest) (parsed', rest) := by
  intro pairs
  induction pairs with
  | nil =>
    intro parsed
    exact ⟨parsed, rfl⟩
  | cons pair pairs ih =>
    intro parsed
    obtain ⟨parsed', hleads⟩ := ih (pair.kind.store parsed pair.number)
    refine ⟨parsed', _, ?_, hleads⟩
    rw [List.flatMap_cons, List.append_assoc]
    exact parseOptBody_pair pair parsed _

theorem length_flatMap_tokens {supportedArgs : Nat}
    (pairs : List (OptPair supportedArgs)) :
    (pairs.flatMap OptPair.tokens).length = 2 * pairs.length := by
  induction pairs with
  | nil => rfl
  | cons pair pairs ih =>
    rw [List.flatMap_cons, List.length_append, ih, List.length_cons,
      OptPair.tokens]
    simp only [List.length_cons, List.length_nil]
    omega

/-- What `parse_opt_args` returns for an option without a value. -/
theorem parseOptArgs_noValue {supportedArgs : Nat}
    (pairs : List (OptPair supportedArgs)) (kind : OptionKind) :
    parseOptArgs supportedArgs
        (pairs.flatMap OptPair.tokens ++ [kind.text]) =
      if supportedArgs &&& kind.flag ≠ 0 then .error .nullDeref
      else .ok none := by
  obtain ⟨parsed, hleads⟩ := leads_pairs [kind.text] pairs defaultArgs
  have hfuel : (pairs.flatMap OptPair.tokens ++ [kind.text]).length + 1 =
      (pairs.length + 1) + 1 + pairs.length := by
    rw [List.length_append, length_flatMap_tokens, List.length_singleton]
    omega
  have hlast : parseOptBody supportedArgs (parsed, [kind.text]) =
      .done (if supportedArgs &&& kind.flag ≠ 0 then .error .nullDeref
        else .ok none) := by
    rw [parseOptBody_option, optionStep, parseOption]
    by_cases hs : supportedArgs &&& kind.flag ≠ 0
    · rw [if_pos hs, if_pos hs]
      rfl
    · rw [if_neg hs, if_neg hs]
  rw [parseOptArgs]
  refine runLoop_of_run ?_
  rw [hfuel, hleads.run]
  exact Loop.run_succ_done _ hlast

/-- The parser stays inside `argv` unless a supported option is the last
argument: `strcmp` is then called on the `NULL` behind it. -/
theorem argsSafe_iff (supportedArgs : Nat) (argv : List CString) :
    ArgsSafe supportedArgs argv ↔
      ¬ ∃ (pairs : List (OptPair supportedArgs)) (kind : OptionKind),
        supportedArgs &&& kind.flag ≠ 0 ∧
          argv = pairs.flatMap OptPair.tokens ++ [kind.text] := by
  constructor
  · rintro h ⟨pairs, kind, hs, hargv⟩
    have hnull := h.noValue pairs kind hargv
    rw [hargv, parseOptArgs_noValue, if_pos hs] at hnull
    cases hnull
  · intro h
    have hinside : ∀ st ∈ parseOptStates supportedArgs argv,
        (∀ i ∈ (parseOptAccess supportedArgs argv.length st).strings,
          i < argv.length) ∧
        ∀ i ∈ (parseOptAccess supportedArgs argv.length st).positions,
          i ≤ argv.length := by
      rintro ⟨parsed, remArgv⟩ hst
      obtain ⟨pairs, _, hargv⟩ := consumed_of_mem_parseOptStates hst
      have hlen : argv.length =
          (pairs.flatMap OptPair.tokens).length + remArgv.length :=
        (congrArg List.length hargv).trans List.length_append
      refine parseOptAccess_inside (by omega) ?_
      intro kind hs hlast
      refine h ⟨pairs, kind, hs, ?_⟩
      rw [← hlast]
      exact hargv
    refine { strings := fun st hst => (hinside st hst).1,
             positions := fun st hst => (hinside st hst).2, noValue := ?_ }
    intro pairs kind hargv
    have hs : ¬ supportedArgs &&& kind.flag ≠ 0 :=
      fun hs => h ⟨pairs, kind, hs, hargv⟩
    rw [hargv, parseOptArgs_noValue, if_neg hs]

/-- `pps-client-get -n` -/
theorem argsSafe_lastOption :
    ¬ ∀ (supportedArgs : Nat) (argv : List CString),
      ArgsSafe supportedArgs argv := by
  intro h
  have hsafe := h TOTAL_SERVERS [optN]
  have hnull := hsafe.noValue [] .n rfl
  have hrun : parseOptArgs TOTAL_SERVERS [optN] = .error .nullDeref := by
    decide +kernel
  cases hrun.symm.trans hnull

end PpsDht
