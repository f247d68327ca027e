import PpsDht.Basic
import PpsDht.Lib.CStdlib

/-!
# Command line options

`args.c`.  A command line is the list of its remaining arguments; its end is
the `NULL` that closes `argv`, and `strcmp` faults there.

The three options differ in their text, their flag and the field that they set;
an `OptionKind` names these, and `parseOptBody_option` is the branch of each of
them.  `parseOptArgs_spec` says what the option loop returns: the last value
given to each option, its default when there is none, and only values that pass
`check_bounds`.
-/

namespace PpsDht

open CMem

/-- `args_t`. -/
structure Args where
  N : Nat
  R : Nat
  W : Nat
  deriving DecidableEq

/-- `TOTAL_SERVERS`. -/
def TOTAL_SERVERS : Nat := 1

/-- `GET_NEEDED`. -/
def GET_NEEDED : Nat := 2

/-- `PUT_NEEDED`. -/
def PUT_NEEDED : Nat := 4

/-- `"-n"`. -/
def optN : CString := lit ['-', 'n']

/-- `"-r"`. -/
def optR : CString := lit ['-', 'r']

/-- `"-w"`. -/
def optW : CString := lit ['-', 'w']

/-- `"--"`. -/
def optEnd : CString := lit ['-', '-']

/-- `parse_option`: the value, and the arguments from the value on. -/
def parseOption (supportedArg : Nat) (remArgv : List CString) :
    Except Fault (Except ErrorCode (Nat × List CString)) :=
  if supportedArg ≠ 0 then
    match remArgv.tail with
    | [] => .error .nullDeref
    | arg :: rest =>
      if strcmp arg.bytes optEnd.bytes = 0 then .ok (.error .ERR_BAD_PARAMETER)
      else
        let val := (strtol arg).value
        if val > 0 then .ok (.ok (val.toNat, arg :: rest))
        else .ok (.error .ERR_BAD_PARAMETER)
  else .ok (.error .ERR_NOT_FOUND)

/-- `check_bounds`.  The two masks of the first test have no bit in common. -/
def checkBounds (args : Args) (supportedArgs : Nat) : Bool :=
  if supportedArgs &&& PUT_NEEDED &&& GET_NEEDED ≠ 0 then
    !(args.N < args.R || args.N < args.W)
  else if supportedArgs &&& PUT_NEEDED ≠ 0 then args.N ≥ args.W
  else if supportedArgs &&& GET_NEEDED ≠ 0 then args.N ≥ args.R
  else true

/-- One branch of `parse_opt_args` that reads an option. -/
def optionStep (supportedArg : Nat) (remArgv : List CString)
    (store : Nat → Args) :
    Loop.Step (Args × List CString)
      (Except Fault (Option (Args × List CString))) :=
  match parseOption supportedArg remArgv with
  | .error fault => .done (.error fault)
  | .ok (.error _) => .done (.ok none)
  | .ok (.ok (value, remArgv)) => .again (store value, remArgv.tail)

/-- `if (!check_bounds(*parsed, supported_args)) return NULL; return parsed;` -/
def checked (supportedArgs : Nat) (parsed : Args) (remArgv : List CString) :
    Except Fault (Option (Args × List CString)) :=
  .ok (if checkBounds parsed supportedArgs then some (parsed, remArgv)
    else none)

/-- One pass of the loop of `parse_opt_args`. -/
def parseOptBody (supportedArgs : Nat) (st : Args × List CString) :
    Loop.Step (Args × List CString)
      (Except Fault (Option (Args × List CString))) :=
  let (parsed, remArgv) := st
  match remArgv with
  | [] => .done (checked supportedArgs parsed [])
  | arg :: rest =>
    if strcmp arg.bytes optN.bytes = 0 then
      optionStep (supportedArgs &&& TOTAL_SERVERS) (arg :: rest)
        (fun value => { parsed with N := value })
    else if strcmp arg.bytes optR.bytes = 0 then
      optionStep (supportedArgs &&& GET_NEEDED) (arg :: rest)
        (fun value => { parsed with R := value })
    else if strcmp arg.bytes optW.bytes = 0 then
      optionStep (supportedArgs &&& PUT_NEEDED) (arg :: rest)
        (fun value => { parsed with W := value })
    else if strcmp arg.bytes optEnd.bytes = 0 then
      .done (checked supportedArgs parsed rest)
    else .done (checked supportedArgs parsed (arg :: rest))

/-- The default values of `parse_opt_args`. -/
def defaultArgs : Args := { N := 3, R := 2, W := 2 }

/-- `parse_opt_args`: the options and the arguments behind them, or `none` for
`NULL`.  Every pass consumes an argument, so the fuel suffices. -/
def parseOptArgs (supportedArgs : Nat) (remArgv : List CString) :
    Except Fault (Option (Args × List CString)) :=
  runLoop (parseOptBody supportedArgs) (remArgv.length + 1)
    (defaultArgs, remArgv)

/-! ## One pass of the loop -/

/-- The options. -/
inductive OptionKind where
  | n
  | r
  | w
  deriving DecidableEq

namespace OptionKind

/-- How the option is written. -/
def text : OptionKind → CString
  | n => optN
  | r => optR
  | w => optW

/-- The flag that supports the option. -/
def flag : OptionKind → Nat
  | n => TOTAL_SERVERS
  | r => GET_NEEDED
  | w => PUT_NEEDED

/-- The field that the option sets. -/
def store (kind : OptionKind) (parsed : Args) (value : Nat) : Args :=
  match kind with
  | n => { parsed with N := value }
  | r => { parsed with R := value }
  | w => { parsed with W := value }

end OptionKind

/-- A pass that goes on has read the value behind the option. -/
theorem optionStep_again {supportedArg : Nat} {arg : CString}
    {rest : List CString} {store : Nat → Args} {st : Args × List CString}
    (h : optionStep supportedArg (arg :: rest) store = .again st) :
    ∃ text rem, rest = text :: rem ∧ supportedArg ≠ 0 ∧ text ≠ optEnd ∧
      0 < (strtol text).value ∧
      st = (store (strtol text).value.toNat, rem) := by
  rw [optionStep, parseOption, List.tail_cons] at h
  by_cases hs : supportedArg ≠ 0
  · rw [if_pos hs] at h
    cases rest with
    | nil => cases h
    | cons text rem =>
      simp only [strcmp_eq_zero_iff] at h
      by_cases hend : text = optEnd
      · rw [if_pos hend] at h
        cases h
      rw [if_neg hend] at h
      by_cases hval : (strtol text).value > 0
      · rw [if_pos hval] at h
        cases h
        exact ⟨text, rem, rfl, hs, hend, hval, rfl⟩
      · rw [if_neg hval] at h
        cases h
  · rw [if_neg hs] at h
    cases h

/-- A pass that rejects an option faults behind the last argument, or returns
`NULL`. -/
theorem optionStep_done {supportedArg : Nat} {remArgv : List CString}
    {store : Nat → Args} {r : Except Fault (Option (Args × List CString))}
    (h : optionStep supportedArg remArgv store = .done r) :
    r = .error .nullDeref ∨ r = .ok none := by
  rw [optionStep, parseOption] at h
  by_cases hs : supportedArg ≠ 0
  · rw [if_pos hs] at h
    cases ht : remArgv.tail with
    | nil =>
      rw [ht] at h
      cases h
      exact Or.inl rfl
    | cons text rem =>
      rw [ht] at h
      simp only at h
      split_ifs at h
      · cases h
        exact Or.inr rfl
      · cases h
        exact Or.inr rfl
  · rw [if_neg hs] at h
    cases h
    exact Or.inr rfl

/-- The branch of an option. -/
theorem parseOptBody_option (supportedArgs : Nat) (kind : OptionKind)
    (parsed : Args) (rest : List CString) :
    parseOptBody supportedArgs (parsed, kind.text :: rest) =
      optionStep (supportedArgs &&& kind.flag) (kind.text :: rest)
        (kind.store parsed) := by
  have hNR : optR ≠ optN := by decide
  have hNW : optW ≠ optN := by decide
  have hRW : optW ≠ optR := by decide
  simp only [parseOptBody, strcmp_eq_zero_iff]
  cases kind with
  | n => exact if_pos rfl
  | r => exact (if_neg hNR).trans (if_pos rfl)
  | w => exact (if_neg hNW).trans ((if_neg hRW).trans (if_pos rfl))

/-- An argument that is not an option ends the loop. -/
theorem parseOptBody_stop (supportedArgs : Nat) {arg : CString}
    (harg : ∀ kind : OptionKind, arg ≠ kind.text) (parsed : Args)
    (rest : List CString) :
    parseOptBody supportedArgs (parsed, arg :: rest) =
      .done (checked supportedArgs parsed
        (if arg = optEnd then rest else arg :: rest)) := by
  simp only [parseOptBody, strcmp_eq_zero_iff]
  rw [if_neg (show ¬arg = optN from harg .n),
    if_neg (show ¬arg = optR from harg .r),
    if_neg (show ¬arg = optW from harg .w)]
  by_cases hend : arg = optEnd
  · rw [if_pos hend, if_pos hend]
  · rw [if_neg hend, if_neg hend]

/-- Only values that pass `check_bounds` are returned. -/
theorem checked_eq_some {supportedArgs : Nat} {args parsed : Args}
    {remArgv rem : List CString}
    (h : checked supportedArgs args remArgv = .ok (some (parsed, rem))) :
    parsed = args ∧ rem = remArgv ∧ checkBounds args supportedArgs = true := by
  rw [checked] at h
  by_cases hc : checkBounds args supportedArgs = true
  · rw [if_pos hc] at h
    cases h
    exact ⟨rfl, rfl, hc⟩
  · rw [if_neg hc] at h
    cases h

/-! ## What the options say -/

/-- The value that a command line gives to an option: the last one counts. -/
def optionValue (option : CString) : Nat → List CString → Nat
  | value, arg :: text :: rest =>
    if arg = optN ∨ arg = optR ∨ arg = optW then
      optionValue option
        (if arg = option then (strtol text).value.toNat else value) rest
    else value
  | value, [_] => value
  | value, [] => value

/-- The values that a command line asks for, on top of `args`. -/
def Args.asked (args : Args) (remArgv : List CString) : Args where
  N := optionValue optN args.N remArgv
  R := optionValue optR args.R remArgv
  W := optionValue optW args.W remArgv

/-- All three values are positive. -/
def Args.Positive (args : Args) : Prop := 1 ≤ args.N ∧ 1 ≤ args.R ∧ 1 ≤ args.W

theorem optionValue_cons {arg : CString}
    (harg : arg = optN ∨ arg = optR ∨ arg = optW) (option text : CString)
    (value : Nat) (rest : List CString) :
    optionValue option value (arg :: text :: rest) =
      optionValue option
        (if arg = option then (strtol text).value.toNat else value) rest := by
  rw [optionValue, if_pos harg]

theorem optionValue_stop {arg : CString}
    (harg : ¬(arg = optN ∨ arg = optR ∨ arg = optW)) (option : CString)
    (value : Nat) (rest : List CString) :
    optionValue option value (arg :: rest) = value := by
  cases rest with
  | nil => rfl
  | cons text rest => rw [optionValue, if_neg harg]

theorem asked_stop {arg : CString} (harg : ∀ kind : OptionKind, arg ≠ kind.text)
    (args : Args) (rest : List CString) : args.asked (arg :: rest) = args := by
  have hnone : ¬(arg = optN ∨ arg = optR ∨ arg = optW) := by
    rintro (h | h | h)
    · exact harg .n h
    · exact harg .r h
    · exact harg .w h
  rw [Args.asked, optionValue_stop hnone, optionValue_stop hnone,
    optionValue_stop hnone]

/-- A pair asks for what its field is set to. -/
theorem asked_store (kind : OptionKind) (args : Args) (text : CString)
    (rest : List CString) :
    (kind.store args (strtol text).value.toNat).asked rest =
      args.asked (kind.text :: text :: rest) := by
  have hNR : optN ≠ optR := by decide
  have hNW : optN ≠ optW := by decide
  have hRW : optR ≠ optW := by decide
  rw [Args.asked, Args.asked]
  cases kind with
  | n =>
    simp only [OptionKind.text, optionValue_cons (Or.inl rfl), if_pos,
      if_neg hNR, if_neg hNW]
    rfl
  | r =>
    simp only [OptionKind.text, optionValue_cons (Or.inr (Or.inl rfl)), if_pos,
      if_neg hNR.symm, if_neg hRW]
    rfl
  | w =>
    simp only [OptionKind.text, optionValue_cons (Or.inr (Or.inr rfl)), if_pos,
      if_neg hNW.symm, if_neg hRW.symm]
    rfl

theorem store_positive (kind : OptionKind) {args : Args} {value : Nat}
    (hpos : args.Positive) (h : 1 ≤ value) :
    (kind.store args value).Positive := by
  obtain ⟨hN, hR, hW⟩ := hpos
  cases kind with
  | n => exact ⟨h, hR, hW⟩
  | r => exact ⟨hN, h, hW⟩
  | w => exact ⟨hN, hR, h⟩

/-! ## The whole loop -/

/-- What the loop of `parse_opt_args` may return when `args` is asked for. -/
def ParseResult (supportedArgs : Nat) (args : Args)
    (r : Except Fault (Option (Args × List CString))) : Prop :=
  r ≠ .error .outOfFuel ∧
    ∀ parsed rem, r = .ok (some (parsed, rem)) →
      parsed = args ∧ parsed.Positive ∧ checkBounds parsed supportedArgs = true

theorem checked_result {supportedArgs : Nat} {args : Args}
    (hpos : args.Positive) (rem : List CString) :
    ParseResult supportedArgs args (checked supportedArgs args rem) := by
  refine ⟨nofun, ?_⟩
  intro parsed rem' h
  obtain ⟨rfl, _, hbounds⟩ := checked_eq_some h
  exact ⟨rfl, hpos, hbounds⟩

/-- One pass of the option loop. -/
theorem parseOptBody_spec (supportedArgs : Nat) {args : Args}
    (remArgv : List CString) (hpos : args.Positive) :
    (∃ s, parseOptBody supportedArgs (args, remArgv) = .again s ∧
      (s.1.Positive ∧ s.1.asked s.2 = args.asked remArgv) ∧
      s.2.length < remArgv.length) ∨
    ∃ r, parseOptBody supportedArgs (args, remArgv) = .done r ∧
      ParseResult supportedArgs (args.asked remArgv) r := by
  cases remArgv with
  | nil => exact Or.inr ⟨_, rfl, checked_result hpos []⟩
  | cons arg rest =>
    by_cases hkind : ∃ kind : OptionKind, arg = kind.text
    · obtain ⟨kind, rfl⟩ := hkind
      rw [parseOptBody_option]
      cases hstep : optionStep (supportedArgs &&& kind.flag)
          (kind.text :: rest) (kind.store args) with
      | again s =>
        obtain ⟨text, rem, rfl, _, _, hval, rfl⟩ := optionStep_again hstep
        refine Or.inl ⟨_, rfl, ⟨store_positive kind hpos (by omega),
          asked_store kind args text rem⟩, ?_⟩
        simp only [List.length_cons]
        omega
      | done r =>
        refine Or.inr ⟨r, rfl, fun hfuel => ?_, fun parsed rem hok => ?_⟩
        · rcases optionStep_done hstep with h | h
          · cases h.symm.trans hfuel
          · cases h.symm.trans hfuel
        · rcases optionStep_done hstep with h | h
          · cases h.symm.trans hok
          · cases h.symm.trans hok
    · rw [not_exists] at hkind
      rw [parseOptBody_stop supportedArgs hkind, asked_stop hkind]
      exact Or.inr ⟨_, rfl, checked_result hpos _⟩

/-- The option loop ends, and what it accepts is what was asked for. -/
theorem parseOptArgs_spec (supportedArgs : Nat) (remArgv : List CString) :
    ParseResult supportedArgs (defaultArgs.asked remArgv)
      (parseOptArgs supportedArgs remArgv) := by
  have hstep : ∀ s : Args × List CString,
      s.1.Positive ∧ s.1.asked s.2 = defaultArgs.asked remArgv →
      (∃ s', parseOptBody supportedArgs s = .again s' ∧
        (s'.1.Positive ∧ s'.1.asked s'.2 = defaultArgs.asked remArgv) ∧
        s'.2.length < s.2.length) ∨
      ∃ r, parseOptBody supportedArgs s = .done r ∧
        ParseResult supportedArgs (defaultArgs.asked remArgv) r := by
    rintro ⟨args, rem⟩ ⟨hpos, hasked⟩
    have h := parseOptBody_spec supportedArgs rem hpos
    rwa [hasked] at h
  have hdefault : defaultArgs.Positive := ⟨by decide, by decide, by decide⟩
  obtain ⟨r, hrun, hres⟩ := Loop.run_total
    (fun s : Args × List CString => s.2.length) hstep
    (s := (defaultArgs, remArgv)) ⟨hdefault, rfl⟩
    (Nat.lt_succ_self remArgv.length)
  rw [parseOptArgs, runLoop_of_run hrun]
  exact hres

end PpsDht
