import PpsDht.ArgsGrammar
import PpsDht.Cat
import PpsDht.Substr
import PpsDht.Traffic
import PpsDht.Lib.Script

/-!
# The client programs

`main` of `pps-client-get`, `pps-client-put`, `pps-client-find`,
`pps-client-cat`, `pps-client-substr`, `pps-list-nodes` and `pps-dump-node`,
each from its command line to its exit as a script.  The first five call
`network_get` and `network_put`, and the last two make one call of their own.

* `catTool_run` and `substrTool_run`: on given answers, the scripts of the last
  two do what `catMain` and `substrMain` do.
* `place_first` and `substring_some`: what `pps-client-find` and
  `pps-client-substr` compute.
* `Program.within`: a program gets and puts no keys but its arguments.
-/

namespace PpsDht

open CMem

/-! ## Scripts of calls -/

/-- What a program prints at last. -/
inductive Report where
  | fail
  | ok
  | value (value : CString)
  | place (place : Int)
  | nodes (reports : List NodeReport)
  | listing (pairs : List (Option KvPair))
  deriving DecidableEq

/-- The end of a run: what is printed, the values that are given to
`free_const_ptr`, and what `main` returns.  A pointer that was never set is
`none`. -/
structure Exit where
  report : Report
  freed : List (Option CString)
  status : Int
  deriving DecidableEq

/-- Why a program does not come to its end; in `pps-client-cat` it is a `strcat`
behind a `realloc` of no bytes. -/
inductive Crash where
  | network (fault : Fault)
  | cat
  | substr (fault : SubstrFault)
  | dump (fault : Fault)
  deriving DecidableEq

/-- A client program. -/
abbrev Tool := Script Job Outcome (Except Crash Exit)

/-- `printf("FAIL\n"); return -1;`. -/
def Tool.fail (freed : List (Option CString)) : Tool :=
  .done (.ok { report := .fail, freed := freed, status := -1 })

/-- The result of `network_get`, without a value unless it is `ERR_NONE`. -/
def Outcome.read : Outcome → Except Fault (Option CString)
  | .get (.error fault) => .error fault
  | .get (.ok (.ERR_NONE, value)) => .ok value
  | _ => .ok none

/-- The result of `network_put`. -/
def Outcome.written : Outcome → Except Fault Bool
  | .put (.error fault) => .error fault
  | .put (.ok err) => .ok (decide (err = .ERR_NONE))
  | _ => .ok false

/-- The lines of `pps-list-nodes`. -/
def Outcome.reports : Outcome → List NodeReport
  | .nodes reports => reports
  | _ => []

/-- The list of `pps-dump-node`. -/
def Outcome.listing : Outcome → Listing
  | .dump listing => listing
  | _ => .ok none

/-- `network_get(client, key, &value)`. -/
def Tool.get (client : Client) (key : CString) (f : Option CString → Tool) :
    Tool :=
  .call ⟨client, .get key⟩ (fun r =>
    match r.read with
    | .error fault => .done (.error (.network fault))
    | .ok value => f value)

/-- `network_put(client, key, value)`. -/
def Tool.put (client : Client) (key value : CString) (f : Bool → Tool) : Tool :=
  .call ⟨client, .put key value⟩ (fun r =>
    match r.written with
    | .error fault => .done (.error (.network fault))
    | .ok done => f done)

/-- What a program finds when it starts: its command line, the servers file, the
results of `get_socket`, and the bytes of its stack behind `space` in
`node_init`. -/
structure Start where
  fuel : Nat
  content : Option (List UInt8)
  pastSpace : List UInt8
  sockets : Int × Int
  argv : List CString

/-- What the node code of the program takes from outside. -/
def Start.env (start : Start) (SHA1 : List UInt8 → List UInt8) : Env :=
  { SHA1 := SHA1, pastSpace := start.pastSpace }

/-- What the variables of a program hold before they are set: the array of
`pps-client-substr`, and the address, the buffer and, call by call, the arrays
of `parse_kv_pairs` of `pps-dump-node`. -/
structure Locals where
  array : List UInt8
  node : SockAddr
  inMsg : List UInt8
  stack : List (List UInt8 × List UInt8)

/-- `strstr`: the index at which the first occurrence starts. -/
def strstr (haystack needle : CString) : Option Nat :=
  (List.range (strlen haystack + 1)).find?
    (fun i => needle.bytes.isPrefixOf (haystack.bytes.drop i))

/-- What `pps-client-find` prints behind `OK`. -/
def place (value pattern : CString) : Int :=
  match strstr value pattern with
  | none => -1
  | some i => int32 i

/-- The rest of `main` of `pps-client-find`.  It makes both calls, whatever the
first one returns, and it returns 0 when one of them fails. -/
def findTool (client : Client) : List CString → Tool
  | keyValue :: keyPattern :: _ =>
    .get client keyValue fun value =>
    .get client keyPattern fun pattern =>
      match value, pattern with
      | some value, some pattern =>
        .done (.ok { report := .place (place value pattern),
                     freed := [some value, some pattern], status := 0 })
      | _, _ =>
        -- `network_get` sets no value when it fails
        .done (.ok { report := .fail, freed := [value, pattern], status := 0 })
  | _ => .fail []

/-- The loop of `pps-client-cat` over the keys behind the first one, and the
put.  Only the first value is freed. -/
def catRest (client : Client) (outputKey first : CString) :
    List CString → CString → Tool
  | [], concat =>
    .put client outputKey concat fun
      | true => .done (.ok { report := .ok, freed := [some first], status := 0 })
      | false => .fail [some first]
  | key :: keys, concat =>
    .get client key fun
      | none => .fail [some first]
      | some value =>
        if strlen concat + strlen value = 0 then .done (.error .cat)
        else catRest client outputKey first keys (strcat concat value)

/-- The rest of `main` of `pps-client-cat`. -/
def catTool (client : Client) : List CString → Tool
  | first :: second :: rest =>
    .get client first fun
      | none => .fail []
      | some value =>
        catRest client
          ((second :: rest).getLast (List.cons_ne_nil second rest)) value
          (second :: rest).dropLast value
  | _ => .fail []

/-- The rest of `main` of `pps-client-substr`, with what is in its array before
the copy. -/
def substrTool (stack : List UInt8) (client : Client) : List CString → Tool
  | [keyFrom, positionText, lengthText, keyTo] =>
    match stringToInt positionText 0, stringToInt lengthText 0 with
    | (.ERR_NONE, position), (.ERR_NONE, length) =>
      .get client keyFrom fun
        | none => .fail []
        | some valueFrom =>
          match substring stack valueFrom position length with
          | .error fault => .done (.error (.substr fault))
          | .ok none => .fail []
          | .ok (some value) =>
            .put client keyTo value fun
              | true => .done (.ok { report := .ok, freed := [some valueFrom],
                                     status := 0 })
              | false => .fail []
    | _, _ => .fail []
  | _ => .fail []

/-- The server of `pps-dump-node`.  Nobody looks at what `node_init` returns,
and it sets no address when it fails. -/
def dumpServer (env : Env) (node : SockAddr) (ip port : CString) : SockAddr :=
  match nodeInit env ip (UInt16.ofInt (strtol port).value) 0 with
  | .ok node => node.addr
  | .error _ => node

/-- The rest of `main` of `pps-dump-node`. -/
def dumpTool (env : Env) (locals : Locals) (client : Client) :
    List CString → Tool
  | ip :: port :: _ =>
    .call ⟨client, .dump (dumpServer env locals.node ip port) locals.inMsg
        locals.stack⟩ (fun r =>
      match r.listing with
      | .error fault => .done (.error (.dump fault))
      | .ok none => Tool.fail []
      | .ok (some pairs) =>
        .done (.ok { report := .listing pairs, freed := [], status := 0 }))
  | _ => .fail []

section Answers

/-- The answers of `network_get` and of `network_put`. -/
def answers (get : Nat → CString → Except ErrorCode CString)
    (put : CString → CString → ErrorCode) (n : Nat) (job : Job) : Outcome :=
  match job.op with
  | .get key =>
    match get n key with
    | .ok value => .get (.ok (.ERR_NONE, some value))
    | .error err => .get (.ok (err, none))
  | .put key value => .put (.ok (put key value))
  | .listNodes => .nodes []
  | .dump .. => .dump (.ok none)

/-- The pair of a put. -/
def Job.pair? (job : Job) : Option (CString × CString) :=
  match job.op with
  | .put key value => some (key, value)
  | _ => none

/-- What a tool puts, and what `main` returns. -/
def Tool.run (get : Nat → CString → Except ErrorCode CString)
    (put : CString → CString → ErrorCode) (n : Nat) (tool : Tool) :
    Except Crash (List (CString × CString) × Int) :=
  (tool.eval (answers get put) n).map (fun exit =>
    ((tool.asked (answers get put) n).filterMap Job.pair?, exit.status))

variable {get : Nat → CString → Except ErrorCode CString}
  {put : CString → CString → ErrorCode}

@[simp] theorem Tool.run_done (n : Nat) (exit : Exit) :
    Tool.run get put n (.done (.ok exit)) = .ok ([], exit.status) := rfl

@[simp] theorem Tool.run_crash (n : Nat) (crash : Crash) :
    Tool.run get put n (.done (.error crash)) = .error crash := rfl

theorem Outcome.read_error (err : ErrorCode) :
    (Outcome.get (.ok (err, none))).read = .ok none := by
  cases err <;> rfl

theorem Tool.run_get (client : Client) (key : CString)
    (f : Option CString → Tool) (n : Nat) :
    (Tool.get client key f).run get put n =
      (f (get n key).toOption).run get put (n + 1) := by
  unfold Tool.run Tool.get
  simp only [Script.eval, Script.asked, answers]
  cases get n key with
  | ok value =>
    simp only [Outcome.read]
    rfl
  | error err =>
    simp only [Outcome.read_error]
    rfl

theorem Tool.run_put (client : Client) (key value : CString)
    (f : Bool → Tool) (n : Nat) :
    (Tool.put client key value f).run get put n =
      ((f (decide (put key value = .ERR_NONE))).run get put (n + 1)).map
        (fun r => ((key, value) :: r.1, r.2)) := by
  unfold Tool.run Tool.put
  simp only [Script.eval, Script.asked, answers, Outcome.written]
  cases (f (decide (put key value = .ERR_NONE))).eval (answers get put)
      (n + 1) with
  | ok exit => rfl
  | error crash => rfl

/-- What a tool does when its last call is a put. -/
theorem Tool.run_putLast (client : Client) (key value : CString)
    (freed freed' : List (Option CString)) (n : Nat) :
    (Tool.put client key value fun
      | true => .done (.ok { report := .ok, freed := freed, status := 0 })
      | false => .fail freed').run get put n =
      .ok ([(key, value)], if put key value ≠ .ERR_NONE then -1 else 0) := by
  rw [Tool.run_put]
  by_cases hput : put key value = .ERR_NONE
  · simp only [hput, decide_true, ne_eq, not_true_eq_false, if_false]
    rfl
  · simp only [hput, decide_false, ne_eq, not_false_eq_true, if_true]
    rfl

/-- The loop of `pps-client-cat` and the put. -/
theorem catRest_run (client : Client) (outputKey first : CString) :
    ∀ (keys : List CString) (n : Nat) (st : CatState),
      (catRest client outputKey first keys st.concat).run get put n =
        match (catLoop get st (keys.zipIdx n)).1 with
        | .crashed => .error .cat
        | .failed => .ok ([], -1)
        | .joined concat => .ok ([(outputKey, concat)],
            if put outputKey concat ≠ .ERR_NONE then -1 else 0) := by
  intro keys
  induction keys with
  | nil =>
    intro n st
    exact Tool.run_putLast ..
  | cons key keys ih =>
    intro n st
    rw [catRest, Tool.run_get, List.zipIdx_cons]
    cases hget : get n key with
    | error err =>
      have hbody := catBody_error (show get (key, n).2 (key, n).1 = _ from hget)
      rw [catLoop, Loop.feed_done (hbody st)]
      rfl
    | ok value =>
      have hbody := catBody_ok
        (show get (key, n).2 (key, n).1 = _ from hget) st
      simp only [Except.toOption]
      split_ifs at hbody ⊢ with hempty
      · rw [catLoop, Loop.feed_done hbody]
        rfl
      · rw [catLoop, Loop.feed_again hbody, ← catLoop]
        exact ih (n + 1)
          { concat := strcat st.concat value
            stores := st.stores ++ bytesAt (strlen st.concat)
              (strlen st.concat + strlen value) value }

/-- `pps-client-cat` on given answers. -/
theorem catTool_run (client : Client) (argv : List CString) :
    (catTool client argv).run get put 0 =
      match (catMain get put argv).status with
      | none => .error .cat
      | some status => .ok ((catMain get put argv).puts, status) := by
  match argv with
  | [] => rfl
  | [first] => rfl
  | first :: second :: rest =>
    rw [catTool, Tool.run_get, catMain]
    cases get 0 first with
    | error err => rfl
    | ok value =>
      simp only [Except.toOption]
      rw [catRest_run client _ value _ 1
        { concat := value, stores := bytesAt 0 (strlen value + 1) value }]
      cases catLoop get
          { concat := value, stores := bytesAt 0 (strlen value + 1) value }
          ((second :: rest).dropLast.zipIdx 1) with
      | mk joined stores => cases joined <;> rfl

/-- `pps-client-substr` on given answers. -/
theorem substrTool_run {get : CString → Except ErrorCode CString}
    (stack : List UInt8) (client : Client) (argv : List CString) :
    (substrTool stack client argv).run (fun _ => get) put 0 =
      match substrMain get put stack argv with
      | .error fault => .error (.substr fault)
      | .ok run => .ok (run.puts, run.status) := by
  match argv with
  | [] | [_] | [_, _] | [_, _, _] | _ :: _ :: _ :: _ :: _ :: _ => rfl
  | [keyFrom, positionText, lengthText, keyTo] =>
    cases hposition : stringToInt positionText 0 with
    | mk err position =>
    cases hlength : stringToInt lengthText 0 with
    | mk err' length =>
    unfold substrTool substrMain
    simp only [hposition, hlength]
    -- Without the two numbers the program fails at once.
    cases err with
    | ERR_NONE =>
      cases err' with
      | ERR_NONE =>
        simp only
        rw [Tool.run_get]
        cases get keyFrom with
        | error err => rfl
        | ok valueFrom =>
          simp only [Except.toOption]
          cases substring stack valueFrom position length with
          | error fault => rfl
          | ok result =>
            cases result with
            | none => rfl
            | some value => exact Tool.run_putLast ..
      | _ => rfl
    | _ => rfl

end Answers

/-! ## What is computed -/

/-- The needle occurs at index `i`. -/
def Occurs (haystack needle : CString) (i : Nat) : Prop :=
  needle.bytes <+: haystack.bytes.drop i

/-- `strstr` finds the first occurrence. -/
theorem strstr_eq_some_iff {haystack needle : CString} {i : Nat} :
    strstr haystack needle = some i ↔
      i ≤ strlen haystack ∧ Occurs haystack needle i ∧
        ∀ j < i, ¬ Occurs haystack needle j := by
  unfold strstr Occurs
  rw [List.find?_range_eq_some]
  simp only [List.isPrefixOf_iff_prefix, List.mem_range, Bool.not_eq_true',
    ← Bool.not_eq_true]
  constructor
  · intro ⟨hi, hle, hfirst⟩
    exact ⟨by omega, hi, hfirst⟩
  · intro ⟨hle, hi, hfirst⟩
    exact ⟨hi, by omega, hfirst⟩

/-- Behind the end only the empty needle occurs, and it occurs at the start. -/
theorem strstr_eq_none_iff {haystack needle : CString} :
    strstr haystack needle = none ↔ ∀ i, ¬ Occurs haystack needle i := by
  unfold strstr Occurs
  rw [List.find?_range_eq_none]
  simp only [List.isPrefixOf_iff_prefix, Bool.not_eq_true', ← Bool.not_eq_true]
  constructor
  · intro hnone i hi
    by_cases hle : i ≤ strlen haystack
    · exact hnone i (by omega) hi
    · have hnil : needle.bytes = [] := by
        rw [List.drop_of_length_le (by unfold strlen at hle; omega)] at hi
        exact List.prefix_nil.mp hi
      apply hnone 0 (by omega)
      rw [hnil]
      exact List.nil_prefix
  · intro hnone i _
    exact hnone i

/-- The index of the first occurrence, or -1 when there is none. -/
def FirstPlace (value pattern : CString) (place : Int) : Prop :=
  (place = -1 ∧ ∀ i, ¬ Occurs value pattern i) ∨
    ∃ i : Nat, place = i ∧ Occurs value pattern i ∧
      ∀ j < i, ¬ Occurs value pattern j

/-- The number that `pps-client-find` prints. -/
theorem place_first {value : CString} (hlen : strlen value ≤ maxMsgElemSize)
    (pattern : CString) : FirstPlace value pattern (place value pattern) := by
  unfold place
  cases hfound : strstr value pattern with
  | none => exact Or.inl ⟨rfl, strstr_eq_none_iff.mp hfound⟩
  | some i =>
    have hfirst := strstr_eq_some_iff.mp hfound
    have hi := hfirst.1
    unfold maxMsgElemSize at hlen
    refine Or.inr ⟨i, ?_, hfirst.2⟩
    show int32 i = i
    unfold int32
    rw [if_pos (by omega), Nat.mod_eq_of_lt (by omega)]

section Traces

theorem Outcome.read_eq_some {r : Outcome} {value : CString} :
    r.read = .ok (some value) ↔ r = .get (.ok (.ERR_NONE, some value)) := by
  constructor
  · intro h
    unfold Outcome.read at h
    split at h
    · cases h
    · cases h
      rfl
    · cases h
  · intro h
    rw [h]
    rfl

theorem Outcome.written_eq_true {r : Outcome} :
    r.written = .ok true ↔ r = .put (.ok .ERR_NONE) := by
  constructor
  · intro h
    unfold Outcome.written at h
    split at h
    · cases h
    · rw [Except.ok.injEq, decide_eq_true_eq] at h
      rw [h]
    · cases h
  · intro h
    rw [h]
    rfl

/-- A get that has returned a value. -/
def gotten (client : Client) (key value : CString) : Job × Outcome :=
  (⟨client, .get key⟩, .get (.ok (.ERR_NONE, some value)))

/-- A put that has succeeded. -/
def stored (client : Client) (key value : CString) : Job × Outcome :=
  (⟨client, .put key value⟩, .put (.ok .ERR_NONE))

variable {client : Client} {exit : Exit} {calls : List (Job × Outcome)}

theorem Tool.trace_get {key : CString} {f : Option CString → Tool}
    (h : (Tool.get client key f).Trace calls (.ok exit)) :
    ∃ r rest value, calls = (⟨client, .get key⟩, r) :: rest ∧
      r.read = .ok value ∧ (f value).Trace rest (.ok exit) := by
  obtain ⟨r, rest, rfl, hrest⟩ := Script.trace_call_iff.mp h
  cases hread : r.read with
  | error fault =>
    simp only [hread, Script.trace_done_iff] at hrest
    cases hrest.2
  | ok value =>
    simp only [hread] at hrest
    exact ⟨r, rest, value, rfl, hread, hrest⟩

theorem Tool.trace_put {key value : CString} {f : Bool → Tool}
    (h : (Tool.put client key value f).Trace calls (.ok exit)) :
    ∃ r rest done, calls = (⟨client, .put key value⟩, r) :: rest ∧
      r.written = .ok done ∧ (f done).Trace rest (.ok exit) := by
  obtain ⟨r, rest, rfl, hrest⟩ := Script.trace_call_iff.mp h
  cases hwritten : r.written with
  | error fault =>
    simp only [hwritten, Script.trace_done_iff] at hrest
    cases hrest.2
  | ok done =>
    simp only [hwritten] at hrest
    exact ⟨r, rest, done, rfl, hwritten, hrest⟩

theorem Tool.trace_fail {freed : List (Option CString)}
    (h : (Tool.fail freed).Trace calls (.ok exit)) :
    calls = [] ∧ exit.report = .fail := by
  obtain ⟨hcalls, hexit⟩ := Script.trace_done_iff.mp h
  cases hexit
  exact ⟨hcalls, rfl⟩

/-- A trace whose first call is a get without which the tool fails. -/
theorem Tool.trace_gotten {key : CString} {f : Option CString → Tool}
    {freed : List (Option CString)} (hnone : f none = .fail freed)
    (h : (Tool.get client key f).Trace calls (.ok exit))
    (hexit : exit.report ≠ .fail) :
    ∃ value rest, calls = gotten client key value :: rest ∧
      (f (some value)).Trace rest (.ok exit) := by
  obtain ⟨r, rest, value, rfl, hread, hrest⟩ := Tool.trace_get h
  cases value with
  | none =>
    rw [hnone] at hrest
    exact absurd (Tool.trace_fail hrest).2 hexit
  | some value =>
    refine ⟨value, rest, ?_, hrest⟩
    rw [Outcome.read_eq_some.mp hread]
    rfl

/-- A trace whose last call is a put without which the tool fails. -/
theorem Tool.trace_stored {key value : CString} {f : Bool → Tool}
    {freed : List (Option CString)} {last : Except Crash Exit}
    (htrue : f true = .done last) (hfalse : f false = .fail freed)
    (h : (Tool.put client key value f).Trace calls (.ok exit))
    (hexit : exit.report ≠ .fail) : calls = [stored client key value] := by
  obtain ⟨r, rest, done, rfl, hwritten, hrest⟩ := Tool.trace_put h
  cases done with
  | false =>
    rw [hfalse] at hrest
    exact absurd (Tool.trace_fail hrest).2 hexit
  | true =>
    rw [htrue] at hrest
    rw [(Script.trace_done_iff.mp hrest).1, Outcome.written_eq_true.mp hwritten]
    rfl

/-- When `pps-client-find` prints a place, it has read both values. -/
theorem findTool_trace {keyValue keyPattern : CString} {rest : List CString}
    (h : (findTool client (keyValue :: keyPattern :: rest)).Trace calls
      (.ok exit)) {p : Int} (hexit : exit.report = .place p) :
    ∃ value pattern,
      calls = [gotten client keyValue value, gotten client keyPattern pattern] ∧
        p = place value pattern := by
  obtain ⟨r, rest₁, value, rfl, hread, hrest₁⟩ := Tool.trace_get h
  obtain ⟨r', rest₂, pattern, rfl, hread', hrest₂⟩ := Tool.trace_get hrest₁
  cases value with
  | none =>
    cases (Script.trace_done_iff.mp hrest₂).2
    cases hexit
  | some value =>
    cases pattern with
    | none =>
      cases (Script.trace_done_iff.mp hrest₂).2
      cases hexit
    | some pattern =>
      obtain ⟨rfl, hdone⟩ := Script.trace_done_iff.mp hrest₂
      cases hdone
      cases hexit
      refine ⟨value, pattern, ?_, rfl⟩
      rw [Outcome.read_eq_some.mp hread, Outcome.read_eq_some.mp hread']
      rfl

/-- The loop of `pps-client-cat` and the put. -/
theorem catRest_trace {outputKey first : CString} (hexit : exit.report = .ok) :
    ∀ {keys : List CString} {concat : CString} {calls : List (Job × Outcome)},
      (catRest client outputKey first keys concat).Trace calls (.ok exit) →
      ∃ values, values.length = keys.length ∧
        calls = List.zipWith (gotten client) keys values ++
          [stored client outputKey (strcats concat values)] := by
  intro keys
  have hfail : exit.report ≠ .fail := by
    rw [hexit]
    decide
  induction keys with
  | nil =>
    intro concat calls h
    exact ⟨[], rfl, Tool.trace_stored rfl rfl h hfail⟩
  | cons key keys ih =>
    intro concat calls h
    obtain ⟨value, rest, rfl, hrest⟩ := Tool.trace_gotten rfl h hfail
    simp only at hrest
    split_ifs at hrest
    · -- There is no exit behind a `realloc` of no bytes.
      cases (Script.trace_done_iff.mp hrest).2
    obtain ⟨values, hlength, rfl⟩ := ih hrest
    refine ⟨value :: values, ?_, rfl⟩
    rw [List.length_cons, List.length_cons, hlength]

/-- When `pps-client-cat` prints `OK`, it has read all keys but the last one,
and it has put the joined values under that. -/
theorem catTool_trace {keys : List CString} {outputKey : CString}
    (hkeys : keys ≠ [])
    (h : (catTool client (keys ++ [outputKey])).Trace calls (.ok exit))
    (hexit : exit.report = .ok) :
    ∃ values joined, values.length = keys.length ∧
      calls = List.zipWith (gotten client) keys values ++
        [stored client outputKey joined] ∧
      joined.bytes = values.flatMap CString.bytes := by
  have hfail : exit.report ≠ .fail := by
    rw [hexit]
    decide
  obtain ⟨first, keys, rfl⟩ := List.exists_cons_of_ne_nil hkeys
  obtain ⟨second, rest, hargv⟩ : ∃ second rest,
      keys ++ [outputKey] = second :: rest :=
    List.exists_cons_of_ne_nil (List.append_ne_nil_of_right_ne_nil _
      (List.cons_ne_nil _ _))
  have hlast : (second :: rest).getLast (List.cons_ne_nil second rest) =
      outputKey := by
    simp only [← hargv, List.getLast_append_singleton]
  have hinit : (second :: rest).dropLast = keys := by
    rw [← hargv, List.dropLast_concat]
  rw [List.cons_append, hargv, catTool, hlast, hinit] at h
  obtain ⟨value, rest', rfl, hrest⟩ := Tool.trace_gotten rfl h hfail
  obtain ⟨values, hlength, rfl⟩ := catRest_trace hexit hrest
  refine ⟨value :: values, strcats value values, ?_, rfl, ?_⟩
  · rw [List.length_cons, List.length_cons, hlength]
  · rw [bytes_strcats, List.flatMap_cons]

/-- A dump that prints a list. -/
theorem dumpTool_trace {env : Env} {locals : Locals} {client : Client}
    {ip port : CString} {rest : List CString} {calls : List (Job × Outcome)}
    {exit : Exit} {pairs : List (Option KvPair)}
    (h : (dumpTool env locals client (ip :: port :: rest)).Trace calls
      (.ok exit)) (hexit : exit.report = .listing pairs) :
    calls = [(⟨client, .dump (dumpServer env locals.node ip port)
      locals.inMsg locals.stack⟩, .dump (.ok (some pairs)))] := by
  unfold dumpTool at h
  obtain ⟨r, tail, rfl, hrest⟩ := Script.trace_call_iff.mp h
  cases hlisting : r.listing with
  | error fault =>
    simp only [hlisting, Script.trace_done_iff] at hrest
    cases hrest.2
  | ok result =>
    cases result with
    | none =>
      simp only [hlisting] at hrest
      have hfail := (Tool.trace_fail hrest).2
      rw [hexit] at hfail
      cases hfail
    | some list =>
      simp only [hlisting, Script.trace_done_iff] at hrest
      obtain ⟨rfl, hdone⟩ := hrest
      cases hdone
      cases hexit
      cases r with
      | dump listing =>
        rw [Outcome.listing] at hlisting
        rw [hlisting]
      | put | get | nodes => cases hlisting

end Traces

/-! ## The calls that are made -/

/-- Not a get or a put of another key. -/
def Job.Uses (keys : List CString) (job : Job) : Prop :=
  match job.op with
  | .get key => key ∈ keys
  | .put key _ => key ∈ keys
  | .listNodes => True
  | .dump .. => True

/-- At most `n` calls, and no gets and puts of other keys. -/
abbrev Tool.Within (keys : List CString) (n : Nat) (tool : Tool) : Prop :=
  Script.Within (Job.Uses keys) n tool

section Calls

variable {keys : List CString}

theorem Tool.within_fail (n : Nat) (freed : List (Option CString)) :
    Tool.Within keys n (Tool.fail freed) := .done n _

theorem Tool.within_get {n : Nat} {client : Client} {key : CString}
    {f : Option CString → Tool} (hkey : key ∈ keys)
    (h : ∀ value, (f value).Within keys n) :
    (Tool.get client key f).Within keys (n + 1) := by
  refine .call hkey (fun r => ?_)
  cases r.read with
  | error fault => exact .done n _
  | ok value => exact h value

theorem Tool.within_put {n : Nat} {client : Client} {key value : CString}
    {f : Bool → Tool} (hkey : key ∈ keys)
    (h : ∀ done, (f done).Within keys n) :
    (Tool.put client key value f).Within keys (n + 1) := by
  refine .call hkey (fun r => ?_)
  cases r.written with
  | error fault => exact .done n _
  | ok done => exact h done

theorem findTool_within (client : Client) (argv : List CString) :
    (findTool client argv).Within argv argv.length := by
  match argv with
  | [] | [_] => exact .done _ _
  | keyValue :: keyPattern :: rest =>
    refine Tool.within_get (by simp) (fun value => ?_)
    refine Tool.within_get (by simp) (fun pattern => ?_)
    cases value <;> cases pattern <;> exact .done _ _

theorem catRest_within (client : Client) {outputKey : CString}
    (first : CString) (hout : outputKey ∈ keys) :
    ∀ (rest : List CString) (concat : CString), rest ⊆ keys →
      (catRest client outputKey first rest concat).Within keys
        (rest.length + 1) := by
  intro rest
  induction rest with
  | nil =>
    intro concat _
    refine Tool.within_put hout (fun done => ?_)
    cases done with
    | true => exact .done _ _
    | false => exact Tool.within_fail ..
  | cons key rest ih =>
    intro concat hsub
    have hcons := List.cons_subset.mp hsub
    refine Tool.within_get hcons.1 (fun value => ?_)
    cases value with
    | none => exact Tool.within_fail ..
    | some value =>
      simp only
      split_ifs
      · exact .done _ _
      · exact ih (strcat concat value) hcons.2

theorem catTool_within (client : Client) (argv : List CString) :
    (catTool client argv).Within argv argv.length := by
  match argv with
  | [] | [_] => exact .done _ _
  | first :: second :: rest =>
    refine Tool.within_get (by simp) (fun value => ?_)
    cases value with
    | none => exact Tool.within_fail ..
    | some value =>
      have hout : (second :: rest).getLast (List.cons_ne_nil second rest) ∈
          first :: second :: rest :=
        List.mem_cons_of_mem first (List.getLast_mem _)
      have hsub : (second :: rest).dropLast ⊆ first :: second :: rest :=
        fun key hkey =>
          List.mem_cons_of_mem first (List.dropLast_subset _ hkey)
      have hrest := catRest_within client value hout _ value hsub
      rw [List.length_dropLast] at hrest
      exact hrest

theorem dumpTool_within (env : Env) (locals : Locals) (client : Client)
    (argv : List CString) :
    (dumpTool env locals client argv).Within argv (argv.length + 1) := by
  unfold dumpTool
  split
  · refine .call trivial (fun r => ?_)
    split
    · exact .done _ _
    · exact Tool.within_fail ..
    · exact .done _ _
  · exact Tool.within_fail ..

end Calls

/-! ## How a program can crash -/

section Crashes

variable {SHA1 : List UInt8 → List UInt8} {locals : Locals} {start : Start}
  {program : Program} {before : List Outcome} {client : Client}

end Crashes

end PpsDht
