import PpsDht.Args
import PpsDht.RingReplicas

/-!
# Clients

`client.c`.  `clientInitArgv` is given what `client_init` takes from outside: the
servers file and the results of its two `get_socket` calls; it also gives what
is left in `argv`, and `clientInit` is without that.

`clientInit_ok` is the inversion lemma of a successful call.  From it,
`clientInit_reachable_iff` says which command lines and servers files leave a
client whose quorums its ring can reach.
-/

namespace PpsDht

open CMem

/-- `client_t`. -/
structure Client where
  name : CString
  server : NodeList
  socket : Int
  args : Args
  deriving DecidableEq

/-- `client_init`, with what is left in `argv` when it returns.  The error code
of `ring_init` is ignored, so the ring that `ring_alloc` gave stays when the
servers file is rejected. -/
def clientInitArgv (env : Env) (fuel : Nat) (content : Option (List UInt8))
    (sockets : Int × Int) (argv : List CString)
    (required optionnal sizeArgs : Nat) :
    Except Fault (Except ErrorCode (Client × List CString)) :=
  match argv with
  | [] => .error .outOfBounds
  | name :: argv =>
    let sizeArgs := sizeSub sizeArgs 1
    if required ≠ sizeMax ∧ sizeArgs < required then
      .ok (.error .ERR_BAD_PARAMETER)
    else
      let adressStart := argv.length
      match parseOptArgs optionnal argv with
      | .error fault => .error fault
      | .ok none => .ok (.error .ERR_BAD_PARAMETER)
      | .ok (some (args, argv)) =>
        let nbParsed := sizeSub adressStart argv.length
        if required ≠ sizeMax ∧ sizeSub sizeArgs nbParsed ≠ required then
          .ok (.error .ERR_BAD_PARAMETER)
        else
          match ringInit env fuel content nodeListNew with
          | .error fault => .error fault
          | .ok (_, ring) =>
            let args :=
              if args.N > ring.size then { args with N := ring.size } else args
            if sockets.1 = -1 then .ok (.error .ERR_NETWORK)
            else
              .ok (.ok ({ name := name, server := ring, socket := sockets.2,
                          args := args }, argv))

/-- `client_init`. -/
def clientInit (env : Env) (fuel : Nat) (content : Option (List UInt8))
    (sockets : Int × Int) (argv : List CString)
    (required optionnal sizeArgs : Nat) :
    Except Fault (Except ErrorCode Client) :=
  (clientInitArgv env fuel content sockets argv required optionnal
    sizeArgs).map (Except.map Prod.fst)

/-- The nodes that the servers file lists; none when it is missing or
rejected. -/
def fileNodes (env : Env) (fuel : Nat) (content : Option (List UInt8)) :
    List Node :=
  match getNodes env fuel content with
  | .ok (some list) => list.nodes
  | _ => []

/-- The ring of a client holds the nodes of the file. -/
theorem ringInit_perm {env : Env} {fuel : Nat} {content : Option (List UInt8)}
    {err : ErrorCode} {ring : NodeList}
    (h : ringInit env fuel content nodeListNew = .ok (err, ring)) :
    ring.nodes.Perm (fileNodes env fuel content) := by
  rw [ringInit] at h
  rw [fileNodes]
  cases hget : getNodes env fuel content with
  | error fault =>
    rw [hget] at h
    cases h
  | ok res =>
    rw [hget] at h
    cases res with
    | none =>
      cases h
      exact List.Perm.refl _
    | some list =>
      cases h
      exact List.mergeSort_perm _ _

/-- What a successful `client_init` has done, and what it has left. -/
theorem clientInitArgv_ok {env : Env} {fuel : Nat}
    {content : Option (List UInt8)} {sockets : Int × Int}
    {argv rem : List CString} {required optionnal sizeArgs : Nat}
    {client : Client}
    (h : clientInitArgv env fuel content sockets argv required optionnal
      sizeArgs = .ok (.ok (client, rem))) :
    ∃ name rest args, argv = name :: rest ∧
      parseOptArgs optionnal rest = .ok (some (args, rem)) ∧
      (required ≠ sizeMax → sizeSub (sizeSub sizeArgs 1)
        (sizeSub rest.length rem.length) = required) ∧
      client.server.nodes.Perm (fileNodes env fuel content) ∧
      client.args = { args with N := min args.N client.server.size } := by
  cases argv with
  | nil => cases h
  | cons name argv =>
    rw [clientInitArgv] at h
    simp only at h
    split at h
    · cases h
    cases hparse : parseOptArgs optionnal argv with
    | error fault =>
      rw [hparse] at h
      cases h
    | ok res =>
      rw [hparse] at h
      cases res with
      | none => cases h
      | some pair =>
        obtain ⟨args, rem'⟩ := pair
        simp only at h
        split at h
        · cases h
        rename_i hcount
        cases hring : ringInit env fuel content nodeListNew with
        | error fault =>
          rw [hring] at h
          cases h
        | ok pair =>
          obtain ⟨err, ring⟩ := pair
          rw [hring] at h
          simp only at h
          split at h
          · cases h
          · cases h
            refine ⟨name, argv, args, rfl, hparse, fun hne => ?_,
              ringInit_perm hring, ?_⟩
            · by_contra hcount'
              exact hcount ⟨hne, hcount'⟩
            show (if args.N > ring.size then { args with N := ring.size }
              else args) = { args with N := min args.N ring.size }
            by_cases hN : args.N > ring.size
            · rw [if_pos hN, Nat.min_eq_right (by omega)]
            · rw [if_neg hN, Nat.min_eq_left (by omega)]

/-- What a successful `client_init` has done. -/
theorem clientInit_ok {env : Env} {fuel : Nat} {content : Option (List UInt8)}
    {sockets : Int × Int} {argv : List CString}
    {required optionnal sizeArgs : Nat} {client : Client}
    (h : clientInit env fuel content sockets argv required optionnal sizeArgs =
      .ok (.ok client)) :
    ∃ args rem,
      parseOptArgs optionnal argv.tail = .ok (some (args, rem)) ∧
      client.server.nodes.Perm (fileNodes env fuel content) ∧
      client.args = { args with N := min args.N client.server.size } := by
  obtain ⟨rem, hargv⟩ : ∃ rem, clientInitArgv env fuel content sockets argv
      required optionnal sizeArgs = .ok (.ok (client, rem)) := by
    rw [clientInit] at h
    cases hres : clientInitArgv env fuel content sockets argv required
        optionnal sizeArgs with
    | error fault =>
      rw [hres] at h
      cases h
    | ok res =>
      rw [hres] at h
      cases res with
      | error err => cases h
      | ok pair =>
        cases h
        exact ⟨pair.2, rfl⟩
  obtain ⟨name, rest, args, rfl, hparse, _, hperm, hargs⟩ :=
    clientInitArgv_ok hargv
  exact ⟨args, rem, hparse, hperm, hargs⟩

/-! ## Reachable quorums -/

/-- A fully available network can answer the client: its `N` fits the ring,
and its quorums fit `N`. -/
def QuorumReachable (optionnal : Nat) (client : Client) : Prop :=
  1 ≤ client.args.N ∧ client.args.N ≤ client.server.size ∧
  (optionnal &&& GET_NEEDED ≠ 0 → client.args.R ≤ client.args.N) ∧
  (optionnal &&& PUT_NEEDED ≠ 0 → client.args.W ≤ client.args.N)

/-- The quorums that are asked for fit a ring of `n` nodes, and with both
options supported the read quorum fits `N`. -/
def QuorumsFit (optionnal : Nat) (args : Args) (n : Nat) : Prop :=
  1 ≤ n ∧
  (optionnal &&& GET_NEEDED ≠ 0 → args.R ≤ n) ∧
  (optionnal &&& PUT_NEEDED ≠ 0 → args.W ≤ n) ∧
  (optionnal &&& GET_NEEDED ≠ 0 ∧ optionnal &&& PUT_NEEDED ≠ 0 →
    args.R ≤ args.N)

instance (optionnal : Nat) (args : Args) (n : Nat) :
    Decidable (QuorumsFit optionnal args n) :=
  inferInstanceAs (Decidable (_ ∧ _ ∧ _ ∧ _))

/-- What `check_bounds` checks: the write quorum, or without it the read
quorum. -/
theorem checkBounds_iff (args : Args) (supported : Nat) :
    checkBounds args supported = true ↔
      (supported &&& PUT_NEEDED ≠ 0 → args.W ≤ args.N) ∧
      (supported &&& PUT_NEEDED = 0 → supported &&& GET_NEEDED ≠ 0 →
        args.R ≤ args.N) := by
  have hdisjoint : supported &&& PUT_NEEDED &&& GET_NEEDED = 0 := by
    rw [Nat.and_assoc]
    exact Nat.and_zero supported
  rw [checkBounds, hdisjoint, if_neg (by simp)]
  by_cases hput : supported &&& PUT_NEEDED = 0
  · by_cases hget : supported &&& GET_NEEDED = 0
    · simp [hput, hget]
    · simp [hput, hget]
  · simp [hput]

/-- Which command lines and servers files leave a client whose quorums are
reachable. -/
theorem clientInit_reachable_iff (env : Env) (fuel : Nat)
    (content : Option (List UInt8)) (sockets : Int × Int)
    (argv : List CString) (required optionnal sizeArgs : Nat) (client : Client)
    (h : clientInit env fuel content sockets argv required optionnal sizeArgs =
      .ok (.ok client)) :
    QuorumReachable optionnal client ↔
      QuorumsFit optionnal (defaultArgs.asked argv.tail)
        (fileNodes env fuel content).length := by
  obtain ⟨args, rem, hparse, hperm, hargs⟩ := clientInit_ok h
  obtain ⟨hasked, hpos, hbounds⟩ :=
    (parseOptArgs_spec optionnal argv.tail).2 args rem hparse
  have hn : (fileNodes env fuel content).length = client.server.size :=
    hperm.length_eq.symm
  have hN : 1 ≤ args.N := hpos.1
  rw [checkBounds_iff] at hbounds
  obtain ⟨hput, hget⟩ := hbounds
  rw [← hasked, hn, QuorumReachable, QuorumsFit, hargs]
  show (1 ≤ min args.N client.server.size ∧
    min args.N client.server.size ≤ client.server.size ∧
    (_ → args.R ≤ min args.N client.server.size) ∧
    (_ → args.W ≤ min args.N client.server.size)) ↔ _
  by_cases hP : optionnal &&& PUT_NEEDED = 0
  · by_cases hG : optionnal &&& GET_NEEDED = 0
    · simp only [hP, hG, ne_eq, not_true_eq_false, false_implies, and_true,
        and_self]
      omega
    · have hR := hget hP hG
      simp only [hP, hG, ne_eq, not_true_eq_false, not_false_eq_true,
        false_implies, true_implies, and_true, and_false]
      omega
  · have hW := hput hP
    by_cases hG : optionnal &&& GET_NEEDED = 0
    · simp only [hP, hG, ne_eq, not_true_eq_false, not_false_eq_true,
        false_implies, true_implies, and_true, true_and]
      omega
    · simp only [hP, hG, ne_eq, not_false_eq_true, true_implies, and_self]
      omega

/-- One server with three virtual nodes. -/
def demoFile : List UInt8 :=
  (lit ['1', '.', '2', '.', '3', '.', '4', ' ', '5', ' ', '3', '\n']).bytes

/-- Three virtual nodes are enough for the default values. -/
theorem clientInit_reachable_iff_demo :
    ∃ client, clientInit demoEnv 20 (some demoFile) (3, 4)
        [lit ['g', 'e', 't'], lit ['k']] 1 (TOTAL_SERVERS ||| GET_NEEDED) 2 =
        .ok (.ok client) ∧
      QuorumReachable (TOTAL_SERVERS ||| GET_NEEDED) client := by
  obtain ⟨client, h⟩ : ∃ client, clientInit demoEnv 20 (some demoFile) (3, 4)
      [lit ['g', 'e', 't'], lit ['k']] 1 (TOTAL_SERVERS ||| GET_NEEDED) 2 =
      .ok (.ok client) := ⟨_, rfl⟩
  exact ⟨client, h, (clientInit_reachable_iff demoEnv 20 (some demoFile) (3, 4)
    _ 1 _ 2 client h).mpr (by decide +kernel)⟩

/-- Without a servers file, `client_init` succeeds with an empty ring. -/
theorem clientInit_missing_file :
    ¬ ∀ (env : Env) (fuel : Nat) (content : Option (List UInt8))
        (sockets : Int × Int) (argv : List CString)
        (required optionnal sizeArgs : Nat) (client : Client),
      clientInit env fuel content sockets argv required optionnal sizeArgs =
        .ok (.ok client) → QuorumReachable optionnal client := by
  intro h
  have hrun : clientInit demoEnv 20 none (3, 4) [lit ['g', 'e', 't'], lit ['k']]
      1 (TOTAL_SERVERS ||| GET_NEEDED) 2 =
        .ok (.ok { name := lit ['g', 'e', 't'], server := nodeListNew,
                   socket := 4, args := { N := 0, R := 2, W := 2 } }) := by
    decide +kernel
  have hpos := (h _ _ _ _ _ _ _ _ _ hrun).1
  exact absurd hpos (by decide)

end PpsDht
