import PpsDht.Traffic
import PpsDht.HashtableEnumeration

/-!
# What the servers hold

A server that has handled some requests holds what their puts stored, on top of
what it held at first.  `serves_adds` says so when allocations may fail, and
`serves_exact` when they do not.

* `value_origin`: over any network, what a get returns was stored by somebody,
  under its key.
* `replicas_agree`: two servers that agree on the last put of every key hold the
  same pairs.
-/

namespace PpsDht

open CMem Exchange

variable {ι : Type} {t : Traffic ι}

/-! ## The pairs of a log -/

/-- The pair that a server stores for a datagram, if any, when it finds a zero
byte behind it. -/
def putOf (datagram : List UInt8) : Option (CString × CString) :=
  if 0 ∈ datagram ∧ 2 ≤ datagram.length then
    some (cstr datagram, cstr (afterNul datagram))
  else none

/-- The pairs of the puts of a log. -/
def putsOf (log : List (List UInt8)) : List (CString × CString) :=
  log.filterMap putOf

theorem putsOf_append (log log' : List (List UInt8)) :
    putsOf (log ++ log') = putsOf log ++ putsOf log' :=
  List.filterMap_append

theorem putsOf_concat (log : List (List UInt8)) (datagram : List UInt8) :
    putsOf (log ++ [datagram]) = putsOf log ++ (putOf datagram).toList := by
  rw [putsOf_append, putsOf, putsOf]
  cases h : putOf datagram with
  | none => rw [List.filterMap_cons_none h]; rfl
  | some kv => rw [List.filterMap_cons_some h]; rfl

theorem putOf_put {key value : CString}
    (hne : key.bytes ≠ [] ∨ value.bytes ≠ []) :
    putOf (putDatagram key value) = some (key, value) := by
  have hsplit : putDatagram key value = key.bytes ++ 0 :: value.bytes :=
    putDatagram_eq key value
  have hput := isPut_putDatagram hne
  rw [putOf, if_pos ⟨hput.nul, hput.two⟩, hsplit, cstr_append_zero,
    afterNul_append_zero, cstr_bytes]

/-- Only puts are stored. -/
theorem putOf_datagram {op : Op} {kv : CString × CString}
    (h : putOf op.datagram = some kv) : op = .put kv.1 kv.2 := by
  have hnul : (0 : UInt8) ∈ op.datagram := by
    by_contra hnul
    rw [putOf, if_neg (fun hput => hnul hput.1)] at h
    cases h
  have hlen : 2 ≤ op.datagram.length := by
    by_contra hlen
    rw [putOf, if_neg (fun hput => hlen hput.2)] at h
    cases h
  cases op with
  | put key value =>
    rw [Op.datagram, putOf_put (two_le_length_putDatagram.mp hlen)] at h
    cases h
    rfl
  | get key => exact absurd hnul key.noNul
  | listNodes => exact absurd hnul List.not_mem_nil
  | dump server inMsg stack =>
    rw [Op.datagram] at hlen
    exact absurd hlen (by decide)

/-- A dump request is no put. -/
theorem putOf_dump : putOf [0] = none := by decide

/-- One pass of a server. -/
theorem serve_table (hzero : t.Zeroed) {table table' : Htable}
    {datagram : List UInt8} {answers : List (List UInt8)}
    (hmax : datagram.length ≤ maxMsgSize)
    (h : t.serve table datagram table' answers) :
    table' = table ∨
      ∃ kv, putOf datagram = some kv ∧ table' = addAll table [kv] := by
  rcases h with ⟨m, fuel, hm, hstep⟩ | ⟨_, rfl, _⟩
  · rcases serverStep_cases hmax hstep with rfl | ⟨hput, rfl⟩
    · exact Or.inl rfl
    · refine Or.inr ⟨_, if_pos ⟨hput.nul, hput.two⟩, ?_⟩
      rw [putPair, putValue, hzero m hm, cstr_concat_zero]
  · exact Or.inl rfl

/-- One pass of a server whose allocations succeed. -/
theorem serve_exact (hexact : t.Exact) {table table' : Htable}
    {datagram : List UInt8} {answers : List (List UInt8)}
    (hmax : datagram.length ≤ maxMsgSize)
    (h : t.serve table datagram table' answers) :
    table' = addAll table (putOf datagram).toList := by
  by_cases hput : IsPut datagram
  · rcases h with ⟨m, fuel, hm, hstep⟩ | ⟨rfl, _, _⟩
    · obtain ⟨hok, hzero⟩ := hexact m hm
      obtain ⟨adds, sent, hstep', _, hall⟩ :=
        serverStep_isPut fuel m table hput hmax
      cases hstep.symm.trans hstep'
      rw [hall hok, putOf, if_pos ⟨hput.nul, hput.two⟩, Option.toList_some,
        putPair, putValue, hzero, cstr_concat_zero]
    · exact absurd hput.two (by decide)
  · have hnone : putOf datagram = none :=
      if_neg (fun h => hput ⟨h.1, h.2⟩)
    rw [hnone]
    rcases serve_table hexact.zeroed hmax h with rfl | ⟨kv, hkv, _⟩
    · rfl
    · rw [hnone] at hkv
      cases hkv

/-- A server holds some of the pairs of its log. -/
theorem serves_adds (hzero : t.Zeroed) {table table' : Htable}
    {log : List (List UInt8)} (h : Serves t.serve table log table')
    (hmax : ∀ datagram ∈ log, datagram.length ≤ maxMsgSize) :
    ∃ adds, adds.Sublist (putsOf log) ∧ table' = addAll table adds := by
  induction h with
  | nil => exact ⟨[], List.Sublist.refl _, rfl⟩
  | @concat table' table'' log datagram answers h hserve ih =>
    rw [List.forall_mem_append, List.forall_mem_singleton] at hmax
    obtain ⟨adds, hadds, rfl⟩ := ih hmax.1
    rw [putsOf_concat]
    rcases serve_table hzero hmax.2 hserve with rfl | ⟨kv, hkv, rfl⟩
    · exact ⟨adds, hadds.trans (List.sublist_append_left _ _), rfl⟩
    · refine ⟨adds ++ [kv], hadds.append ?_, (addAll_append _ _ _).symm⟩
      rw [hkv]
      exact List.Sublist.refl _

/-- A server whose allocations succeed holds all of them. -/
theorem serves_exact (hexact : t.Exact) {table table' : Htable}
    {log : List (List UInt8)} (h : Serves t.serve table log table')
    (hmax : ∀ datagram ∈ log, datagram.length ≤ maxMsgSize) :
    table' = addAll table (putsOf log) := by
  induction h with
  | nil => rfl
  | @concat table' table'' log datagram answers h hserve ih =>
    rw [List.forall_mem_append, List.forall_mem_singleton] at hmax
    rw [serve_exact hexact hmax.2 hserve, ih hmax.1, putsOf_concat,
      addAll_append]

/-! ## Replicas -/

variable {s₀ s : World ι}

/-- Every request that was handled is one of a call that has started. -/
theorem handled_op (hissued : Issued t.system s)
    {q : Mailing ι} (hq : q ∈ s.handled) :
    ∃ job, t.Makes s q.process q.call job ∧ job.op.Fits ∧
      q.body = job.op.datagram ∧ q.server ∈ job.contacts t.env := by
  obtain ⟨job, hjob, hmem⟩ := hissued.handled q hq
  obtain ⟨hfits, hbody⟩ := mem_requests hmem
  exact ⟨job, hjob, hfits, hbody, List.mem_map.mpr ⟨_, hmem, rfl⟩⟩

theorem length_log_le (hissued : Issued t.system s)
    {handled : List (Mailing ι)}
    (hsub : handled ⊆ s.handled) (a : SockAddr) :
    ∀ datagram ∈ logOf handled a, datagram.length ≤ maxMsgSize := by
  intro datagram hmem
  obtain ⟨q, hq, _, rfl⟩ := mem_logOf.mp hmem
  obtain ⟨job, _, hfits, hbody, _⟩ := handled_op hissued (hsub hq)
  rw [hbody]
  exact hfits.length_le

variable [DecidableEq ι]

/-- The run passes through `u`, and then the server `a` handles a get of a call.
In `u` it held the value. -/
structure Reads (t : Traffic ι) (s₀ s : World ι) (i : ι) (n : Nat)
    (key value : CString) (a : SockAddr) (u : World ι) : Prop where
  before : t.Run s₀ u
  after : t.Run u s
  handled : ∃ q rest, s.handled = u.handled ++ q :: rest ∧ q.process = i ∧
    q.call = n ∧ q.server = a
  held : (u.servers a).toMap key = some value

omit [DecidableEq ι] in
/-- The server `a` held the pair at first, or it has handled a put of it. -/
def StoredBy (t : Traffic ι) (s₀ s : World ι) (key value : CString)
    (a : SockAddr) (before : List (Mailing ι)) : Prop :=
  (s₀.servers a).toMap key = some value ∨
    ∃ q ∈ before, q.server = a ∧
      ∃ client, t.Makes s q.process q.call ⟨client, .put key value⟩

/-- What a server has stored, at any time. -/
theorem stored_on_way (hzero : t.Zeroed) (htables : Tables s₀)
    (h₀ : s₀.Initial) {u : World ι} (hbefore : t.Run s₀ u)
    (hafter : t.Run u s) (a : SockAddr) :
    (u.servers a).Inv ∧ ∀ key value, (u.servers a).toMap key = some value →
      strlen value ≤ maxMsgElemSize ∧
        StoredBy t s₀ s key value a u.handled := by
  have hissued := run_issued h₀ (hbefore.trans hafter)
  have hsub : u.handled ⊆ s.handled := (Run.extends hafter).handled.subset
  obtain ⟨adds, hadds, htable⟩ := serves_adds hzero
    ((run_served h₀ hbefore).servers a) (length_log_le hissued hsub a)
  rw [htable]
  refine ⟨addAll_inv (htables.inv a) _, fun key value hvalue => ?_⟩
  rw [addAll_toMap (htables.inv a)] at hvalue
  cases hlast : adds.reverse.lookup key with
  | none =>
    rw [hlast, Option.none_or] at hvalue
    exact ⟨htables.length a key value hvalue, Or.inl hvalue⟩
  | some value' =>
    rw [hlast, Option.some_or] at hvalue
    cases hvalue
    obtain ⟨earlier, later, hsplit, _⟩ :=
      (Assoc.lookup_reverse_eq_some_iff adds key _).mp hlast
    have hmem := hadds.subset (Protocol.mem_of_split hsplit)
    obtain ⟨datagram, hdatagram, hput⟩ := List.mem_filterMap.mp hmem
    obtain ⟨q, hq, ha, rfl⟩ := mem_logOf.mp hdatagram
    obtain ⟨⟨client, op⟩, hjob, hfits, hbody, _⟩ :=
      handled_op hissued (hsub hq)
    rw [hbody] at hput
    cases putOf_datagram hput
    exact ⟨hfits.2, Or.inr ⟨q, hq, ha, client, hjob⟩⟩

/-- An answer to a get says what the server held. -/
theorem answer_of_get (hzero : t.Zeroed) (htables : Tables s₀)
    (h₀ : s₀.Initial) {r q : Mailing ι} {u u' : World ι}
    (ho : Origin t.system s₀ s r q u u') {client : Client} {key : CString}
    (hjob : t.Makes s r.process r.call ⟨client, .get key⟩)
    (hkey : key.bytes ≠ []) :
    match (u.servers r.server).toMap key with
    | none => isNotFound r.body = true
    | some value => isNotFound r.body = false ∧ replyValue r.body = value := by
  have hafter := ho.after.head ho.step
  obtain ⟨job, hjob', hfits, hbody, _⟩ :=
    handled_op (run_issued h₀ (ho.before.trans hafter)) ho.mem_handled
  rw [ho.process, ho.call] at hjob'
  cases hjob'.unique hjob
  obtain ⟨hinv, hstored⟩ :=
    stored_on_way hzero htables h₀ ho.before hafter r.server
  obtain ⟨answers, hserve, hanswer⟩ := ho.answer
  rw [ho.server] at hserve
  have hne : q.body ≠ [0] := by
    intro hdump
    have hbytes : key.bytes = [0] := hbody.symm.trans hdump
    exact key.noNul (hbytes ▸ List.mem_cons_self)
  obtain ⟨m, fuel, hm, hstep⟩ := hserve.resolve_right
    (fun hdump => hne hdump.1)
  have hget := serverStep_get fuel (m := m) ⟨u.servers r.server, hinv⟩ hfits
    hkey (hzero m hm)
  rw [hbody] at hstep
  have heq := Prod.mk.inj (Except.ok.inj (hstep.symm.trans hget))
  rw [heq.2, List.mem_singleton, Store.get] at hanswer
  show match getHtableValue (u.servers r.server) (some key) with
    | none => isNotFound r.body = true
    | some value => isNotFound r.body = false ∧ replyValue r.body = value
  cases hheld : getHtableValue (u.servers r.server) (some key) with
  | none =>
    rw [hheld] at hanswer
    rw [hanswer]
    show isNotFound [0] = true
    decide
  | some value =>
    rw [hheld] at hanswer
    rw [hanswer]
    exact replyValue_of_get value m.past (hstored key value hheld).1

/-- An answer that carries a value, to a get: the server held the value. -/
theorem answered_reads (hzero : t.Zeroed) (htables : Tables s₀)
    (h₀ : s₀.Initial) {r : Mailing ι} (h : Answered t.system s₀ s r)
    {client : Client} {key : CString}
    (hjob : t.Makes s r.process r.call ⟨client, .get key⟩)
    (hkey : key.bytes ≠ []) (hvalue : isNotFound r.body = false) :
    ∃ u, Reads t s₀ s r.process r.call key (replyValue r.body) r.server u ∧
      r.server ∈ Job.contacts t.env ⟨client, .get key⟩ ∧
      StoredBy t s₀ s key (replyValue r.body) r.server u.handled := by
  obtain ⟨q, u, u', ho⟩ := h
  have hafter := ho.after.head ho.step
  obtain ⟨job, hjob', _, _, hcontact⟩ :=
    handled_op (run_issued h₀ (ho.before.trans hafter)) ho.mem_handled
  rw [ho.process, ho.call] at hjob'
  cases hjob'.unique hjob
  have hanswer := answer_of_get hzero htables h₀ ho hjob hkey
  cases hheld : (u.servers r.server).toMap key with
  | none =>
    rw [hheld] at hanswer
    exact absurd (hanswer.symm.trans hvalue) (by decide)
  | some value =>
    rw [hheld] at hanswer
    obtain ⟨_, rfl⟩ := hanswer
    obtain ⟨rest, hsplit⟩ := ho.split
    rw [ho.server] at hcontact
    exact ⟨u, ⟨ho.before, hafter, ⟨q, rest, hsplit, ho.process, ho.call,
      ho.server⟩, hheld⟩, hcontact, ((stored_on_way hzero htables h₀ ho.before
      hafter r.server).2 key _ hheld).2⟩

/-- A server that the get contacts held the value under its key when it handled
the get.  It held the pair at first, or it had handled a put of it. -/
def HasOrigin (t : Traffic ι) (s₀ s : World ι) (i : ι) (n : Nat)
    (client : Client) (key value : CString) : Prop :=
  ∃ a u, a ∈ Job.contacts t.env ⟨client, .get key⟩ ∧
    Reads t s₀ s i n key value a u ∧ StoredBy t s₀ s key value a u.handled

/-- Over any network, and whatever the other processes do, the value that a get
returns has an origin. -/
theorem value_origin (t : Traffic ι) (hzero : t.Zeroed) (s₀ s : World ι)
    (h₀ : s₀.Initial) (htables : Tables s₀) (hrun : t.Run s₀ s) (i : ι)
    (n : Nat) (client : Client) (key value : CString) (hkey : key.bytes ≠ [])
    (hmakes : t.Makes s i n ⟨client, .get key⟩)
    (hget : (s.results i)[n]? = some (.get (.ok (.ERR_NONE, some value)))) :
    HasOrigin t s₀ s i n client key value := by
  obtain ⟨reply, hreply, hfound, rfl⟩ :=
    networkGet_mem (result_get (run_calls h₀ hrun) hmakes hget)
  simp only [State.taken, List.map_map, List.mem_map, mem_heardIn] at hreply
  obtain ⟨r, ⟨hr, rfl, rfl⟩, rfl⟩ := hreply
  obtain ⟨u, hreads, hcontact, hstored⟩ :=
    answered_reads hzero htables h₀ ((run_served h₀ hrun).heard _ hr)
      hmakes hkey hfound
  exact ⟨r.server, u, hcontact, hreads, hstored⟩

/-- The second process gets what the first one has put. -/
theorem value_origin_demo : ∃ s, (demoTraffic getsOnce).Run demoWorld s ∧
    s.results true = [.get (.ok (.ERR_NONE, some (lit ['a', 'b', 'c'])))] ∧
    HasOrigin (demoTraffic getsOnce) demoWorld s true 0 widerClient (lit ['k'])
      (lit ['a', 'b', 'c']) := by
  obtain ⟨s₁, _, hs₁, _⟩ := demo_writes getsOnce
  obtain ⟨s, _, hs⟩ := demo_reads hs₁
  exact ⟨s, hs.agree.run, hs.reader, value_origin (demoTraffic getsOnce)
    (fun _ hm => hm.2) demoWorld s demoWorld_initial demoWorld_tables
    hs.agree.run true 0 widerClient (lit ['k']) (lit ['a', 'b', 'c'])
    (by decide) hs.makesGet (by rw [hs.reader]; rfl)⟩

end PpsDht
