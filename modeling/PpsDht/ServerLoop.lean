import PpsDht.Server

/-!
# Runs of the server

`serverLoop` is the main loop of `pps-launch-server.c` over a sequence of
passes.  `serverStep_cases` says once what a pass can do to the table: nothing,
or one `add_Htable_value`, and the second only in the put branch.
`serverLoop_adds` is the same for a run: its table is built by adds of pairs
that the puts of the run carry.
-/

namespace PpsDht

open CMem

/-- One pass of the main loop: the memory it finds, and the datagram. -/
abbrev Pass := ServerMem × List UInt8

/-- The main loop: the table after some passes, and what each of them sends. -/
def serverLoop (fuel : Nat) : Htable → List Pass →
    Except Fault (Htable × List (List (List UInt8)))
  | table, [] => .ok (table, [])
  | table, (m, datagram) :: passes =>
    match serverStep fuel m table datagram with
    | .error fault => .error fault
    | .ok (table, sent) =>
      match serverLoop fuel table passes with
      | .error fault => .error fault
      | .ok (table, sents) => .ok (table, sent :: sents)

/-- A datagram for the put branch. -/
structure IsPut (datagram : List UInt8) : Prop where
  nul : (0 : UInt8) ∈ datagram
  two : 2 ≤ datagram.length

/-- The datagram of a put, unless both strings are empty. -/
theorem isPut_putDatagram {key value : CString}
    (hne : key.bytes ≠ [] ∨ value.bytes ≠ []) :
    IsPut (putDatagram key value) where
  nul := nul_mem_putDatagram key value
  two := two_le_length_putDatagram.mpr hne

/-- The pair that the put branch adds. -/
def putPair (p : Pass) : CString × CString := (cstr p.2, putValue p.1 p.2)

/-! ## One pass -/

/-- A put adds its pair, or does nothing when there is no memory. -/
theorem serverStep_isPut (fuel : Nat) (m : ServerMem) (table : Htable)
    {datagram : List UInt8} (hput : IsPut datagram)
    (hmax : datagram.length ≤ maxMsgSize) :
    ∃ adds sent, serverStep fuel m table datagram =
        .ok (addAll table adds, sent) ∧
      adds.Sublist [putPair (m, datagram)] ∧
      (m.mallocOk = true → adds = [putPair (m, datagram)]) := by
  rw [serverStep_ofNul fuel m table hput.nul hput.two hmax]
  simp only
  rcases addHtableValue_noMem m.mallocOk table (cstr datagram)
    (putValue m datagram) with h | h
  · cases hok : m.mallocOk with
    | false =>
      rw [hok] at h
      rw [h]
      exact ⟨[], _, rfl, List.nil_sublist _, fun h => nomatch h⟩
    | true => exact ⟨[putPair (m, datagram)], _, rfl, List.Sublist.refl _,
        fun _ => rfl⟩
  · rw [h]
    exact ⟨[putPair (m, datagram)], _, rfl, List.Sublist.refl _, fun _ => rfl⟩

/-- What one pass does to the table. -/
theorem serverStep_cases {fuel : Nat} {m : ServerMem} {table table' : Htable}
    {datagram : List UInt8} {sent : List (List UInt8)}
    (hmax : datagram.length ≤ maxMsgSize)
    (h : serverStep fuel m table datagram = .ok (table', sent)) :
    table' = table ∨
      IsPut datagram ∧ table' = addAll table [putPair (m, datagram)] := by
  by_cases hnil : datagram = []
  · subst hnil
    rw [serverStep_ping] at h
    cases h
    exact Or.inl rfl
  have hpos : 0 < datagram.length := List.length_pos_iff.mpr hnil
  by_cases hnul : (0 : UInt8) ∈ datagram
  · by_cases htwo : 2 ≤ datagram.length
    · obtain ⟨adds, sent', hstep, hadds, _⟩ :=
        serverStep_isPut fuel m table ⟨hnul, htwo⟩ hmax
      rw [hstep] at h
      cases h
      rcases List.sublist_singleton.mp hadds with rfl | rfl
      · exact Or.inl rfl
      · exact Or.inr ⟨⟨hnul, htwo⟩, rfl⟩
    · -- A lone zero byte: the dump branch only reads the table.
      have hone : datagram.length = 1 := by omega
      rw [serverStep] at h
      simp only [List.take_of_length_le hmax] at h
      rw [if_neg (by omega),
        if_pos ((isSome_memchrNul datagram m.rest).mpr hnul), if_pos hone] at h
      split at h
      · cases h
      · cases h
      · cases h
        exact Or.inl rfl
  · rw [serverStep_noNul fuel m table hnul hnil hmax] at h
    cases h
    exact Or.inl rfl

/-! ## Runs -/

theorem serverLoop_cons {fuel : Nat} {table : Htable} {p : Pass}
    {passes : List Pass} {r : Htable × List (List (List UInt8))} :
    serverLoop fuel table (p :: passes) = .ok r ↔
      ∃ table' sent sents, serverStep fuel p.1 table p.2 = .ok (table', sent) ∧
        serverLoop fuel table' passes = .ok (r.1, sents) ∧
        r.2 = sent :: sents := by
  obtain ⟨m, datagram⟩ := p
  obtain ⟨table'', sents'⟩ := r
  rw [serverLoop]
  constructor
  · intro h
    split at h
    · cases h
    · rename_i table' sent hstep
      split at h
      · cases h
      · rename_i hrest
        cases h
        exact ⟨table', sent, _, hstep, hrest, rfl⟩
  · rintro ⟨table', sent, sents, hstep, hrest, rfl⟩
    simp only [hstep, hrest]

/-- The table of a run is built by adds of pairs that its puts carry. -/
theorem serverLoop_adds {fuel : Nat} : ∀ {passes : List Pass}
    {table : Htable} {r : Htable × List (List (List UInt8))},
    (∀ p ∈ passes, p.2.length ≤ maxMsgSize) →
    serverLoop fuel table passes = .ok r →
    ∃ adds, r.1 = addAll table adds ∧
      ∀ add ∈ adds, ∃ p ∈ passes, IsPut p.2 ∧ add = putPair p := by
  intro passes
  induction passes with
  | nil =>
    intro table r _ h
    cases h
    exact ⟨[], rfl, fun _ h => absurd h List.not_mem_nil⟩
  | cons p passes ih =>
    intro table r hmax h
    obtain ⟨table', sent, sents, hstep, hrest, _⟩ := serverLoop_cons.mp h
    obtain ⟨adds, htable, hadds⟩ :=
      ih (fun q hq => hmax q (List.mem_cons_of_mem _ hq)) hrest
    have hlater : ∀ add ∈ adds,
        ∃ q ∈ p :: passes, IsPut q.2 ∧ add = putPair q := by
      intro add hadd
      obtain ⟨q, hq, hput⟩ := hadds add hadd
      exact ⟨q, List.mem_cons_of_mem _ hq, hput⟩
    rcases serverStep_cases (hmax p List.mem_cons_self) hstep with
      rfl | ⟨hput, rfl⟩
    · exact ⟨adds, htable, hlater⟩
    · refine ⟨putPair p :: adds, htable, ?_⟩
      intro add hadd
      rcases List.mem_cons.mp hadd with rfl | hadd
      · exact ⟨p, List.mem_cons_self, hput, rfl⟩
      · exact hlater add hadd

/-- A run of puts has a result.  Without a failing allocation it adds exactly
the pairs of its datagrams. -/
theorem serverLoop_puts (fuel : Nat) : ∀ {passes : List Pass} (table : Htable),
    (∀ p ∈ passes, IsPut p.2 ∧ p.2.length ≤ maxMsgSize) →
    ∃ r, serverLoop fuel table passes = .ok r ∧
      ((∀ p ∈ passes, p.1.mallocOk = true) →
        r.1 = addAll table (passes.map putPair)) := by
  intro passes
  induction passes with
  | nil =>
    intro table _
    exact ⟨_, rfl, fun _ => rfl⟩
  | cons p passes ih =>
    intro table hput
    obtain ⟨hp, hmax⟩ := hput p List.mem_cons_self
    obtain ⟨adds, sent, hstep, _, hall⟩ :=
      serverStep_isPut fuel p.1 table hp hmax
    obtain ⟨r, hrest, htable⟩ := ih (addAll table adds)
      (fun q hq => hput q (List.mem_cons_of_mem _ hq))
    refine ⟨(r.1, sent :: r.2),
      serverLoop_cons.mpr ⟨_, sent, r.2, hstep, hrest, rfl⟩, ?_⟩
    intro hok
    rw [htable (fun q hq => hok q (List.mem_cons_of_mem _ hq)),
      hall (hok p List.mem_cons_self), List.map_cons]
    rfl

end PpsDht
