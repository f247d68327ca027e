import PpsDht.ServersScan

/-!
# The address buffer of `get_nodes`

`getNodesStores` lists the indices at which a run of `get_nodes` stores into
`ip`, which has 16 bytes.  The index is not checked: it starts again with each
line and grows by one with each byte of the field.  So the stores stay within
the buffer as long as each field that the run gets to has at most 16 bytes
(`getNodes_inBounds_iff`).

`InField` says what every state of the outer loop looks like: some place that
the run gets to, and a part of its field that has been read.
-/

namespace PpsDht

open CMem

/-! ## The stores -/

/-- The index at which a pass of the outer loop stores into `ip`. -/
def passStore (env : Env) (fuel : Nat) (st : ParseState) : Option Nat :=
  if st.file.eof then none
  else if isspaceInt st.currentChar then
    match parseEntry env fuel st with
    | .error _ => none
    | .ok none => none
    | .ok (some st) => some st.ip.length
  else some st.ip.length

/-- The indices of the stores into `ip`, in the order of the run. -/
def getNodesStores (env : Env) (fuel : Nat) (content : List UInt8) : List Nat :=
  (Loop.visited (getNodesBody env fuel) fuel
    (Place.state ⟨[], content⟩ nodeListNew)).filterMap (passStore env fuel)

/-- A pass stores exactly when the loop goes on, and then one byte. -/
theorem passStore_eq_some_iff (env : Env) (fuel : Nat) (st : ParseState)
    (i : Nat) :
    passStore env fuel st = some i ↔
      ∃ st', getNodesBody env fuel st = .again st' ∧ st'.ip.length = i + 1 := by
  have hstore : ∀ st : ParseState,
      some st.ip.length = some i ↔ ∃ st' : ParseState,
        Loop.Step.again (storeChar st) =
          (.again st' : Loop.Step ParseState (Except Fault (Option NodeList))) ∧
        st'.ip.length = i + 1 := by
    intro st
    have hlen : (storeChar st).ip.length = st.ip.length + 1 := by
      rw [storeChar, List.length_append, List.length_singleton]
    constructor
    · intro h
      cases h
      exact ⟨storeChar st, rfl, hlen⟩
    · rintro ⟨st', h, hlen'⟩
      cases h
      rw [hlen] at hlen'
      exact congrArg some (Nat.succ.inj hlen')
  have hdone : ∀ r : Except Fault (Option NodeList),
      (none : Option Nat) = some i ↔ ∃ st' : ParseState,
        Loop.Step.done r =
          (.again st' : Loop.Step ParseState (Except Fault (Option NodeList))) ∧
        st'.ip.length = i + 1 := by
    intro r
    constructor
    · intro h
      cases h
    · rintro ⟨st', h, _⟩
      cases h
  rw [passStore, getNodesBody]
  by_cases heof : st.file.eof = true
  · rw [if_pos heof, if_pos heof]
    exact hdone _
  rw [if_neg heof, if_neg heof]
  by_cases hspace : isspaceInt st.currentChar = true
  · rw [if_pos hspace, if_pos hspace]
    cases parseEntry env fuel st with
    | error fault => exact hdone _
    | ok result =>
      cases result with
      | none => exact hdone _
      | some st' => exact hstore st'
  · rw [if_neg hspace, if_neg hspace]
    exact hstore st

/-! ## The states of the run -/

/-- The field is read up to some byte of it. -/
def InField (content : List UInt8) (st : ParseState) : Prop :=
  ∃ p nodes chars text, Reached content p ∧ p.text = chars ++ text ∧
    (∀ c ∈ chars, isspace c = false) ∧
    st = parseAt text (p.ip ++ chars) nodes

theorem not_isspace_eq_true {chars : List UInt8}
    (h : ∀ c ∈ chars, isspace c = false) : ∀ c ∈ chars, (!isspace c) = true := by
  intro c hc
  rw [h c hc]
  rfl

theorem InField.length_le {content : List UInt8} {st : ParseState}
    (h : InField content st) :
    ∃ p, Reached content p ∧ st.ip.length ≤ p.field.length := by
  obtain ⟨p, nodes, chars, text, hreach, htext, hchars, rfl⟩ := h
  refine ⟨p, hreach, ?_⟩
  rw [Place.field, htext,
    List.takeWhile_append_of_pos (not_isspace_eq_true hchars),
    ← List.append_assoc, List.length_append]
  exact Nat.le_add_right _ _

/-- Where white space follows, all of the field is read. -/
theorem stop_of_isspace {p : Place} {chars : List UInt8} {b : UInt8}
    {text : List UInt8} (h : p.text = chars ++ b :: text)
    (hchars : ∀ c ∈ chars, isspace c = false) (hb : isspace b = true)
    (nodes : NodeList) :
    parseAt (b :: text) (p.ip ++ chars) nodes = p.stop nodes := by
  have hpos := not_isspace_eq_true hchars
  have hrest : p.rest = b :: text := by
    rw [Place.rest, h, List.dropWhile_append_of_pos hpos, List.dropWhile_cons,
      hb]
    rfl
  have hfield : p.field = p.ip ++ chars := by
    rw [Place.field, h, List.takeWhile_append_of_pos hpos, List.takeWhile_cons,
      hb]
    exact congrArg (p.ip ++ ·) (List.append_nil chars)
  rw [Place.stop, hrest, hfield]

/-- A pass reads one more byte of the field, or goes on at the next place. -/
theorem InField.step {env : Env} {fuel : Nat} {content : List UInt8}
    (st st' : ParseState) (h : InField content st)
    (hbody : getNodesBody env fuel st = .again st') : InField content st' := by
  obtain ⟨p, nodes, chars, text, hreach, htext, hchars, rfl⟩ := h
  cases text with
  | nil => cases hbody
  | cons b text =>
    cases hb : isspace b with
    | false =>
      rw [getNodesBody_char env fuel hb] at hbody
      cases hbody
      refine ⟨p, nodes, chars ++ [b], text, hreach, ?_, ?_, ?_⟩
      · rw [htext, List.append_assoc, List.singleton_append]
      · intro c hc
        rcases List.mem_append.mp hc with hc | hc
        · exact hchars c hc
        · rw [List.mem_singleton.mp hc, hb]
      · rw [List.append_assoc]
    | true =>
      rw [stop_of_isspace htext hchars hb] at hbody
      cases hread : p.read with
      | file =>
        rw [getNodesBody_file env fuel hread] at hbody
        cases hbody
      | null =>
        obtain ⟨_, r, hdone⟩ := getNodesBody_null env fuel hread nodes
        rw [hdone] at hbody
        cases hbody
      | entry behind =>
        by_cases hline : 10 ∈ behind
        · have hnext := Place.next_of_line hread hline
          obtain ⟨nodes', _, _, hor⟩ := getNodesBody_line env hnext nodes
          rcases hor fuel with hagain | hdone
          · rw [hagain] at hbody
            cases hbody
            refine ⟨_, nodes', [], _, hreach.tail hnext, rfl, ?_, ?_⟩
            · exact List.forall_mem_nil _
            · rw [List.append_nil]
              rfl
          · rw [hdone] at hbody
            cases hbody
        · rw [getNodesBody_unfinished env fuel hread hline] at hbody
          cases hbody

/-- The run gets to each place, given enough fuel. -/
theorem leads_reached (env : Env) {content : List UInt8} {p : Place}
    (h : Reached content p) :
    ∃ fuel₀ n nodes, ∀ fuel, fuel₀ ≤ fuel →
      Loop.Leads (getNodesBody env fuel) n
        (Place.state ⟨[], content⟩ nodeListNew) (p.state nodes) := by
  induction h with
  | refl => exact ⟨0, 0, nodeListNew, fun _ _ => rfl⟩
  | @tail p q _ hnext ih =>
    obtain ⟨fuel₀, n, nodes, hleads⟩ := ih
    obtain ⟨nodes', fuel₁, hline, _⟩ := getNodesBody_line env hnext nodes
    refine ⟨max fuel₀ fuel₁, n + (p.text.takeWhile
      (fun c => !isspace c)).length + 1, nodes', fun fuel hfuel => ?_⟩
    have hpass : Loop.Leads (getNodesBody env fuel) 1 (p.stop nodes)
        (q.state nodes') := ⟨_, hline fuel (by omega), rfl⟩
    exact hpass.trans
      ((p.leads_stop env fuel nodes).trans (hleads fuel (by omega)))

/-- At most one byte is stored where a place begins. -/
theorem Reached.length_ip_le {content : List UInt8} {p : Place}
    (h : Reached content p) : p.ip.length ≤ 1 := by
  cases h with
  | refl => exact Nat.zero_le 1
  | tail _ hnext =>
    obtain ⟨comment, tail, _, _, rfl⟩ := Place.next_eq_some hnext
    exact Nat.le_refl 1

/-! ## The bound -/

/-- Each byte of a field but the first is stored behind the one before. -/
theorem mem_getNodesStores (env : Env) {content : List UInt8} {p : Place}
    (h : Reached content p) {i : Nat} (hip : p.ip.length ≤ i)
    (hi : i < p.field.length) : ∃ fuel, i ∈ getNodesStores env fuel content := by
  obtain ⟨fuel₀, n, nodes, hleads⟩ := leads_reached env h
  -- The byte of the field that is stored at `i`.
  obtain ⟨chars, c, behind, hfield, hlen⟩ : ∃ chars c behind,
      p.text.takeWhile (fun c => !isspace c) = chars ++ c :: behind ∧
      p.ip.length + chars.length = i := by
    have hlt : i - p.ip.length <
        (p.text.takeWhile (fun c => !isspace c)).length := by
      rw [Place.field, List.length_append] at hi
      omega
    obtain ⟨c, behind, hdrop⟩ : ∃ c behind, (p.text.takeWhile
        (fun c => !isspace c)).drop (i - p.ip.length) = c :: behind :=
      ⟨_, _, List.drop_eq_getElem_cons hlt⟩
    refine ⟨(p.text.takeWhile (fun c => !isspace c)).take (i - p.ip.length),
      c, behind, ?_, ?_⟩
    · rw [← hdrop]
      exact (List.take_append_drop _ _).symm
    · rw [List.length_take]
      omega
  have hspace : ∀ b ∈ chars ++ c :: behind, isspace b = false := by
    intro b hb
    rw [← hfield] at hb
    have himp := List.mem_takeWhile_imp hb
    simpa using himp
  have htext : p.text = chars ++ (c :: behind ++ p.rest) := by
    rw [← List.append_assoc, ← hfield]
    exact List.takeWhile_append_dropWhile.symm
  have hread := fun fuel => leads_chars env fuel (c :: behind ++ p.rest) nodes
    p.ip (fun b hb => hspace b (List.mem_append_left _ hb))
  refine ⟨fuel₀ + (n + chars.length) + 1, List.mem_filterMap.mpr
    ⟨parseAt (c :: behind ++ p.rest) (p.ip ++ chars) nodes, ?_, ?_⟩⟩
  · refine Loop.Leads.mem_visited fuel₀ ((hread _).trans ?_)
    rw [← htext]
    exact hleads _ (by omega)
  · rw [passStore_eq_some_iff]
    refine ⟨_, getNodesBody_char env _ (hspace c (List.mem_append_right _
      List.mem_cons_self)) (behind ++ p.rest) _ nodes, ?_⟩
    show (p.ip ++ chars ++ [c]).length = i + 1
    rw [List.length_append, List.length_append, hlen]
    rfl

/-- The stores of `get_nodes` stay within `ip` exactly when no field that it
gets to is longer. -/
theorem getNodes_inBounds_iff (env : Env) (content : List UInt8) :
    (∀ fuel, ∀ i ∈ getNodesStores env fuel content, i ≤ 15) ↔
      ∀ p, Reached content p → p.field.length ≤ 16 := by
  constructor
  · intro h p hreach
    by_contra hlong
    have hip := hreach.length_ip_le
    obtain ⟨fuel, hmem⟩ := mem_getNodesStores env hreach
      (show p.ip.length ≤ 16 by omega) (by omega)
    exact absurd (h fuel 16 hmem) (by decide)
  · intro h fuel i hi
    obtain ⟨st, hst, hstore⟩ := List.mem_filterMap.mp hi
    obtain ⟨st', hagain, hlen⟩ := (passStore_eq_some_iff env fuel st i).mp hstore
    have hstart : InField content (Place.state ⟨[], content⟩ nodeListNew) :=
      ⟨⟨[], content⟩, nodeListNew, [], content, Relation.ReflTransGen.refl, rfl,
        List.forall_mem_nil _, rfl⟩
    have hfield := Loop.visited_inv (InField content) InField.step hstart st hst
    obtain ⟨p, hreach, hle⟩ := (InField.step st st' hfield hagain).length_le
    have hbound := h p hreach
    omega

/-- A first field of 17 bytes, `x` each time, and a newline. -/
def longField : List UInt8 := List.replicate 17 120 ++ [10]

theorem longField_overflows :
    ¬ ∀ (env : Env) (content : List UInt8), Terminates env content →
      ∀ fuel, ∀ i ∈ getNodesStores env fuel content, i ≤ 15 := by
  intro h
  have hlength : (Place.field ⟨[], longField⟩).length = 17 := by decide
  obtain ⟨fuel, hmem⟩ := mem_getNodesStores { SHA1 := id, pastSpace := [] }
    (p := ⟨[], longField⟩) (i := 16) Relation.ReflTransGen.refl
    (Nat.zero_le 16) (by rw [hlength]; decide)
  exact absurd (h _ longField (terminates_of_newline _ _) fuel 16 hmem)
    (by decide)

end PpsDht
