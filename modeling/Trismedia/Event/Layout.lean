import Mathlib.Tactic.Linarith
import Trismedia.Event.Model
/-!
# The layout of an event

What an event of given elements looks like, and how it is read and
written: appending keeps the layout while the length fits its 16 bits, a
walk yields the elements, and a search finds the first one of its type.
-/


namespace Trismedia

namespace Event

variable {behind : Behind} {block event a b data old pre post : List Octet} {i n p fuel : ℕ}
variable {type : EventType} {t : IeType} {ie : Ie} {ies more : List Ie}

/-! ## Octets in a block -/

/-- `data` stands in the block from the offset `i` on. -/
def StandsAt (block : List Octet) (i : ℕ) (data : List Octet) : Prop := data <+: block.drop i

theorem standsAt_mid : StandsAt (pre ++ data ++ post) pre.length data := by
  unfold StandsAt
  rw [List.append_assoc, List.drop_left]
  exact List.prefix_append _ _

theorem StandsAt.left (h : StandsAt block i (a ++ b)) : StandsAt block i a :=
  (List.prefix_append a b).trans h

theorem StandsAt.right (h : StandsAt block i (a ++ b)) : StandsAt block (i + a.length) b := by
  obtain ⟨post, hpost⟩ := h
  unfold StandsAt
  rw [← List.drop_drop, ← hpost, List.append_assoc, List.drop_left]
  exact List.prefix_append _ _

theorem StandsAt.length_le (h : StandsAt block i data) (hne : data ≠ []) :
    i + data.length ≤ block.length := by
  have hle := List.IsPrefix.length_le h
  rw [List.length_drop] at hle
  have hpos := List.length_pos_of_ne_nil hne
  omega

theorem StandsAt.octetAt {o : Octet} (h : StandsAt block i (o :: data)) :
    octetAt behind block i = some o := by
  obtain ⟨post, hpost⟩ := h
  have hget : block[i]? = some o := by
    rw [← Nat.add_zero i, ← List.getElem?_drop, ← hpost]
    rfl
  unfold Event.octetAt
  rw [hget]
  rfl

theorem StandsAt.tail {o : Octet} (h : StandsAt block i (o :: data)) :
    StandsAt block (i + 1) data := by
  have hsplit : o :: data = [o] ++ data := rfl
  rw [hsplit] at h
  exact h.right

theorem StandsAt.octetsAt (h : StandsAt block i data) :
    octetsAt behind block i data.length = some data := by
  induction data generalizing i with
  | nil => rfl
  | cons o data ih =>
    rw [List.length_cons, Event.octetsAt, h.octetAt, Option.bind_eq_bind, Option.bind_some,
      ih h.tail]
    rfl

theorem StandsAt.ntohsAt (h : StandsAt block i (htons n)) :
    ntohsAt behind block i = some (n % 65536) := by
  have hlo : StandsAt block (i + 1) [BitVec.ofNat 8 n] := h.tail
  unfold Event.ntohsAt
  rw [h.octetAt, hlo.octetAt]
  simp only [Option.bind_eq_bind, Option.bind_some, BitVec.toNat_ofNat, Option.some.injEq]
  omega

theorem StandsAt.ntohlAt {x : BitVec 32} (h : StandsAt block i (htonl x)) :
    ntohlAt behind block i = some x := by
  unfold Event.ntohlAt
  rw [h.octetAt, h.tail.octetAt, h.tail.tail.octetAt, h.tail.tail.tail.octetAt]
  simp only [Option.bind_eq_bind, Option.bind_some, Option.some.injEq]
  ext j hj
  simp only [BitVec.getElem_append, BitVec.getElem_extractLsb']
  grind

theorem StandsAt.uint32At {x : BitVec 32} (h : StandsAt block i (hostOrder x)) :
    uint32At behind block i = some x := by
  unfold Event.uint32At
  rw [h.octetAt, h.tail.octetAt, h.tail.tail.octetAt, h.tail.tail.tail.octetAt]
  simp only [Option.bind_eq_bind, Option.bind_some, Option.some.injEq]
  ext j hj
  simp only [BitVec.getElem_append, BitVec.getElem_extractLsb']
  grind

theorem StandsAt.stringAt {s : CString} (h : StandsAt block i (s ++ [0])) (hs : (0 : CChar) ∉ s)
    (hfuel : s.length < fuel) : stringAt behind block fuel i = some s := by
  induction s generalizing i fuel with
  | nil =>
    obtain ⟨fuel, rfl⟩ := Nat.exists_eq_add_one_of_ne_zero (by omega : fuel ≠ 0)
    rw [Event.stringAt, h.octetAt]
    rfl
  | cons c s ih =>
    obtain ⟨fuel, rfl⟩ := Nat.exists_eq_add_one_of_ne_zero (by omega : fuel ≠ 0)
    rw [List.mem_cons, not_or] at hs
    rw [List.length_cons] at hfuel
    have hrest : Event.stringAt behind block fuel (i + 1) = some s :=
      ih (StandsAt.tail h) hs.2 (by omega)
    rw [Event.stringAt, StandsAt.octetAt h, Option.bind_eq_bind, Option.bind_some,
      if_neg (Ne.symm hs.1), hrest]
    rfl

theorem memcpy_mid (hi : i = pre.length) (h : old.length = data.length) :
    memcpy (pre ++ (old ++ post)) i data = some (pre ++ (data ++ post)) := by
  have hle : pre.length + data.length ≤ (pre ++ (old ++ post)).length := by
    simp only [List.length_append]
    omega
  rw [hi, memcpy, if_pos hle, List.take_left, ← List.drop_drop, List.drop_left, ← h,
    List.drop_left, List.append_assoc]

/-! ## The elements of an event -/

/-- What stands behind the header of an element. -/
def IeData.payload : IeData → List Octet
  | .uint data => htonl data
  | .str s => hostOrder (Ao2.trisStrHash s.1) ++ s.1 ++ [0]
  | .raw data => data

def Ie.payload (ie : Ie) : List Octet := ie.data.payload

/-- `struct tris_event_ie` -/
def Ie.octets (ie : Ie) : List Octet :=
  htons ie.ieType.number ++ (htons ie.payload.length ++ ie.payload)

def body (ies : List Ie) : List Octet := ies.flatMap Ie.octets

/-- The length of an event with the elements `ies`. -/
def eventSize (ies : List Ie) : ℕ := 4 + (body ies).length

/-- An event with the elements `ies`. -/
def layout (type : EventType) (ies : List Ie) : List Octet :=
  htons type.number ++ (htons (eventSize ies) ++ body ies)

/-- What a walk yields of an element. -/
def Ie.entry (ie : Ie) : ℕ × List Octet := (ie.ieType.number, ie.payload)

/-- The first element of a type. -/
def firstOf (t : IeType) (ies : List Ie) : Option Ie := ies.find? fun ie => ie.ieType = t

@[simp] theorem htons_length (n : ℕ) : (htons n).length = 2 := rfl

theorem octets_length (ie : Ie) : ie.octets.length = 4 + ie.payload.length := by
  unfold Ie.octets
  simp only [List.length_append, htons_length]
  omega

@[simp] theorem body_nil : body [] = [] := rfl

@[simp] theorem body_cons : body (ie :: ies) = ie.octets ++ body ies := List.flatMap_cons

theorem body_append : body (ies ++ more) = body ies ++ body more := List.flatMap_append

theorem eventSize_append : eventSize (ies ++ more) = eventSize ies + (body more).length := by
  unfold eventSize
  rw [body_append, List.length_append]
  omega

theorem layout_length : (layout type ies).length = eventSize ies := by
  unfold layout eventSize
  simp only [List.length_append, htons_length]
  omega

theorem number_lt (t : IeType) : t.number < 65536 := by
  cases t <;> decide

theorem number_inj {u : IeType} (h : t.number = u.number) : t = u := by
  cases t <;> cases u <;> first | rfl | (exact absurd h (by decide))

theorem layout_body : StandsAt (layout type ies) 4 (body ies) := by
  have hsplit : layout type ies =
      (htons type.number ++ htons (eventSize ies)) ++ body ies ++ [] := by
    unfold layout
    rw [List.append_nil, List.append_assoc]
  rw [hsplit]
  exact standsAt_mid

/-- **The length field** of an event that fits. -/
theorem layout_eventLen (h : eventSize ies ≤ 65535) :
    ntohsAt behind (layout type ies) 2 = some (eventSize ies) := by
  have hstands : StandsAt (layout type ies) 2 (htons (eventSize ies)) := by
    unfold layout
    rw [← List.append_assoc]
    exact standsAt_mid
  rw [hstands.ntohsAt, Nat.mod_eq_of_lt (by omega)]

theorem layout_init (h : eventSize ies ≤ 65535) :
    eventIteratorInit behind (layout type ies) = some ⟨eventSize ies, 4⟩ := by
  unfold eventIteratorInit
  rw [layout_eventLen h]
  rfl

/-! ## Appending -/

/-- **An element is appended** while the length fits. -/
theorem eventAppendIeRaw_spec (h : eventSize (ies ++ [ie]) ≤ 65535) :
    eventAppendIeRaw (layout type ies) ie.ieType ie.payload = some (layout type (ies ++ [ie])) := by
  have hgrow : eventSize (ies ++ [ie]) = eventSize ies + 4 + ie.payload.length := by
    rw [eventSize_append, body_cons, body_nil, List.append_nil, octets_length]
    omega
  have hextra : (4 + ie.payload.length) % 2 ^ 32 = 4 + ie.payload.length :=
    Nat.mod_eq_of_lt (by omega)
  have hsize : (eventSize ies + (4 + ie.payload.length)) % 2 ^ 32 =
      eventSize ies + (4 + ie.payload.length) := Nat.mod_eq_of_lt (by omega)
  have hroom : realloc (layout type ies) (eventSize ies + (4 + ie.payload.length)) =
      layout type ies ++ (List.replicate 2 0 ++
        (List.replicate 2 0 ++ (List.replicate ie.payload.length 0 ++ []))) := by
    unfold realloc
    rw [layout_length, List.take_of_length_le (by rw [layout_length]; omega), List.append_nil,
      ← List.replicate_add, ← List.replicate_add]
    congr 2
    omega
  have hlen : (layout type ies).length = eventSize ies := layout_length
  rw [eventAppendIeRaw, layout_eventLen (by omega)]
  simp only [Option.bind_eq_bind, Option.bind_some]
  rw [hextra, hsize, hroom, memcpy_mid hlen.symm (by rfl), Option.bind_some, ← List.append_assoc,
    memcpy_mid (by simp [hlen]) (by rfl), Option.bind_some, ← List.append_assoc,
    memcpy_mid (by simp [hlen]) (by simp), Option.bind_some]
  -- the length in the header
  have hheader : layout type ies ++ htons ie.ieType.number ++ htons ie.payload.length ++
      (ie.payload ++ []) = htons type.number ++ (htons (eventSize ies) ++
        body (ies ++ [ie])) := by
    unfold layout
    rw [body_append, body_cons, body_nil]
    simp only [Ie.octets, List.append_assoc, List.append_nil]
  rw [hheader, memcpy_mid (by rfl) (by rfl), layout, hgrow, Nat.add_assoc]

/-- Each kind of element is appended as its payload. -/
theorem appendIe_eq (event : List Octet) (ie : Ie) :
    appendIe event ie = eventAppendIeRaw event ie.ieType ie.payload := by
  obtain ⟨t, d⟩ := ie
  cases d with
  | uint d => rfl
  | str s => rfl
  | raw d => rfl

theorem appendIe_spec (h : eventSize (ies ++ [ie]) ≤ 65535) :
    appendIe (layout type ies) ie = some (layout type (ies ++ [ie])) := by
  rw [appendIe_eq]
  exact eventAppendIeRaw_spec h

/-- **Elements appended one after the other.** -/
theorem appendAll_layout (h : eventSize (ies ++ more) ≤ 65535) :
    appendAll (layout type ies) more = some (layout type (ies ++ more)) := by
  induction more generalizing ies with
  | nil =>
    rw [List.append_nil]
    rfl
  | cons ie more ih =>
    have hsplit : ies ++ ie :: more = ies ++ [ie] ++ more := by simp
    rw [hsplit] at h ⊢
    have hfits : eventSize (ies ++ [ie]) ≤ 65535 := by
      rw [eventSize_append] at h
      omega
    unfold appendAll
    rw [List.foldlM_cons, appendIe_spec hfits]
    exact ih h

theorem appendAll_header (h : eventSize ies ≤ 65535) :
    appendAll (header type) ies = some (layout type ies) := by
  have h' : eventSize ([] ++ ies) ≤ 65535 := h
  exact appendAll_layout h'

/-! ## Walking -/

variable {iterator : EventIterator}

theorem StandsAt.ieType (h : StandsAt event i ie.octets) :
    eventIteratorGetIeType behind event ⟨n, i⟩ = some ie.ieType.number := by
  have htype : StandsAt event i (htons ie.ieType.number) := h.left
  unfold eventIteratorGetIeType
  rw [htype.ntohsAt, Nat.mod_eq_of_lt (number_lt _)]

theorem StandsAt.payloadLen (h : StandsAt event i ie.octets) (hlen : ie.payload.length < 65536) :
    Event.ntohsAt behind event (i + 2) = some ie.payload.length := by
  have hfield : StandsAt event (i + 2) (htons ie.payload.length) := h.right.left
  rw [hfield.ntohsAt, Nat.mod_eq_of_lt hlen]

theorem StandsAt.payload (h : StandsAt event i ie.octets) : StandsAt event (i + 4) ie.payload :=
  StandsAt.right (StandsAt.right h)

theorem StandsAt.ieRaw (h : StandsAt event i ie.octets) (hlen : ie.payload.length < 65536) :
    eventIteratorGetIeRaw behind event ⟨n, i⟩ = some ie.payload := by
  unfold eventIteratorGetIeRaw
  rw [h.payloadLen hlen, Option.bind_eq_bind, Option.bind_some, h.payload.octetsAt]

theorem StandsAt.next (h : StandsAt event i ie.octets) (hlen : ie.payload.length < 65536) :
    eventIteratorNext behind event ⟨n, i⟩ =
      some (⟨n, i + ie.octets.length⟩, decide (n ≤ i + ie.octets.length)) := by
  unfold eventIteratorNext
  rw [h.payloadLen hlen, octets_length, ← Nat.add_assoc]
  rfl

/-- The walk goes on while there are elements. -/
theorem ended_iff (hn : n = i + ie.octets.length + (body ies).length) :
    n ≤ i + ie.octets.length ↔ ies = [] := by
  cases ies with
  | nil => simpa using hn.le
  | cons u ies =>
    rw [body_cons, List.length_append, octets_length u] at hn
    constructor
    · intro hle
      omega
    · intro h
      cases h

/-- **A walk from any element on.** -/
theorem walkFrom_spec (hies : ies ≠ []) (hstands : StandsAt event i (body ies))
    (hn : n = i + (body ies).length) (hfit : n ≤ 65535) (hfuel : ies.length ≤ fuel) :
    walkFrom behind event fuel ⟨n, i⟩ = some (ies.map Ie.entry) := by
  induction ies generalizing i fuel with
  | nil => exact absurd rfl hies
  | cons ie ies ih =>
    rw [List.length_cons] at hfuel
    obtain ⟨fuel, rfl⟩ := Nat.exists_eq_add_one_of_ne_zero (by omega : fuel ≠ 0)
    rw [body_cons] at hstands
    rw [body_cons, List.length_append, ← Nat.add_assoc] at hn
    have hoctets := octets_length ie
    have hlen : ie.payload.length < 65536 := by omega
    have hie : StandsAt event i ie.octets := hstands.left
    rw [walkFrom, hie.ieType, hie.ieRaw hlen, hie.next hlen]
    simp only [Option.bind_eq_bind, Option.bind_some, decide_eq_true_eq]
    by_cases hlast : ies = []
    · rw [if_pos ((ended_iff hn).2 hlast), hlast]
      rfl
    · rw [if_neg fun hle => hlast ((ended_iff hn).1 hle),
        ih hlast hstands.right hn (by omega)]
      rfl

theorem length_le_body (ies : List Ie) : 4 * ies.length ≤ (body ies).length := by
  induction ies with
  | nil => exact le_rfl
  | cons ie ies ih =>
    rw [body_cons, List.length_append, List.length_cons, octets_length]
    omega

/-- **A walk over an event that fits yields its elements.** -/
theorem walk_layout (hies : ies ≠ []) (hfit : eventSize ies ≤ 65535) :
    walk behind (layout type ies) = some (ies.map Ie.entry) := by
  have hle := length_le_body ies
  unfold walk
  rw [layout_init hfit, Option.bind_eq_bind, Option.bind_some]
  refine walkFrom_spec hies layout_body rfl hfit ?_
  change ies.length ≤ 4 + (body ies).length + 1
  omega

/-! ## Looking for an element -/

/-- What a pointer into an event says of an element looked for. -/
def Points (event : List Octet) : Option ℕ → Option Ie → Prop
  | none, none => True
  | some p, some ie => StandsAt event p ie.payload
  | _, _ => False

theorem getIeRawLoop_spec (hies : ies ≠ []) (hstands : StandsAt event i (body ies))
    (hn : n = i + (body ies).length) (hfit : n ≤ 65535) (hfuel : ies.length ≤ fuel) :
    ∃ q, getIeRawLoop behind event t fuel ⟨n, i⟩ = some q ∧ Points event q (firstOf t ies) := by
  induction ies generalizing i fuel with
  | nil => exact absurd rfl hies
  | cons ie ies ih =>
    rw [List.length_cons] at hfuel
    obtain ⟨fuel, rfl⟩ := Nat.exists_eq_add_one_of_ne_zero (by omega : fuel ≠ 0)
    rw [body_cons] at hstands
    rw [body_cons, List.length_append, ← Nat.add_assoc] at hn
    have hoctets := octets_length ie
    have hlen : ie.payload.length < 65536 := by omega
    have hie : StandsAt event i ie.octets := hstands.left
    rw [getIeRawLoop, hie.ieType, Option.bind_eq_bind, Option.bind_some]
    by_cases ht : ie.ieType = t
    · refine ⟨some (i + 4), by rw [if_pos (congrArg _ ht)], ?_⟩
      have hfirst : firstOf t (ie :: ies) = some ie := List.find?_cons_of_pos (by simpa using ht)
      rw [hfirst]
      exact hie.payload
    · have hskip : firstOf t (ie :: ies) = firstOf t ies :=
        List.find?_cons_of_neg (by simpa using ht)
      rw [if_neg fun h => ht (number_inj h), hie.next hlen, hskip]
      simp only [Option.bind_eq_bind, Option.bind_some, decide_eq_true_eq]
      by_cases hlast : ies = []
      · rw [if_pos ((ended_iff hn).2 hlast), hlast]
        exact ⟨none, rfl, trivial⟩
      · rw [if_neg fun hle => hlast ((ended_iff hn).1 hle)]
        exact ih hlast hstands.right hn (by omega)

variable (behind type) in
/-- **The first element of the type is found.** -/
theorem eventGetIeRaw_layout (hies : ies ≠ []) (hfit : eventSize ies ≤ 65535) (t : IeType) :
    ∃ q, eventGetIeRaw behind (layout type ies) t = some q ∧
      Points (layout type ies) q (firstOf t ies) := by
  have hle := length_le_body ies
  unfold eventGetIeRaw
  rw [layout_init hfit, Option.bind_eq_bind, Option.bind_some]
  refine getIeRawLoop_spec hies layout_body rfl hfit ?_
  change ies.length ≤ 4 + (body ies).length + 1
  omega

/-- **What the functions that look for an element return.** An element is
read with the function that goes with the one that appended it. -/
structure Looked (behind : Behind) (event : List Octet) (t : IeType) (first : Option Ie) : Prop where
  raw : ∃ q, eventGetIeRaw behind event t = some q ∧ Points event q first
  notFound : first = none → eventGetIeUint behind event t = some 0 ∧
    eventGetIeStrHash behind event t = some 0 ∧ eventGetIeStr behind event t = some none
  uint : ∀ d, first.map Ie.data = some (.uint d) → eventGetIeUint behind event t = some d
  str : ∀ s : Text, first.map Ie.data = some (.str s) →
    eventGetIeStrHash behind event t = some (Ao2.trisStrHash s.1) ∧
      eventGetIeStr behind event t = some (some s.1)

theorem looked_of_points {q : Option ℕ} {first : Option Ie}
    (hq : eventGetIeRaw behind event t = some q) (hpoints : Points event q first) :
    Looked behind event t first where
  raw := ⟨q, hq, hpoints⟩
  notFound := by
    rintro rfl
    cases q with
    | none =>
      unfold eventGetIeUint eventGetIeStrHash eventGetIeStr
      rw [hq]
      exact ⟨rfl, rfl, rfl⟩
    | some p => exact hpoints.elim
  uint := by
    intro d hd
    obtain ⟨ie, rfl, hdata⟩ := Option.map_eq_some_iff.1 hd
    cases q with
    | none => exact hpoints.elim
    | some p =>
      have hstands : StandsAt event p (htonl d) := by
        have hpay : ie.payload = htonl d := by
          unfold Ie.payload
          rw [hdata]
          rfl
        exact hpay ▸ hpoints
      unfold eventGetIeUint
      rw [hq]
      exact hstands.ntohlAt
  str := by
    intro s hs
    obtain ⟨ie, rfl, hdata⟩ := Option.map_eq_some_iff.1 hs
    cases q with
    | none => exact hpoints.elim
    | some p =>
      have hstands : StandsAt event p (hostOrder (Ao2.trisStrHash s.1) ++ (s.1 ++ [0])) := by
        have hpay : ie.payload = hostOrder (Ao2.trisStrHash s.1) ++ (s.1 ++ [0]) := by
          unfold Ie.payload
          rw [hdata, ← List.append_assoc]
          rfl
        exact hpay ▸ hpoints
      have htext : StandsAt event (p + 4) (s.1 ++ [0]) := hstands.right
      have hroom := htext.length_le (by simp)
      rw [List.length_append, List.length_singleton] at hroom
      unfold eventGetIeStrHash eventGetIeStr
      rw [hq]
      simp only [Option.bind_eq_bind, Option.bind_some]
      rw [htext.stringAt s.2 (by omega)]
      exact ⟨hstands.left.uint32At, rfl⟩

variable (behind type) in
theorem looked_layout (hies : ies ≠ []) (hfit : eventSize ies ≤ 65535) (t : IeType) :
    Looked behind (layout type ies) t (firstOf t ies) := by
  obtain ⟨q, hq, hpoints⟩ := eventGetIeRaw_layout behind type hies hfit t
  exact looked_of_points hq hpoints

end Event

/-!
## Building events

An event is built by `tris_event_new`, which adds the entity id of this
server when none is given, and may be appended to after that. It is good
exactly when at least one element was given and all of it fits the 16
bits of `event_len`.
-/

namespace Event

variable {behind : Behind} {block event data : List Octet} {i n fuel : ℕ} {eidDefault : Eid}
variable {type : EventType} {ie : Ie} {ies more pre : List Ie} {iterator : EventIterator}

/-! ## A new event -/

/-- The elements of a new event. -/
def withEid (eidDefault : Eid) (ies : List Ie) : List Ie :=
  if (firstOf .eid ies).isSome then ies else ies ++ [⟨.eid, .raw (List.ofFn eidDefault)⟩]

theorem prefix_withEid : ies <+: withEid eidDefault ies := by
  unfold withEid
  split
  · exact List.prefix_rfl
  · exact List.prefix_append _ _

theorem eventSize_mono (h : pre <+: ies) : eventSize pre ≤ eventSize ies := by
  obtain ⟨post, rfl⟩ := h
  rw [eventSize_append]
  exact Nat.le_add_right _ _

/-- **A new event** has the elements given to it and an entity id. -/
theorem eventNew_layout (hies : ies ≠ []) (hfit : eventSize (withEid eidDefault ies) ≤ 65535) :
    eventNew behind eidDefault type ies = some (layout type (withEid eidDefault ies)) := by
  have hfit' : eventSize ies ≤ 65535 := (eventSize_mono prefix_withEid).trans hfit
  obtain ⟨q, hq, hpoints⟩ := eventGetIeRaw_layout behind type hies hfit' .eid
  unfold eventNew
  rw [appendAll_header hfit']
  simp only [Option.bind_eq_bind, Option.bind_some, hq]
  cases hfirst : firstOf .eid ies with
  | none =>
    have hwith : withEid eidDefault ies = ies ++ [⟨.eid, .raw (List.ofFn eidDefault)⟩] := by
      unfold withEid
      rw [hfirst]
      rfl
    rw [hwith] at hfit ⊢
    rw [hfirst] at hpoints
    cases q with
    | none => exact appendIe_spec hfit
    | some p => exact hpoints.elim
  | some ie =>
    have hwith : withEid eidDefault ies = ies := by
      unfold withEid
      rw [hfirst]
      rfl
    rw [hwith]
    rw [hfirst] at hpoints
    cases q with
    | none => exact hpoints.elim
    | some p => rfl

/-- **Without an element it is read past its end.** -/
theorem eventNew_nil : eventNew guarded eidDefault type [] = none := by
  have hinit : eventIteratorInit guarded (header type) = some ⟨4, 4⟩ := by
    have hempty : header type = layout type [] := rfl
    rw [hempty]
    exact layout_init (by decide)
  have hpast : eventIteratorGetIeType guarded (header type) ⟨4, 4⟩ = none := rfl
  have hraw : eventGetIeRaw guarded (header type) .eid = none := by
    unfold eventGetIeRaw
    rw [hinit, Option.bind_eq_bind, Option.bind_some, getIeRawLoop, hpast]
    rfl
  have happend : appendAll (header type) [] = some (header type) := rfl
  unfold eventNew
  rw [happend]
  simp only [Option.bind_eq_bind, Option.bind_some, hraw, Option.bind_none]

/-! ## What a walk has read -/

theorem ntohsAt_guarded (h : ntohsAt guarded block i = some n) :
    i + 2 ≤ block.length ∧ n < 65536 := by
  unfold ntohsAt at h
  obtain ⟨hi, -, hrest⟩ := Option.bind_eq_some_iff.1 h
  obtain ⟨lo, hlo, hret⟩ := Option.bind_eq_some_iff.1 hrest
  have hget : block[i + 1]? = some lo := by
    unfold octetAt guarded at hlo
    simpa using hlo
  obtain ⟨hlt, -⟩ := List.getElem?_eq_some_iff.1 hget
  rw [Option.some.injEq] at hret
  have hhi := hi.isLt
  have hlo' := lo.isLt
  omega

theorem octetsAt_guarded (h : octetsAt guarded block i n = some data) :
    data.length = n ∧ (i ≤ block.length → i + n ≤ block.length) := by
  induction n generalizing i data with
  | zero =>
    rw [octetsAt, Option.some.injEq] at h
    rw [← h]
    exact ⟨rfl, fun hi => hi⟩
  | succ n ih =>
    rw [octetsAt] at h
    obtain ⟨o, ho, hrest⟩ := Option.bind_eq_some_iff.1 h
    obtain ⟨rest, hoctets, hret⟩ := Option.bind_eq_some_iff.1 hrest
    have hget : block[i]? = some o := by
      unfold octetAt guarded at ho
      simpa using ho
    obtain ⟨hlt, -⟩ := List.getElem?_eq_some_iff.1 hget
    obtain ⟨hlen, hle⟩ := ih hoctets
    have hle' := hle hlt
    rw [Option.some.injEq] at hret
    rw [← hret, List.length_cons]
    exact ⟨by omega, fun _ => by omega⟩

/-- **All that a walk yields stands in the block.** -/
theorem walkFrom_guarded {l : List (ℕ × List Octet)}
    (h : walkFrom guarded event fuel iterator = some l) :
    iterator.ie + (l.map fun x => 4 + x.2.length).sum ≤ event.length := by
  induction fuel generalizing iterator l with
  | zero => cases h
  | succ fuel ih =>
    rw [walkFrom] at h
    obtain ⟨t, -, hrest⟩ := Option.bind_eq_some_iff.1 h
    obtain ⟨payload, hpay, hrest⟩ := Option.bind_eq_some_iff.1 hrest
    obtain ⟨⟨iterator', ended⟩, hnext, hrest⟩ := Option.bind_eq_some_iff.1 hrest
    unfold eventIteratorGetIeRaw at hpay
    obtain ⟨len, hlen, hoctets⟩ := Option.bind_eq_some_iff.1 hpay
    obtain ⟨hin, -⟩ := ntohsAt_guarded hlen
    obtain ⟨hpaylen, hend⟩ := octetsAt_guarded hoctets
    have hend' := hend (by omega)
    unfold eventIteratorNext at hnext
    rw [hlen, Option.bind_eq_bind, Option.bind_some, Option.some.injEq, Prod.mk.injEq] at hnext
    have hie : iterator'.ie = iterator.ie + 4 + len := by rw [← hnext.1]
    simp only at hrest
    by_cases hended : ended = true
    · rw [if_pos hended, Option.some.injEq] at hrest
      rw [← hrest]
      simp only [List.map_cons, List.map_nil, List.sum_cons, List.sum_nil]
      omega
    · rw [if_neg hended] at hrest
      obtain ⟨l', hl', hret⟩ := Option.bind_eq_some_iff.1 hrest
      rw [Option.some.injEq] at hret
      have hle := ih hl'
      rw [← hret, List.map_cons, List.sum_cons, hpaylen]
      omega

theorem sum_entries (ies : List Ie) :
    ((ies.map Ie.entry).map fun x => 4 + x.2.length).sum = (body ies).length := by
  induction ies with
  | nil => rfl
  | cons ie ies ih =>
    rw [List.map_cons, List.map_cons, List.sum_cons, ih, body_cons, List.length_append,
      octets_length]
    rfl

theorem walk_guarded (h : walk guarded event = some (ies.map Ie.entry)) :
    eventSize ies ≤ event.length := by
  unfold walk at h
  obtain ⟨iterator, hinit, hwalk⟩ := Option.bind_eq_some_iff.1 h
  unfold eventIteratorInit at hinit
  obtain ⟨n, -, hret⟩ := Option.bind_eq_some_iff.1 hinit
  rw [Option.some.injEq] at hret
  have hle := walkFrom_guarded hwalk
  rw [sum_entries, ← hret] at hle
  exact hle

/-! ## Good events -/

/-- All the octets of the block, so all that was written to it and all
that can be read from it, are among the `event_len` octets of the event. -/
def Inside (event : List Octet) : Prop :=
  ∃ n, eventGetSize guarded event = some n ∧ event.length ≤ n

/-- **What is expected of an event** made with the elements `ies` and
appended to with `more`. -/
structure EventGood (eidDefault : Eid) (type : EventType) (ies more : List Ie) : Prop where
  /-- Each append writes inside the event. -/
  written : ∀ pre, pre <+: withEid eidDefault ies ++ more →
    ∃ event, appendAll (header type) pre = some event ∧ Inside event
  /-- The event is made, and nothing but it is read. -/
  made : ∃ event, (eventNew guarded eidDefault type ies).bind (fun event => appendAll event more) =
      some event ∧ Inside event ∧ eventGetType guarded event = some type.number ∧
    walk guarded event = some ((withEid eidDefault ies ++ more).map Ie.entry) ∧
    ∀ t, Looked guarded event t (firstOf t (withEid eidDefault ies ++ more))

theorem layout_inside (hfit : eventSize ies ≤ 65535) : Inside (layout type ies) :=
  ⟨eventSize ies, layout_eventLen hfit, layout_length.le⟩

theorem layout_type : eventGetType behind (layout type ies) = some type.number := by
  have hstands : StandsAt (layout type ies) 0 (htons type.number) := by
    unfold layout
    exact List.prefix_append _ _
  unfold eventGetType
  rw [hstands.ntohsAt]
  cases type <;> rfl

/-- **An event is good exactly when an element was given and it fits.** -/
theorem event_good_iff (eidDefault : Eid) (type : EventType) (ies more : List Ie) :
    EventGood eidDefault type ies more ↔
      ies ≠ [] ∧ eventSize (withEid eidDefault ies ++ more) ≤ 65535 := by
  constructor
  · intro hgood
    obtain ⟨event, hmade, ⟨n, hsize, hle⟩, -, hwalk, -⟩ := hgood.made
    constructor
    · rintro rfl
      rw [eventNew_nil] at hmade
      cases hmade
    · have hread := walk_guarded hwalk
      have hlen := (ntohsAt_guarded hsize).2
      omega
  · rintro ⟨hies, hfit⟩
    have hnew : eventSize (withEid eidDefault ies) ≤ 65535 :=
      (eventSize_mono (List.prefix_append _ _)).trans hfit
    have hne : withEid eidDefault ies ++ more ≠ [] := by
      intro h
      have hpre : ies <+: withEid eidDefault ies := prefix_withEid
      rw [(List.append_eq_nil_iff.1 h).1] at hpre
      exact hies (List.prefix_nil.1 hpre)
    refine ⟨fun pre hpre => ?_, layout type (withEid eidDefault ies ++ more), ?_,
      layout_inside hfit, layout_type, walk_layout hne hfit, looked_layout guarded type hne hfit⟩
    · have hpre' : eventSize pre ≤ 65535 := (eventSize_mono hpre).trans hfit
      exact ⟨layout type pre, appendAll_header hpre', layout_inside hpre'⟩
    · rw [eventNew_layout hies hnew, Option.bind_some, appendAll_layout hfit]

/-- An event without elements is read past its four octets. -/
theorem not_eventGood_of_empty : ¬ EventGood (fun _ => 0) .custom [] [] := by
  intro hgood
  obtain ⟨event, hmade, -⟩ := hgood.made
  rw [eventNew_nil] at hmade
  cases hmade

end Event

end Trismedia
