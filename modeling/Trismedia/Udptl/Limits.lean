import Trismedia.Udptl.Layout
/-!
# UDPTL — the limits of a session

What the far end accepts, what it lets the near end send, and the writes
under that limit. The factor 0.95 is taken for the rational and rounded
down. A call is `none` where it writes outside, or converts a number that
an `int` does not hold.
-/


namespace Trismedia

namespace Udptl

/-- `DEFAULT_FAX_MAX_DATAGRAM` -/
def defaultFaxMaxDatagram : ℕ := 400

/-- `FAX_MAX_DATAGRAM_LIMIT` -/
def faxMaxDatagramLimit : ℕ := 1400

/-- What `struct tris_udptl` holds to send, with its limits. -/
structure TrisUdptl where
  tx : UdptlTx
  farMaxDatagram : ℤ
  farMaxIfp : ℤ

/-- `tris_udptl_new_with_bindaddr`, with the entries and the span of the
configuration. -/
def trisUdptlNew (entries span : ℕ) : TrisUdptl where
  tx := newTx .none entries span
  farMaxDatagram := -1
  farMaxIfp := -1

/-- `tris_udptl_set_error_correction_scheme` -/
def trisUdptlSetErrorCorrectionScheme (s : TrisUdptl) (ec : T38EcMode) : TrisUdptl :=
  let tx := { s.tx with errorCorrectionScheme := ec }
  let tx := match ec with
    | .fec => { tx with
        errorCorrectionEntries :=
          if tx.errorCorrectionEntries = 0 then 3 else tx.errorCorrectionEntries
        errorCorrectionSpan := if tx.errorCorrectionSpan = 0 then 3 else tx.errorCorrectionSpan }
    | .redundancy => { tx with
        errorCorrectionEntries :=
          if tx.errorCorrectionEntries = 0 then 3 else tx.errorCorrectionEntries }
    | .none => tx
  -- reset calculated values so they'll be computed again
  { s with tx := tx, farMaxIfp := -1 }

/-- `tris_udptl_set_far_max_datagram` -/
def trisUdptlSetFarMaxDatagram (s : TrisUdptl) (maxDatagram : ℕ) : TrisUdptl :=
  { s with
    farMaxDatagram :=
      if maxDatagram = 0 ∨ maxDatagram > faxMaxDatagramLimit then defaultFaxMaxDatagram
      else maxDatagram
    -- reset calculated values so they'll be computed again
    farMaxIfp := -1 }

/-- The loop of `calculate_far_max_ifp` over the entries: `new_max` and the
entries that are left. -/
def redundancyMax (room : ℕ) : ℕ → ℕ × ℕ
  | 0 => (room / 1, 0)
  | entries + 1 =>
    let newMax := room / (entries + 2)
    if newMax < 80 ∧ entries + 1 > 1 then
      -- the max ifp is not large enough, subtract an error correction entry and calculate again
      redundancyMax room entries
    else
      (newMax, entries + 1)

/-- What `calculate_far_max_ifp` finds for the scheme: `new_max` and the
entries. -/
def newMaxAndEntries (s : TrisUdptl) : ℕ × ℕ :=
  match s.tx.errorCorrectionScheme with
  | .none => (toUnsigned (s.farMaxDatagram - 5), s.tx.errorCorrectionEntries)
  | .redundancy => redundancyMax (toUnsigned (s.farMaxDatagram - 8)) s.tx.errorCorrectionEntries
  | .fec => (toUnsigned ((s.farMaxDatagram - 10).tdiv 2), s.tx.errorCorrectionEntries)

/-- `calculate_far_max_ifp` -/
def calculateFarMaxIfp (s : TrisUdptl) : Option TrisUdptl :=
  if s.farMaxDatagram = -1 then
    some { s with farMaxIfp := -1 }
  else
    let (newMax, entries) := newMaxAndEntries s
    -- subtract 5% of space for insurance
    let farMaxIfp := newMax * 19 / 20
    if farMaxIfp < 2147483648 then
      some { s with tx := { s.tx with errorCorrectionEntries := entries }, farMaxIfp := farMaxIfp }
    else
      none

/-- `tris_udptl_get_far_max_ifp` -/
def trisUdptlGetFarMaxIfp (s : TrisUdptl) : Option (TrisUdptl × ℕ) := do
  let s ← if s.farMaxIfp = -1 then calculateFarMaxIfp s else some s
  if s.farMaxIfp < 0 then
    return (s, 0)
  else
    return (s, s.farMaxIfp.toNat)

/-- `tris_udptl_write` of a frame; `hasPeer` where the address of the peer
is set, `isT38` where type and subclass of the frame are right. -/
def trisUdptlWrite (s : TrisUdptl) (hasPeer isT38 : Bool) (data : List UInt8) : Option TrisUdptl :=
  -- if no max datagram size is provided, use default value
  let bufsize := if s.farMaxDatagram > 0 then s.farMaxDatagram.toNat else defaultFaxMaxDatagram
  if hasPeer = false then
    some s
  else if data.length = 0 then
    some s
  else if isT38 = false then
    some s
  else do
    let len :=
      if data.length > toUnsigned s.farMaxIfp then toUnsigned s.farMaxIfp else data.length
    let (tx, _) ← udptlBuildPacket bufsize s.tx (data.take len)
    return { s with tx := tx }

/-- A call. -/
inductive SendCall
  | setErrorCorrectionScheme (ec : T38EcMode)
  | setFarMaxDatagram (maxDatagram : ℕ)
  | getFarMaxIfp
  | write (hasPeer isT38 : Bool) (data : List UInt8)

/-- What the call does to the session. -/
def send (s : TrisUdptl) : SendCall → Option TrisUdptl
  | .setErrorCorrectionScheme ec => some (trisUdptlSetErrorCorrectionScheme s ec)
  | .setFarMaxDatagram maxDatagram => some (trisUdptlSetFarMaxDatagram s maxDatagram)
  | .getFarMaxIfp => (trisUdptlGetFarMaxIfp s).map Prod.fst
  | .write hasPeer isT38 data => trisUdptlWrite s hasPeer isT38 data

/-- The limit is asked for once there is a datagram size, and what is sent
is sent once the limit is known. -/
def LimitKnown (s : TrisUdptl) : SendCall → Prop
  | .getFarMaxIfp => s.farMaxDatagram ≠ -1
  | .write _ _ _ => s.farMaxDatagram ≠ -1 ∧ s.farMaxIfp ≠ -1
  | _ => True

/-- **The limit is one**: below the size of a datagram. -/
def LimitGood (s : TrisUdptl) : Prop := s.farMaxIfp ≠ -1 → s.farMaxIfp < s.farMaxDatagram

/-- A call that is right: it stays inside, and the limit after it is one. -/
def SendRight (s : TrisUdptl) (call : SendCall) (s' : TrisUdptl) : Prop :=
  send s call = some s' ∧ LimitGood s'

/-! ## The limit -/

/-- The smallest datagram for which the limit is one. -/
def smallestDatagram : T38EcMode → ℤ
  | .none => 5
  | .redundancy => 8
  | .fec => 9

theorem smallestDatagram_pos (ec : T38EcMode) : 0 < smallestDatagram ec := by
  cases ec <;> decide

variable {s s' : TrisUdptl} {room entries entries' newMax : ℕ}

/-- **What the loop over the entries leaves**: one entry at least if there
was one, and room for eighty octets in each unless it is the only one. -/
theorem redundancyMax_spec (h : redundancyMax room entries = (newMax, entries')) :
    newMax = room / (entries' + 1) ∧ entries' ≤ entries ∧ (1 ≤ entries → 1 ≤ entries') ∧
      (80 ≤ newMax ∨ entries' ≤ 1) := by
  induction entries with
  | zero =>
    obtain ⟨rfl, rfl⟩ := Prod.mk.inj h
    exact ⟨rfl, Nat.le_refl 0, fun h => h, .inr (Nat.zero_le 1)⟩
  | succ entries ih =>
    rw [redundancyMax] at h
    by_cases hagain : room / (entries + 2) < 80 ∧ entries + 1 > 1
    · rw [if_pos hagain] at h
      obtain ⟨hnew, hle, hone, hroom⟩ := ih h
      exact ⟨hnew, by omega, fun _ => hone (by omega), hroom⟩
    · rw [if_neg hagain] at h
      obtain ⟨rfl, rfl⟩ := Prod.mk.inj h
      exact ⟨rfl, Nat.le_refl _, fun h => h, by omega⟩

/-- What each message may take, before the insurance. -/
def share (s : TrisUdptl) : ℕ :=
  match s.tx.errorCorrectionScheme with
  | .none => (s.farMaxDatagram - 5).toNat
  | .redundancy => (s.farMaxDatagram - 8).toNat / (s.tx.errorCorrectionEntries + 1)
  | .fec => (s.farMaxDatagram - 10).toNat / 2

/-- **The limit of a session** whose datagrams are large enough. -/
structure Limited (s : TrisUdptl) : Prop where
  smallest : smallestDatagram s.tx.errorCorrectionScheme ≤ s.farMaxDatagram
  limit : s.farMaxIfp = (share s * 19 / 20 : ℕ)
  alone : s.tx.errorCorrectionScheme = .redundancy → 80 ≤ share s ∨ s.tx.errorCorrectionEntries ≤ 1

/-- **A session between two calls.** -/
structure SessionOk (s : TrisUdptl) : Prop where
  few : s.tx.errorCorrectionEntries ≤ 5
  one : s.tx.errorCorrectionScheme ≠ .none → 1 ≤ s.tx.errorCorrectionEntries
  slots : ∀ x, SlotFilled (s.tx.tx x)
  datagram : s.farMaxDatagram = -1 ∨ (1 ≤ s.farMaxDatagram ∧ s.farMaxDatagram ≤ 1400)
  limited : s.farMaxIfp = -1 ∨ Limited s

theorem Limited.lt (h : Limited s) : s.farMaxIfp < s.farMaxDatagram := by
  have hsmall := h.smallest
  have hshare : (share s : ℤ) < s.farMaxDatagram := by
    unfold share
    unfold smallestDatagram at hsmall
    cases hec : s.tx.errorCorrectionScheme with
    | none =>
      rw [hec] at hsmall
      simp only at hsmall ⊢
      omega
    | redundancy =>
      rw [hec] at hsmall
      simp only at hsmall ⊢
      have hdiv := Nat.div_le_self (s.farMaxDatagram - 8).toNat (s.tx.errorCorrectionEntries + 1)
      omega
    | fec =>
      rw [hec] at hsmall
      simp only at hsmall ⊢
      omega
  rw [h.limit]
  omega

theorem toUnsigned_of_nonneg {x : ℤ} (h : 0 ≤ x) (hlt : x < 4294967296) :
    toUnsigned x = x.toNat := by
  unfold toUnsigned
  rw [Int.emod_eq_of_lt h hlt]

/-- The session with another number of entries. -/
def withEntries (s : TrisUdptl) (entries : ℕ) (farMaxIfp : ℤ) : TrisUdptl :=
  { s with tx := { s.tx with errorCorrectionEntries := entries }, farMaxIfp := farMaxIfp }

/-- What the scheme finds where the datagram is large enough. -/
theorem newMaxAndEntries_share (hok : SessionOk s)
    (hsmall : smallestDatagram s.tx.errorCorrectionScheme ≤ s.farMaxDatagram)
    (h : newMaxAndEntries s = (newMax, entries')) (farMaxIfp : ℤ) :
    share (withEntries s entries' farMaxIfp) = newMax ∧ newMax ≤ 1400 ∧
      entries' ≤ s.tx.errorCorrectionEntries ∧
      (1 ≤ s.tx.errorCorrectionEntries → 1 ≤ entries') ∧
      (s.tx.errorCorrectionScheme = .redundancy → 80 ≤ newMax ∨ entries' ≤ 1) := by
  unfold newMaxAndEntries at h
  unfold smallestDatagram at hsmall
  have hD := hok.datagram
  have hle : s.farMaxDatagram ≤ 1400 := by omega
  cases hec : s.tx.errorCorrectionScheme with
  | none =>
    have hec' : (withEntries s entries' farMaxIfp).tx.errorCorrectionScheme = .none := hec
    rw [hec] at h hsmall
    unfold share
    rw [hec']
    simp only at h hsmall ⊢
    rw [toUnsigned_of_nonneg (by omega) (by omega)] at h
    obtain ⟨rfl, rfl⟩ := Prod.mk.inj h
    exact ⟨rfl, by omega, Nat.le_refl _, fun h => h, by simp⟩
  | redundancy =>
    have hec' : (withEntries s entries' farMaxIfp).tx.errorCorrectionScheme = .redundancy := hec
    rw [hec] at h hsmall
    unfold share
    rw [hec']
    simp only at h hsmall ⊢
    rw [toUnsigned_of_nonneg (by omega) (by omega)] at h
    obtain ⟨rfl, hfew, hone, halone⟩ := redundancyMax_spec h
    have hdiv := Nat.div_le_self (s.farMaxDatagram - 8).toNat (entries' + 1)
    exact ⟨rfl, by omega, hfew, hone, fun _ => halone⟩
  | fec =>
    have hec' : (withEntries s entries' farMaxIfp).tx.errorCorrectionScheme = .fec := hec
    rw [hec] at h hsmall
    unfold share
    rw [hec']
    simp only at h hsmall ⊢
    have hhalf : (s.farMaxDatagram - 10).tdiv 2 = ((s.farMaxDatagram - 10).toNat / 2 : ℕ) := by
      rcases Int.lt_or_le s.farMaxDatagram 10 with hnine | hten
      · obtain hD9 : s.farMaxDatagram = 9 := by omega
        rw [hD9]
        rfl
      · rw [Int.tdiv_eq_ediv_of_nonneg (by omega)]
        omega
    rw [hhalf, toUnsigned_of_nonneg (by omega) (by omega)] at h
    obtain ⟨rfl, rfl⟩ := Prod.mk.inj h
    exact ⟨rfl, by omega, Nat.le_refl _, fun h => h, by simp⟩

/-- **The limit is calculated** for a datagram that is large enough. -/
theorem calculateFarMaxIfp_limited (hok : SessionOk s)
    (hsmall : smallestDatagram s.tx.errorCorrectionScheme ≤ s.farMaxDatagram) :
    ∃ s', calculateFarMaxIfp s = some s' ∧ Limited s' ∧ SessionOk s' := by
  obtain ⟨newMax, entries', hfound⟩ : ∃ n e, newMaxAndEntries s = (n, e) := ⟨_, _, rfl⟩
  obtain ⟨hshare, hle, hfew, hone, halone⟩ :=
    newMaxAndEntries_share hok hsmall hfound (newMax * 19 / 20 : ℕ)
  have hset : s.farMaxDatagram ≠ -1 := by
    have hpos := smallestDatagram_pos s.tx.errorCorrectionScheme
    omega
  have hlim : Limited (withEntries s entries' (newMax * 19 / 20 : ℕ)) := by
    refine ⟨hsmall, ?_, fun hec => ?_⟩
    · rw [hshare]
      rfl
    · rw [hshare]
      exact halone hec
  refine ⟨withEntries s entries' (newMax * 19 / 20 : ℕ), ?_, hlim,
    ⟨Nat.le_trans hfew hok.few, fun hec => hone (hok.one hec), hok.slots, hok.datagram, .inr hlim⟩⟩
  unfold calculateFarMaxIfp
  rw [if_neg hset, hfound]
  simp only
  rw [if_pos (by omega)]
  rfl

/-- **A datagram that is too small** leaves a limit that is none. -/
theorem calculateFarMaxIfp_wrapped (hok : SessionOk s) (hset : s.farMaxDatagram ≠ -1)
    (hsmall : s.farMaxDatagram < smallestDatagram s.tx.errorCorrectionScheme)
    (h : calculateFarMaxIfp s = some s') : ¬ LimitGood s' := by
  have hD := hok.datagram
  have hwrapped : 600000000 ≤ (newMaxAndEntries s).1 := by
    unfold newMaxAndEntries
    unfold smallestDatagram at hsmall
    cases hec : s.tx.errorCorrectionScheme with
    | none =>
      rw [hec] at hsmall
      simp only at hsmall ⊢
      unfold toUnsigned
      omega
    | redundancy =>
      rw [hec] at hsmall
      simp only at hsmall ⊢
      obtain ⟨n, e, hfound⟩ : ∃ n e, redundancyMax (toUnsigned (s.farMaxDatagram - 8))
        s.tx.errorCorrectionEntries = (n, e) := ⟨_, _, rfl⟩
      obtain ⟨hn, hfew, -, -⟩ := redundancyMax_spec hfound
      have hentries : e + 1 ≤ 6 := by
        have := hok.few
        omega
      rw [hfound, hn]
      refine Nat.le_trans ?_ (Nat.div_le_div_left hentries (Nat.succ_pos e))
      unfold toUnsigned
      omega
    | fec =>
      rw [hec] at hsmall
      simp only at hsmall ⊢
      have hhalf : (s.farMaxDatagram - 10).tdiv 2 = -((10 - s.farMaxDatagram) / 2) := by
        rw [show s.farMaxDatagram - 10 = -(10 - s.farMaxDatagram) by omega, Int.neg_tdiv,
          Int.tdiv_eq_ediv_of_nonneg (by omega)]
      rw [hhalf]
      unfold toUnsigned
      omega
  unfold calculateFarMaxIfp at h
  rw [if_neg hset] at h
  simp only at h
  by_cases hfits : (newMaxAndEntries s).1 * 19 / 20 < 2147483648
  · rw [if_pos hfits] at h
    obtain rfl := Option.some.inj h
    intro hgood
    have hlt : (((newMaxAndEntries s).1 * 19 / 20 : ℕ) : ℤ) < s.farMaxDatagram := hgood (by
      show (((newMaxAndEntries s).1 * 19 / 20 : ℕ) : ℤ) ≠ -1
      omega)
    omega
  · rw [if_neg hfits] at h
    cases h

/-! ## The writes -/

/-- The octets of a frame that are sent. -/
def sentOctets (s : TrisUdptl) (data : List UInt8) : List UInt8 := data.take s.farMaxIfp.toNat

theorem trisUdptlWrite_eq (hok : SessionOk s) (hlim : Limited s) {data : List UInt8}
    (hne : data.length ≠ 0) :
    trisUdptlWrite s true true data =
      (udptlBuildPacket s.farMaxDatagram.toNat s.tx (sentOctets s data)).map
        fun r => { s with tx := r.1 } := by
  have hlt := hlim.lt
  have hpos := smallestDatagram_pos s.tx.errorCorrectionScheme
  have hsmall := hlim.smallest
  have hD := hok.datagram
  have hlimit := hlim.limit
  have hM : toUnsigned s.farMaxIfp = s.farMaxIfp.toNat := toUnsigned_of_nonneg (by omega) (by omega)
  have hpos' : s.farMaxDatagram > 0 := by omega
  have htake : data.take (if data.length > s.farMaxIfp.toNat then s.farMaxIfp.toNat
      else data.length) = sentOctets s data := by
    unfold sentOctets
    by_cases hlong : data.length > s.farMaxIfp.toNat
    · rw [if_pos hlong]
    · rw [if_neg hlong, List.take_length, List.take_of_length_le (Nat.le_of_not_gt hlong)]
  unfold trisUdptlWrite
  simp only [hM, htake, if_pos hpos', if_neg hne, reduceCtorEq, if_false, Option.bind_eq_bind]
  cases udptlBuildPacket s.farMaxDatagram.toNat s.tx (sentOctets s data) with
  | none => rfl
  | some r => rfl

/-- **When a call is right.** The limit is right for a datagram that is
large enough. A write without error correction needs one octet more; with
it, the items of the packet have to fit. -/
def SendFits (s : TrisUdptl) : SendCall → Prop
  | .getFarMaxIfp =>
    s.farMaxIfp ≠ -1 ∨ smallestDatagram s.tx.errorCorrectionScheme ≤ s.farMaxDatagram
  | .write hasPeer isT38 data =>
    hasPeer = true ∧ isT38 = true ∧ data.length ≠ 0 →
      (s.tx.errorCorrectionScheme = .none ∧ 6 ≤ s.farMaxDatagram) ∨
        (s.tx.errorCorrectionScheme ≠ .none ∧
          ItemsFit s.farMaxDatagram.toNat (packetItems s.tx (sentOctets s data)) 0)
  | _ => True

theorem sentOctets_length (hlim : Limited s) (data : List UInt8) :
    (sentOctets s data).length ≤ share s * 19 / 20 := by
  have hlimit := hlim.limit
  unfold sentOctets
  rw [List.length_take]
  omega

/-- The octets of an open type grow with it. -/
theorem paidSize_le {n m : ℕ} (h : n ≤ m) (hm : m < 0x4000) :
    lengthSize (paid n) + paid n ≤ lengthSize (paid m) + paid m := by
  have hpaid : paid n ≤ paid m := by
    unfold paid
    split_ifs <;> omega
  have hlt : paid m < 0x4000 := by
    unfold paid
    split_ifs <;> omega
  unfold lengthSize
  split_ifs <;> omega

/-- An open type takes two octets more than its own, or one if it is short,
and an empty one two. -/
theorem limitSize_le (n : ℕ) :
    (n = 0 ∧ lengthSize (paid n) + paid n = 2) ∨
      (0 < n ∧ n < 0x80 ∧ lengthSize (paid n) + paid n = n + 1) ∨
        (0x80 ≤ n ∧ n < lengthSize (paid n) + paid n ∧ lengthSize (paid n) + paid n ≤ n + 2) := by
  unfold lengthSize paid
  split_ifs <;> omega

/-- **Without error correction a packet fits** a datagram of six octets, and
of no fewer. -/
theorem packet_fits_none (hok : SessionOk s) (hlim : Limited s)
    (hec : s.tx.errorCorrectionScheme = .none) (data : List UInt8) :
    ItemsFit s.farMaxDatagram.toNat (packetItems s.tx (sentOctets s data)) 0 ↔
      6 ≤ s.farMaxDatagram := by
  have hlen := sentOctets_length hlim data
  have hD := hok.datagram
  have hsmall := hlim.smallest
  obtain ⟨D, hDn⟩ : ∃ D : ℕ, s.farMaxDatagram = D := ⟨s.farMaxDatagram.toNat, by
    have hpos := smallestDatagram_pos s.tx.errorCorrectionScheme
    omega⟩
  have hitems : packetItems s.tx (sentOctets s data) =
      [.octet, .octet, .openType (sentOctets s data).length, .octet, .octet] := by
    unfold packetItems recoveryItems
    have hec' : (saveIfp s.tx (sentOctets s data)).errorCorrectionScheme = .none := hec
    rw [hec']
  have hshare : share s = D - 5 := by
    unfold share
    rw [hec, hDn]
    simp only
    omega
  rw [hec] at hsmall
  unfold smallestDatagram at hsmall
  simp only at hsmall
  rw [hitems, hDn, Int.toNat_natCast]
  rw [hshare] at hlen
  constructor
  · intro hfits
    by_contra hfive
    obtain rfl : D = 5 := by omega
    rw [Nat.le_zero.1 hlen] at hfits
    exact absurd hfits (by decide)
  · intro hsix
    refine itemsFit_of_total ?_
    have hsize := paidSize_le hlen (by omega)
    have hpaid := limitSize_le ((D - 5) * 19 / 20)
    simp only [total, List.map_cons, List.map_nil, List.sum_cons, List.sum_nil, Item.size]
    omega

/-! ## What a call leaves -/

theorem trisUdptlNew_ok (hentries : entries ≤ 5) (span : ℕ) : SessionOk (trisUdptlNew entries span) :=
  ⟨hentries, fun h => absurd rfl h, fun _ => .inr ⟨rfl, rfl⟩, .inl rfl, .inl rfl⟩

theorem SessionOk.setScheme (hok : SessionOk s) (ec : T38EcMode) :
    SessionOk (trisUdptlSetErrorCorrectionScheme s ec) := by
  have hfew := hok.few
  cases ec with
  | none => exact ⟨hfew, fun h => absurd rfl h, hok.slots, hok.datagram, .inl rfl⟩
  | redundancy =>
    refine ⟨?_, fun _ => ?_, hok.slots, hok.datagram, .inl rfl⟩
    · show (if s.tx.errorCorrectionEntries = 0 then 3 else s.tx.errorCorrectionEntries) ≤ 5
      split_ifs <;> omega
    · show 1 ≤ if s.tx.errorCorrectionEntries = 0 then 3 else s.tx.errorCorrectionEntries
      split_ifs <;> omega
  | fec =>
    refine ⟨?_, fun _ => ?_, hok.slots, hok.datagram, .inl rfl⟩
    · show (if s.tx.errorCorrectionEntries = 0 then 3 else s.tx.errorCorrectionEntries) ≤ 5
      split_ifs <;> omega
    · show 1 ≤ if s.tx.errorCorrectionEntries = 0 then 3 else s.tx.errorCorrectionEntries
      split_ifs <;> omega

theorem SessionOk.setFarMaxDatagram (hok : SessionOk s) (maxDatagram : ℕ) :
    SessionOk (trisUdptlSetFarMaxDatagram s maxDatagram) := by
  refine ⟨hok.few, hok.one, hok.slots, .inr ?_, .inl rfl⟩
  show 1 ≤ (if maxDatagram = 0 ∨ maxDatagram > faxMaxDatagramLimit then (defaultFaxMaxDatagram : ℤ)
    else maxDatagram) ∧ (if maxDatagram = 0 ∨ maxDatagram > faxMaxDatagramLimit then
      (defaultFaxMaxDatagram : ℤ) else maxDatagram) ≤ 1400
  unfold defaultFaxMaxDatagram faxMaxDatagramLimit
  split_ifs <;> omega

theorem Limited.setTx (hlim : Limited s) {tx : UdptlTx}
    (hec : tx.errorCorrectionScheme = s.tx.errorCorrectionScheme)
    (hentries : tx.errorCorrectionEntries = s.tx.errorCorrectionEntries) :
    Limited { s with tx := tx } := by
  have hshare : share { s with tx := tx } = share s := by
    unfold share
    rw [show ({ s with tx := tx } : TrisUdptl).tx.errorCorrectionScheme = _ from hec]
    rw [show ({ s with tx := tx } : TrisUdptl).tx.errorCorrectionEntries = _ from hentries]
  refine ⟨?_, ?_, fun h => ?_⟩
  · show smallestDatagram tx.errorCorrectionScheme ≤ _
    rw [hec]
    exact hlim.smallest
  · rw [hshare]
    exact hlim.limit
  · rw [hshare]
    show _ ∨ tx.errorCorrectionEntries ≤ 1
    rw [hentries]
    exact hlim.alone (hec ▸ h)

theorem SessionOk.built (hok : SessionOk s) {buflen : ℕ} {ifp : List UInt8} {tx : UdptlTx}
    {res : Option (List UInt8)} (h : udptlBuildPacket buflen s.tx ifp = some (tx, res)) :
    SessionOk { s with tx := tx } := by
  obtain ⟨hlen, htx, hec, hentries, -⟩ := udptlBuildPacket_leaves h
  refine ⟨hentries ▸ hok.few, fun h => ?_, fun x => ?_, hok.datagram, ?_⟩
  · show 1 ≤ tx.errorCorrectionEntries
    rw [hentries]
    exact hok.one (hec ▸ h)
  · show SlotFilled (tx.tx x)
    rw [htx]
    exact saveIfp_filled hok.slots hlen x
  · exact hok.limited.imp_right fun hlim => hlim.setTx hec hentries

/-! ## Every call of a run -/

variable {call : SendCall} {calls : List SendCall} {span : ℕ}

theorem getFarMaxIfp_known (h : s.farMaxIfp ≠ -1) : send s .getFarMaxIfp = some s := by
  unfold send trisUdptlGetFarMaxIfp
  rw [if_neg h]
  simp only [Option.bind_eq_bind, Option.bind_some]
  split_ifs
  · rfl
  · rfl

theorem getFarMaxIfp_unknown (h : s.farMaxIfp = -1) :
    send s .getFarMaxIfp = calculateFarMaxIfp s := by
  unfold send trisUdptlGetFarMaxIfp
  rw [if_pos h]
  cases calculateFarMaxIfp s with
  | none => rfl
  | some t =>
    simp only [Option.bind_eq_bind, Option.bind_some]
    split_ifs
    · rfl
    · rfl

theorem SessionOk.limitGood (hok : SessionOk s) : LimitGood s :=
  fun h => (hok.limited.resolve_left h).lt

/-- The limit, asked for. -/
theorem getFarMaxIfp_right_iff (hok : SessionOk s) (hset : s.farMaxDatagram ≠ -1) :
    (∃ s', SendRight s .getFarMaxIfp s') ↔ SendFits s .getFarMaxIfp := by
  by_cases hknown : s.farMaxIfp ≠ -1
  · exact iff_of_true ⟨s, getFarMaxIfp_known hknown, hok.limitGood⟩ (.inl hknown)
  have hunknown : s.farMaxIfp = -1 := not_not.1 hknown
  by_cases hsmall : smallestDatagram s.tx.errorCorrectionScheme ≤ s.farMaxDatagram
  · obtain ⟨s', hcalc, -, hok'⟩ := calculateFarMaxIfp_limited hok hsmall
    refine iff_of_true ⟨s', ?_, hok'.limitGood⟩ (.inr hsmall)
    rw [getFarMaxIfp_unknown hunknown]
    exact hcalc
  · refine iff_of_false ?_ ?_
    · rintro ⟨s', hsend, hgood⟩
      rw [getFarMaxIfp_unknown hunknown] at hsend
      exact calculateFarMaxIfp_wrapped hok hset (Int.not_le.1 hsmall) hsend hgood
    · rintro (h | h)
      · exact hknown h
      · exact hsmall h

/-- A frame that is not sent. -/
theorem trisUdptlWrite_idle {hasPeer isT38 : Bool} {data : List UInt8}
    (h : ¬ (hasPeer = true ∧ isT38 = true ∧ data.length ≠ 0)) :
    trisUdptlWrite s hasPeer isT38 data = some s := by
  unfold trisUdptlWrite
  simp only
  by_cases hp : hasPeer = false
  · rw [if_pos hp]
  rw [if_neg hp]
  by_cases hl : data.length = 0
  · rw [if_pos hl]
  rw [if_neg hl]
  by_cases ht : isT38 = false
  · rw [if_pos ht]
  · exact absurd ⟨by simpa using hp, by simpa using ht, hl⟩ h

theorem write_right_iff (hok : SessionOk s) (horder : s.farMaxIfp ≠ -1) (hasPeer isT38 : Bool)
    (data : List UInt8) :
    (∃ s', SendRight s (.write hasPeer isT38 data) s') ↔
      SendFits s (.write hasPeer isT38 data) := by
  by_cases hbuild : hasPeer = true ∧ isT38 = true ∧ data.length ≠ 0
  · obtain ⟨rfl, rfl, hne⟩ := hbuild
    have hlim := hok.limited.resolve_left horder
    have hlt := hlim.lt
    have hD := hok.datagram
    have hfew := hok.few
    have hsent : (sentOctets s data).length ≤ localFaxMaxDatagram := by
      have hlen := sentOctets_length hlim data
      have hlimit := hlim.limit
      unfold localFaxMaxDatagram
      omega
    have hbuilt : (∃ s', SendRight s (.write true true data) s') ↔
        ItemsFit s.farMaxDatagram.toNat (packetItems s.tx (sentOctets s data)) 0 := by
      have hiff : (∃ r, udptlBuildPacket s.farMaxDatagram.toNat s.tx (sentOctets s data) = some r) ↔
          (sentOctets s data).length ≤ localFaxMaxDatagram ∧
            ItemsFit s.farMaxDatagram.toNat (packetItems s.tx (sentOctets s data)) 0 :=
        udptlBuildPacket_some_iff (by omega) hok.slots (by omega)
      rw [and_iff_right hsent] at hiff
      rw [← hiff]
      show (∃ s', trisUdptlWrite s true true data = some s' ∧ LimitGood s') ↔ _
      rw [trisUdptlWrite_eq hok hlim hne]
      constructor
      · rintro ⟨s', h, -⟩
        obtain ⟨r, hr, -⟩ := Option.map_eq_some_iff.1 h
        exact ⟨r, hr⟩
      · rintro ⟨⟨tx, res⟩, hr⟩
        exact ⟨{ s with tx := tx }, by rw [hr]; rfl, (hok.built hr).limitGood⟩
    rw [hbuilt]
    unfold SendFits
    by_cases hec : s.tx.errorCorrectionScheme = .none
    · rw [packet_fits_none hok hlim hec]
      exact ⟨fun h _ => .inl ⟨hec, h⟩, fun h => (h ⟨rfl, rfl, hne⟩).elim And.right
        fun h => absurd hec h.1⟩
    · exact ⟨fun h _ => .inr ⟨hec, h⟩, fun h => (h ⟨rfl, rfl, hne⟩).elim
        (fun h => absurd h.1 hec) And.right⟩
  · refine iff_of_true ⟨s, ?_, hok.limitGood⟩ fun h => absurd h hbuild
    exact trisUdptlWrite_idle hbuild

/-- What a write leaves: the session, or what a packet made of it. -/
theorem trisUdptlWrite_leaves {hasPeer isT38 : Bool} {data : List UInt8}
    (h : trisUdptlWrite s hasPeer isT38 data = some s') :
    s' = s ∨ ∃ buflen ifp tx res, udptlBuildPacket buflen s.tx ifp = some (tx, res) ∧
      s' = { s with tx := tx } := by
  unfold trisUdptlWrite at h
  simp only at h
  by_cases hp : hasPeer = false
  · rw [if_pos hp] at h
    exact .inl (Option.some.inj h).symm
  rw [if_neg hp] at h
  by_cases hl : data.length = 0
  · rw [if_pos hl] at h
    exact .inl (Option.some.inj h).symm
  rw [if_neg hl] at h
  by_cases ht : isT38 = false
  · rw [if_pos ht] at h
    exact .inl (Option.some.inj h).symm
  rw [if_neg ht] at h
  obtain ⟨⟨tx, res⟩, hbuild, h⟩ := Option.bind_eq_some_iff.1 h
  exact .inr ⟨_, _, tx, res, hbuild, (Option.some.inj h).symm⟩

theorem SendRight.ok (hok : SessionOk s) (h : SendRight s call s') : SessionOk s' := by
  obtain ⟨hsend, hgood⟩ := h
  cases call with
  | setErrorCorrectionScheme ec =>
    obtain rfl := Option.some.inj hsend
    exact hok.setScheme ec
  | setFarMaxDatagram maxDatagram =>
    obtain rfl := Option.some.inj hsend
    exact hok.setFarMaxDatagram maxDatagram
  | getFarMaxIfp =>
    by_cases hknown : s.farMaxIfp ≠ -1
    · rw [getFarMaxIfp_known hknown] at hsend
      obtain rfl := Option.some.inj hsend
      exact hok
    have hunknown : s.farMaxIfp = -1 := not_not.1 hknown
    rw [getFarMaxIfp_unknown hunknown] at hsend
    by_cases hset : s.farMaxDatagram = -1
    · unfold calculateFarMaxIfp at hsend
      rw [if_pos hset] at hsend
      obtain rfl := Option.some.inj hsend
      exact ⟨hok.few, hok.one, hok.slots, hok.datagram, .inl rfl⟩
    by_cases hsmall : smallestDatagram s.tx.errorCorrectionScheme ≤ s.farMaxDatagram
    · obtain ⟨t, hcalc, -, hok'⟩ := calculateFarMaxIfp_limited hok hsmall
      rw [hcalc] at hsend
      obtain rfl := Option.some.inj hsend
      exact hok'
    · exact absurd hgood (calculateFarMaxIfp_wrapped hok hset (Int.not_le.1 hsmall) hsend)
  | write hasPeer isT38 data =>
    rcases trisUdptlWrite_leaves hsend with rfl | ⟨buflen, ifp, tx, res, hbuild, rfl⟩
    · exact hok
    · exact hok.built hbuild

/-- **A call is right exactly when** its condition is met, in every run from
a new session of calls that were. -/
theorem send_right_iff (hentries : entries ≤ 5)
    (hrun : Trace (fun s call s' => LimitKnown s call ∧ SendRight s call s')
      (trisUdptlNew entries span) calls s) (horder : LimitKnown s call) :
    (∃ s', SendRight s call s') ↔ SendFits s call := by
  have hok : SessionOk s :=
    hrun.inv_state (trisUdptlNew_ok hentries span) fun _ _ _ hok h => h.2.ok hok
  cases call with
  | setErrorCorrectionScheme ec => exact iff_of_true ⟨_, rfl, fun h => absurd rfl h⟩ trivial
  | setFarMaxDatagram maxDatagram => exact iff_of_true ⟨_, rfl, fun h => absurd rfl h⟩ trivial
  | getFarMaxIfp => exact getFarMaxIfp_right_iff hok horder
  | write hasPeer isT38 data => exact write_right_iff hok horder.2 hasPeer isT38 data

/-- A new session with three entries, set to a scheme and a datagram size. -/
def configured (ec : T38EcMode) (maxDatagram : ℕ) : TrisUdptl :=
  trisUdptlSetFarMaxDatagram (trisUdptlSetErrorCorrectionScheme (trisUdptlNew 3 3) ec) maxDatagram

/-- It is asked for its limit. -/
theorem trace_configured {ec : T38EcMode} {maxDatagram : ℕ}
    (hset : (configured ec maxDatagram).farMaxDatagram ≠ -1)
    (h : SendRight (configured ec maxDatagram) .getFarMaxIfp s) :
    Trace (fun s call s' => LimitKnown s call ∧ SendRight s call s') (trisUdptlNew 3 3)
      [.setErrorCorrectionScheme ec, .setFarMaxDatagram maxDatagram, .getFarMaxIfp] s := by
  have hfirst : SendRight (trisUdptlNew 3 3) (.setErrorCorrectionScheme ec)
      (trisUdptlSetErrorCorrectionScheme (trisUdptlNew 3 3) ec) := ⟨rfl, fun h => absurd rfl h⟩
  have hsecond : SendRight (trisUdptlSetErrorCorrectionScheme (trisUdptlNew 3 3) ec)
      (.setFarMaxDatagram maxDatagram) (configured ec maxDatagram) := ⟨rfl, fun h => absurd rfl h⟩
  exact ((Trace.nil.snoc ⟨trivial, hfirst⟩).snoc ⟨trivial, hsecond⟩).snoc ⟨hset, h⟩

/-- Redundancy in datagrams of 400 octets: the first message is sent. -/
theorem send_right_iff_first : ∃ s s',
    Trace (fun s call s' => LimitKnown s call ∧ SendRight s call s') (trisUdptlNew 3 3)
      [.setErrorCorrectionScheme .redundancy, .setFarMaxDatagram 400, .getFarMaxIfp] s ∧
    SendRight s (.write true true [7]) s' := by
  have hscript : (send (configured .redundancy 400) .getFarMaxIfp).map (fun s =>
      (s.farMaxDatagram, s.farMaxIfp, s.tx.errorCorrectionScheme,
        decide (ItemsFit s.farMaxDatagram.toNat (packetItems s.tx (sentOctets s [7])) 0))) =
      some (400, 93, .redundancy, true) := by decide +kernel
  simp only [Option.map_eq_some_iff, Prod.mk.injEq, decide_eq_true_eq] at hscript
  obtain ⟨s, hsend, hD, hM, hec, hfits⟩ := hscript
  have hright : SendRight (configured .redundancy 400) .getFarMaxIfp s := by
    refine ⟨hsend, fun _ => ?_⟩
    rw [hD, hM]
    decide
  have hrun := trace_configured (by decide) hright
  have horder : LimitKnown s (.write true true [7]) := ⟨by rw [hD]; decide, by rw [hM]; decide⟩
  obtain ⟨s', hs'⟩ := (send_right_iff (by decide) hrun horder).2 fun _ =>
    .inr ⟨by rw [hec]; decide, hfits⟩
  exact ⟨s, s', hrun, hs'⟩

/-- **A datagram of five octets**: the limit is 0, and the first message is
written past the end. -/
theorem not_send_right : ∃ s,
    Trace (fun s call s' => LimitKnown s call ∧ SendRight s call s') (trisUdptlNew 3 3)
      [.setErrorCorrectionScheme .none, .setFarMaxDatagram 5, .getFarMaxIfp] s ∧
    LimitKnown s (.write true true [7]) ∧ ¬ ∃ s', SendRight s (.write true true [7]) s' := by
  have hscript : (send (configured .none 5) .getFarMaxIfp).map (fun s =>
      (s.farMaxDatagram, s.farMaxIfp, (send s (.write true true [7])).isNone)) =
      some (5, 0, true) := by decide +kernel
  simp only [Option.map_eq_some_iff, Prod.mk.injEq, Option.isNone_iff_eq_none] at hscript
  obtain ⟨s, hsend, hD, hM, hnone⟩ := hscript
  have hright : SendRight (configured .none 5) .getFarMaxIfp s := by
    refine ⟨hsend, fun _ => ?_⟩
    rw [hD, hM]
    decide
  refine ⟨s, trace_configured (by decide) hright, ⟨by rw [hD]; decide, by rw [hM]; decide⟩, ?_⟩
  rintro ⟨s', h, -⟩
  rw [hnone] at h
  cases h

end Udptl

end Trismedia
