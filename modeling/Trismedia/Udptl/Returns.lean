import Trismedia.Udptl.OpenTypes
/-!
# UDPTL — the datagrams on which the receiver returns

The error return of `decode_length` is lost in an unsigned variable of
`decode_open_type`, so an open type that the buffer ends inside a length
of is never done with. The receiver returns exactly on the datagrams in
which it comes to no such open type.
-/


namespace Trismedia

namespace Udptl

/-- A secondary packet may be of any size. -/
abbrev anySize : ℕ → Prop := fun _ => True

/-- An FEC entry is stored up to this size. -/
abbrev storable : ℕ → Prop := fun n => n ≤ localFaxMaxDatagram

/-- **Where the secondary packets are**: with lengths from `start` on and
`k` packets before, the number `m` is decoded at `p`. -/
inductive SecondaryAt (buf : List UInt8) : ℕ → ℕ → ℕ → ℕ → Prop
  | here {start k i p : ℕ} {l : LengthField} (h : decodeLengthAt buf start = some l)
      (hi : i < l.value) (hrow : Row buf anySize l.next i p) : SecondaryAt buf start k (k + i) p
  | later {start k m p q : ℕ} {l : LengthField} (h : decodeLengthAt buf start = some l)
      (hfrag : l.fragment = true) (hrow : Row buf anySize l.next l.value q)
      (hrest : SecondaryAt buf q (k + l.value) m p) : SecondaryAt buf start k m p

variable {buf : List UInt8} {p q n fuel left k m : ℕ} {t t' : Secondaries} {whole : Bool}
variable {slot slot' : UdptlFecRx} {touched touched' : List Touch} {entries ptr : ℕ}

/-! ## Rows -/

/-- No length is cut in the first `left` open types of a row. -/
def NoneCut (buf : List UInt8) (allowed : ℕ → Prop) (left p : ℕ) : Prop :=
  ∀ i < left, ∀ q, Row buf allowed p i q → ∀ n, ¬ Encoded buf q n .cut

variable {allowed : ℕ → Prop}

theorem noneCut_zero : NoneCut buf allowed 0 p := fun _ hi => absurd hi (Nat.not_lt_zero _)

theorem NoneCut.first (h : NoneCut buf allowed (left + 1) p) : ∀ n, ¬ Encoded buf p n .cut :=
  h 0 (Nat.succ_pos left) p .nil

theorem NoneCut.next {mid : ℕ} (h : NoneCut buf allowed (left + 1) p)
    (henc : Encoded buf p n (.whole mid)) (hn : allowed n) : NoneCut buf allowed left mid :=
  fun i hi q hrow => h (i + 1) (by omega) q ((row_succ henc hn).2 hrow)

theorem noneCut_succ {mid : ℕ} (henc : Encoded buf p n (.whole mid))
    (h : NoneCut buf allowed left mid) : NoneCut buf allowed (left + 1) p := by
  intro i hi q hrow n' hcut
  cases hrow with
  | nil =>
    obtain ⟨-, he⟩ := henc.unique hcut
    cases he
  | @cons _ mid' _ n'' c henc' _ hrest =>
    obtain ⟨-, he⟩ := henc.unique henc'
    injection he with he
    subst he
    exact h c (by omega) q hrest n' hcut

/-- The row ends at its first open type. -/
theorem noneCut_of_last {e : Ending} (henc : Encoded buf p n e) (he : e ≠ .cut)
    (hlast : ∀ mid, e = .whole mid → ¬ allowed n) : NoneCut buf allowed left p := by
  intro i _ q hrow n' hcut
  cases hrow with
  | nil =>
    obtain ⟨-, heq⟩ := henc.unique hcut
    exact he heq
  | cons henc' hn _ =>
    obtain ⟨rfl, heq⟩ := henc.unique henc'
    exact hlast _ heq hn

/-! ## Secondary packets -/

theorem decodeSecondaryAt_some (hb : NoWrap buf)
    (h : decodeSecondaryAt buf fuel left t = some (t', whole)) :
    NoneCut buf anySize left t.len ∧ (whole = true → Row buf anySize t.len left t'.len) ∧
      (whole = false → ∀ q, ¬ Row buf anySize t.len left q) := by
  induction left generalizing t with
  | zero =>
    obtain ⟨rfl, rfl⟩ := Prod.mk.inj (Option.some.inj h)
    exact ⟨noneCut_zero, fun _ => .nil, by simp⟩
  | succ left ih =>
    rw [decodeSecondaryAt] at h
    simp only [Option.bind_eq_bind, Option.bind_eq_some_iff, Prod.exists] at h
    obtain ⟨o, stat1, ho, h⟩ := h
    obtain ⟨e, henc, hend⟩ := decodeOpenTypeAt_some hb ho
    rcases hend with ⟨rfl, rfl⟩ | ⟨rfl, rfl⟩
    · rw [if_pos (by decide)] at h
      obtain ⟨-, rfl⟩ := Prod.mk.inj (Option.some.inj h)
      have hcut : NoneCut buf anySize (left + 1) t.len := noneCut_of_last henc (by simp) (by simp)
      exact ⟨hcut, by simp, fun _ _ => not_row_succ henc⟩
    · rw [if_neg (by decide)] at h
      obtain ⟨hcut, hrow, hno⟩ := ih h
      exact ⟨noneCut_succ henc hcut, fun hw => .cons henc trivial (hrow hw),
        fun hw q hall => hno hw q ((row_succ henc trivial).1 hall)⟩

theorem decodeSecondaryAt_returns (hb : NoWrap buf) (hfuel : buf.length < fuel)
    (hcut : NoneCut buf anySize left t.len) :
    ∃ t' whole, decodeSecondaryAt buf fuel left t = some (t', whole) := by
  induction left generalizing t with
  | zero => exact ⟨t, true, rfl⟩
  | succ left ih =>
    obtain ⟨o, ret, ho⟩ := decodeOpenTypeAt_returns hb hcut.first hfuel
      (fun i => .bufs (t.bufs.length + i))
    obtain ⟨e, henc, hend⟩ := decodeOpenTypeAt_some hb ho
    rw [decodeSecondaryAt]
    simp only [ho, Option.bind_eq_bind, Option.bind_some]
    rcases hend with ⟨rfl, rfl⟩ | ⟨rfl, rfl⟩
    · rw [if_pos (by decide)]
      exact ⟨_, false, rfl⟩
    · rw [if_neg (by decide)]
      exact ih (hcut.next henc trivial)

/-- **The loop over the lengths returns** only where no packet it comes to
is cut in a length. -/
theorem decodeSecondariesAt_some (hb : NoWrap buf) {rounds : ℕ} {r : Secondaries × Bool}
    (h : decodeSecondariesAt buf fuel rounds t = some r) (hat : SecondaryAt buf t.len k m p) :
    ∀ n, ¬ Encoded buf p n .cut := by
  induction rounds generalizing t k with
  | zero => cases h
  | succ rounds ih =>
    rw [decodeSecondariesAt] at h
    cases hl : decodeLengthAt buf t.len with
    | none =>
      cases hat with
      | here hl' _ _ => rw [hl] at hl'; cases hl'
      | later hl' _ _ _ => rw [hl] at hl'; cases hl'
    | some l =>
      simp only [hl, Option.bind_eq_bind, Option.bind_eq_some_iff, Prod.exists] at h
      obtain ⟨t₁, whole, hrow, h⟩ := h
      obtain ⟨hcut, hwhole, hno⟩ := decodeSecondaryAt_some hb hrow
      cases hat with
      | here hl' hi hat =>
        obtain rfl := Option.some.inj (hl.symm.trans hl')
        exact hcut _ hi p hat
      | @later _ _ _ _ q _ hl' hfrag hall hrest =>
        obtain rfl := Option.some.inj (hl.symm.trans hl')
        cases whole with
        | false => exact absurd hall (hno rfl q)
        | true =>
          obtain rfl := hall.unique (hwhole rfl)
          rw [if_pos ⟨rfl, hfrag⟩] at h
          exact ih h hrest

theorem decodeSecondariesAt_returns (hb : NoWrap buf) (hfuel : buf.length < fuel) {rounds : ℕ}
    (hlen : t.len ≤ buf.length) (hrounds : buf.length < t.len + rounds)
    (hcut : ∀ m p, SecondaryAt buf t.len k m p → ∀ n, ¬ Encoded buf p n .cut) :
    ∃ r, decodeSecondariesAt buf fuel rounds t = some r := by
  induction rounds generalizing t k with
  | zero => omega
  | succ rounds ih =>
    rw [decodeSecondariesAt]
    cases hl : decodeLengthAt buf t.len with
    | none => exact ⟨_, rfl⟩
    | some l =>
      obtain ⟨hnext, hbound, -, -⟩ := decodeLengthAt_some hl
      have hfirst : NoneCut buf anySize l.value l.next :=
        fun i hi q hrow => hcut _ q (.here hl hi hrow)
      obtain ⟨t₁, whole, hrow⟩ := decodeSecondaryAt_returns
        (t := ⟨t.bufs, l.next, t.touched ++ [.datagram (decodeLengthReads buf t.len)]⟩) hb hfuel hfirst
      obtain ⟨-, hwhole, -⟩ := decodeSecondaryAt_some hb hrow
      simp only [hrow, Option.bind_eq_bind, Option.bind_some]
      by_cases hgo : whole = true ∧ l.fragment = true
      · rw [if_pos hgo]
        have hall := hwhole hgo.1
        obtain ⟨hle, hin⟩ : l.next ≤ t₁.len ∧ t₁.len ≤ buf.length := hall.bounds hbound
        exact ih hin (by omega) fun m p hat => hcut m p (.later hl hgo.2 hall hat)
      · rw [if_neg hgo]
        exact ⟨_, rfl⟩

/-! ## FEC -/

theorem decodeFecAt_some (hb : NoWrap buf)
    (h : decodeFecAt buf fuel entries left ptr slot touched = some (slot', touched', whole)) :
    NoneCut buf storable left ptr := by
  induction left generalizing ptr slot touched with
  | zero => exact noneCut_zero
  | succ left ih =>
    rw [decodeFecAt] at h
    simp only [Option.bind_eq_bind, Option.bind_eq_some_iff, Prod.exists] at h
    obtain ⟨o, stat1, ho, h⟩ := h
    obtain ⟨e, henc, hend⟩ := decodeOpenTypeAt_some hb ho
    rcases hend with ⟨rfl, rfl⟩ | ⟨rfl, rfl⟩
    · exact noneCut_of_last henc (by simp) (by simp)
    · rw [if_neg (by decide)] at h
      by_cases hbig : o.numOctets > localFaxMaxDatagram
      · exact noneCut_of_last henc (by simp) fun _ _ => Nat.not_le_of_lt hbig
      · rw [if_neg hbig] at h
        exact noneCut_succ henc (ih h)

theorem decodeFecAt_returns (hb : NoWrap buf) (hfuel : buf.length < fuel)
    (hcut : NoneCut buf storable left ptr) (slot : UdptlFecRx) (touched : List Touch) :
    ∃ r, decodeFecAt buf fuel entries left ptr slot touched = some r := by
  induction left generalizing ptr slot touched with
  | zero => exact ⟨_, rfl⟩
  | succ left ih =>
    obtain ⟨o, ret, ho⟩ := decodeOpenTypeAt_returns hb hcut.first hfuel .data
    obtain ⟨e, henc, hend⟩ := decodeOpenTypeAt_some hb ho
    rw [decodeFecAt]
    simp only [ho, Option.bind_eq_bind, Option.bind_some]
    rcases hend with ⟨rfl, rfl⟩ | ⟨rfl, rfl⟩
    · rw [if_pos (by decide)]
      exact ⟨_, rfl⟩
    · rw [if_neg (by decide)]
      by_cases hbig : o.numOctets > localFaxMaxDatagram
      · rw [if_pos hbig]
        exact ⟨_, rfl⟩
      · rw [if_neg hbig]
        exact ih (hcut.next henc (Nat.le_of_not_gt hbig)) _ _

/-! ## The repair -/

theorem bind_returns {α β : Type} {x : Option α} {f : α → Option β} (hx : ∃ a, x = some a)
    (hf : ∀ a, ∃ b, f a = some b) : ∃ b, x.bind f = some b := by
  obtain ⟨a, rfl⟩ := hx
  exact hf a

/-- **The loop over a group ends**: in `span` steps it is at its limit, and
sixteen steps lead back to where it was. -/
theorem ringLoop_returns {limit step c fuel k : ℕ} (hc : c ≤ fuel)
    (hend : (k + c * step) % 16 = limit) (hk : k < 16) : ∃ ks, ringLoop limit step fuel k = some ks := by
  induction fuel generalizing k c with
  | zero =>
    obtain rfl : c = 0 := by omega
    obtain rfl : k = limit := by omega
    exact ⟨[], by rw [ringLoop, if_neg (by simp)]⟩
  | succ fuel ih =>
    rw [ringLoop]
    by_cases hne : k ≠ limit
    · rw [if_pos hne]
      cases c with
      | zero => omega
      | succ c =>
        obtain ⟨ks, hks⟩ : ∃ ks, ringLoop limit step fuel (mask (k + step)) = some ks := by
          have hmask : mask ((k : ℤ) + step) = (k + step) % 16 := by
            unfold mask
            omega
          refine @ih c _ (by omega) ?_ ?_
          · rw [hmask, ← hend]
            have hexp : (c + 1) * step = c * step + step := Nat.succ_mul c step
            omega
          · rw [hmask]
            exact Nat.mod_lt _ (by decide)
        rw [hks]
        exact ⟨_, rfl⟩
    · rw [if_neg hne]
      exact ⟨[], rfl⟩

theorem fecGroup_returns (x span entries : ℕ) : ∃ ks, fecGroup (mask x) span entries = some ks := by
  unfold fecGroup
  have hx : mask x < 16 := by
    unfold mask
    omega
  obtain ⟨k, hk⟩ : ∃ k, k = mask ((mask x : ℤ) - span * entries) := ⟨_, rfl⟩
  rw [← hk]
  have hend : (k + span % 16 * entries) % 16 = mask x := by
    have hsplit : span * entries = 16 * (span / 16 * entries) + span % 16 * entries := by
      rw [← Nat.mul_assoc, ← Nat.add_mul, Nat.div_add_mod]
    have hcast : (span : ℤ) * entries = ((span * entries : ℕ) : ℤ) := (Int.natCast_mul ..).symm
    rw [hk, hcast, hsplit]
    unfold mask
    omega
  refine ringLoop_returns (Nat.le_of_lt (Nat.mod_lt span (by decide : 0 < 16))) hend ?_
  rw [hk]
  unfold mask
  omega

variable {r : Repair × List Touch}

theorem repairEntry_returns (x m : ℕ) (r : Repair) : ∃ r', repairEntry x m r = some r' := by
  obtain ⟨ks, hks⟩ := fecGroup_returns (x + m) (r.1 x).fecSpan (r.1 x).fecEntries
  unfold repairEntry
  rw [show ((x + m : ℕ) : ℤ) = (x : ℤ) + m from Int.natCast_add ..] at hks
  simp only [hks, Option.bind_eq_bind, Option.bind_some]
  split_ifs
  · exact ⟨_, rfl⟩
  · exact ⟨_, rfl⟩

theorem repairEntriesAt_returns (x left m : ℕ) (r : Repair × List Touch) :
    ∃ r', repairEntriesAt x left m r = some r' := by
  induction left generalizing m r with
  | zero => exact ⟨r, rfl⟩
  | succ left ih =>
    obtain ⟨next, hnext⟩ := repairEntry_returns x m r.1
    rw [repairEntriesAt]
    simp only [hnext, Option.bind_eq_bind, Option.bind_some]
    exact ih _ _

/-- The loop over the slots ends: it steps down round the ring. -/
theorem repairSlotsAt_returns {stop x : ℕ} (hx : x < 16) (hstop : stop < 16)
    (hdist : (x + 16 - stop) % 16 ≤ fuel) (r : Repair × List Touch) :
    ∃ r', repairSlotsAt stop fuel x r = some r' := by
  induction fuel generalizing x r with
  | zero =>
    obtain rfl : x = stop := by omega
    exact ⟨r, by rw [repairSlotsAt, if_neg (by simp)]⟩
  | succ fuel ih =>
    rw [repairSlotsAt]
    by_cases hne : x ≠ stop
    · rw [if_pos hne]
      have hmask : mask ((x : ℤ) - 1) = (x + 15) % 16 := by
        unfold mask
        omega
      have hnext : ∀ r₁, ∃ r', repairSlotsAt stop fuel (mask ((x : ℤ) - 1)) r₁ = some r' := by
        intro r₁
        refine ih ?_ ?_ r₁
        · rw [hmask]
          omega
        · rw [hmask]
          omega
      simp only [Option.bind_eq_bind]
      by_cases hnone : (r.1.1 x).fecLen 0 ≤ 0
      · rw [if_pos hnone]
        exact hnext r
      · obtain ⟨r₁, hr₁⟩ := repairEntriesAt_returns x (r.1.1 x).fecEntries 0 r
        rw [if_neg hnone, hr₁]
        exact hnext r₁
    · rw [if_neg hne]
      exact ⟨r, rfl⟩

/-! ## The packet -/

/-- The sequence number of a datagram. -/
def seqNumber (buf : List UInt8) : ℕ := ((buf.getD 0 0).toNat <<< 8) ||| (buf.getD 1 0).toNat

/-- The datagram brings secondary packets, with the lengths from behind
`ptr`, and its number is later than expected. -/
structure SecondaryMode (s : UdptlRx) (buf : List UInt8) (ptr : ℕ) : Prop where
  primary : ∃ n, Encoded buf 2 n (.whole ptr)
  inside : ptr + 1 ≤ buf.length
  mode : buf.getD ptr 0 &&& 0x80 = 0
  later : seqNumber buf > s.rxSeqNo

/-- The datagram brings FEC entries, from `ptr + 4` on: their number is at
`ptr + 3`. -/
structure FecMode (buf : List UInt8) (ptr : ℕ) : Prop where
  primary : ∃ n ≤ localFaxMaxDatagram, Encoded buf 2 n (.whole ptr)
  inside : ptr + 4 ≤ buf.length
  mode : buf.getD ptr 0 &&& 0x80 ≠ 0
  one : buf.getD (ptr + 1) 0 = 1

/-- **Where `udptl_rx_packet` decodes an open type**: the primary packet, the
secondary packets if the number is later than expected, or the FEC
entries. -/
inductive Decodes (s : UdptlRx) (buf : List UInt8) : ℕ → Prop
  | primary (hseq : 2 ≤ buf.length) : Decodes s buf 2
  | secondary {ptr m p : ℕ} (hmode : SecondaryMode s buf ptr)
      (hat : SecondaryAt buf (ptr + 1) 0 m p) : Decodes s buf p
  | fec {ptr i p : ℕ} (hmode : FecMode buf ptr) (hi : i < (buf.getD (ptr + 3) 0).toNat)
      (hrow : Row buf storable (ptr + 4) i p) : Decodes s buf p

variable {s : UdptlRx} {run : RxRun} {ifp : OpenType} {seqNo : ℕ}

theorem rxSecondaryAt_some (hb : NoWrap buf) (h : rxSecondaryAt buf fuel s seqNo ptr = some run)
    (hlater : seqNo > s.rxSeqNo) (hat : SecondaryAt buf ptr 0 m p) : ∀ n, ¬ Encoded buf p n .cut := by
  unfold rxSecondaryAt at h
  rw [if_pos hlater] at h
  simp only [Option.bind_eq_bind, Option.bind_eq_some_iff] at h
  obtain ⟨r, hr, -⟩ := h
  exact decodeSecondariesAt_some hb hr hat

theorem rxSecondaryAt_returns (hb : NoWrap buf) (hfuel : buf.length < fuel) (hptr : ptr ≤ buf.length)
    (hcut : seqNo > s.rxSeqNo → ∀ m p, SecondaryAt buf ptr 0 m p → ∀ n, ¬ Encoded buf p n .cut) :
    ∃ run, rxSecondaryAt buf fuel s seqNo ptr = some run := by
  unfold rxSecondaryAt
  by_cases hlater : seqNo > s.rxSeqNo
  · obtain ⟨⟨t, whole⟩, hr⟩ : ∃ r, decodeSecondariesAt buf fuel fuel ⟨[], ptr, []⟩ = some r :=
      decodeSecondariesAt_returns hb hfuel hptr (by omega) (hcut hlater)
    rw [if_pos hlater]
    simp only [hr, Option.bind_eq_bind, Option.bind_some]
    cases whole
    · exact ⟨_, rfl⟩
    · exact ⟨_, rfl⟩
  · rw [if_neg hlater]
    exact ⟨_, rfl⟩

/-- **FEC mode**, from the span on, where it comes that far. -/
def FecFrom (buf : List UInt8) (ifp : OpenType) (ptr : ℕ) : Prop :=
  ifp.numOctets ≤ localFaxMaxDatagram ∧ ptr + 3 ≤ buf.length ∧ buf.getD ptr 0 = 1

theorem rxFecAt_some (hb : NoWrap buf) (h : rxFecAt buf fuel s seqNo ifp ptr = some run)
    (hfrom : FecFrom buf ifp ptr) :
    NoneCut buf storable (buf.getD (ptr + 2) 0).toNat (ptr + 3) := by
  obtain ⟨hn, hptr, hone⟩ := hfrom
  unfold rxFecAt at h
  rw [if_neg (by omega), if_neg (by omega), if_neg (fun h => h hone), if_neg (by omega)] at h
  simp only [Option.bind_eq_bind, Option.bind_eq_some_iff, Prod.exists] at h
  obtain ⟨slot, touched, whole, hdec, -⟩ := h
  exact decodeFecAt_some hb hdec

theorem rxFecAt_returns (hb : NoWrap buf) (hfuel : buf.length < fuel)
    (hcut : FecFrom buf ifp ptr → NoneCut buf storable (buf.getD (ptr + 2) 0).toNat (ptr + 3)) :
    ∃ run, rxFecAt buf fuel s seqNo ifp ptr = some run := by
  unfold rxFecAt
  by_cases hn : ifp.numOctets > localFaxMaxDatagram
  · rw [if_pos hn]
    exact ⟨_, rfl⟩
  rw [if_neg hn]
  by_cases htwo : ptr + 2 > buf.length
  · rw [if_pos htwo]
    exact ⟨_, rfl⟩
  rw [if_neg htwo]
  by_cases hone : buf.getD ptr 0 ≠ 1
  · rw [if_pos hone]
    exact ⟨_, rfl⟩
  rw [if_neg hone]
  by_cases hthree : ptr + 3 > buf.length
  · rw [if_pos hthree]
    exact ⟨_, rfl⟩
  rw [if_neg hthree]
  have hall := hcut ⟨by omega, by omega, by simpa using hone⟩
  refine bind_returns (decodeFecAt_returns hb hfuel hall _ _) ?_
  rintro ⟨slot, touched, whole⟩
  cases whole with
  | false => exact ⟨_, rfl⟩
  | true =>
    have hx : mask (seqNo : ℤ) < 16 := by
      unfold mask
      omega
    refine bind_returns (repairSlotsAt_returns hx ?_ (by omega) _) fun r => ⟨_, rfl⟩
    unfold mask
    omega

/-- `udptl_rx_packet` returns. -/
def RxReturns (s : UdptlRx) (buf : List UInt8) : Prop :=
  ∃ fuel run, udptlRxPacketAt buf fuel s = some run

/-- The open type that is decoded is the one that is there. -/
theorem decodeOpenTypeAt_of_whole {pObject : ℕ → Touch} {ret : ℤ} (hb : NoWrap buf)
    (h : decodeOpenTypeAt buf pObject fuel p = some (ifp, ret)) (henc : Encoded buf p n (.whole q)) :
    ret = 0 ∧ ifp.len = q ∧ ifp.numOctets = n := by
  obtain ⟨e, henc', hend⟩ := decodeOpenTypeAt_some hb h
  obtain ⟨rfl, rfl⟩ := henc'.unique henc
  rcases hend with ⟨he, -⟩ | ⟨he, hret⟩
  · cases he
  · injection he with he
    exact ⟨hret, he.symm, rfl⟩

/-- **The receiver returns** exactly where it comes to no open type that is
cut in a length. -/
theorem rxReturns_of (hb : NoWrap buf) (hcut : ∀ p, Decodes s buf p → ∀ n, ¬ Encoded buf p n .cut) :
    RxReturns s buf := by
  refine ⟨buf.length + 1, ?_⟩
  unfold udptlRxPacketAt
  by_cases hseq : 2 > buf.length
  · rw [if_pos hseq]
    exact ⟨_, rfl⟩
  rw [if_neg hseq]
  have hseq' : 2 ≤ buf.length := by omega
  have hfuel : buf.length < buf.length + 1 := Nat.lt_succ_self _
  obtain ⟨ifp, stat1, hifp⟩ := decodeOpenTypeAt_returns hb (hcut 2 (.primary hseq')) hfuel .ifp
  obtain ⟨e, henc, hend⟩ := decodeOpenTypeAt_some hb hifp
  simp only [hifp, Option.bind_eq_bind, Option.bind_some]
  rcases hend with ⟨rfl, rfl⟩ | ⟨rfl, rfl⟩
  · rw [if_pos (by decide)]
    exact ⟨_, rfl⟩
  rw [if_neg (by decide)]
  by_cases hmode : ifp.len + 1 > buf.length
  · rw [if_pos hmode]
    exact ⟨_, rfl⟩
  rw [if_neg hmode]
  have hptr : ifp.len + 1 ≤ buf.length := by omega
  by_cases hsec : buf.getD ifp.len 0 &&& 0x80 = 0
  · rw [if_pos hsec]
    refine bind_returns (rxSecondaryAt_returns hb hfuel hptr fun hlater m p hat =>
      hcut p (.secondary ⟨⟨_, henc⟩, hptr, hsec, hlater⟩ hat)) fun run => ⟨_, rfl⟩
  · rw [if_neg hsec]
    refine bind_returns (rxFecAt_returns hb hfuel fun hfrom i hi p hrow => hcut p ?_) fun run => ⟨_, rfl⟩
    obtain ⟨hn, hthree, hone⟩ := hfrom
    exact .fec ⟨⟨_, hn, henc⟩, by omega, hsec, hone⟩ hi hrow

/-- And so nowhere else. -/
theorem not_cut_of_rxReturns (hb : NoWrap buf) (h : RxReturns s buf) (hdec : Decodes s buf p) :
    ∀ n, ¬ Encoded buf p n .cut := by
  obtain ⟨fuel, run, h⟩ := h
  have hseq : 2 ≤ buf.length := by
    cases hdec with
    | primary hseq => exact hseq
    | secondary hmode _ =>
      obtain ⟨n, henc⟩ := hmode.primary
      have hle := henc.next_le
      omega
    | fec hmode _ _ =>
      obtain ⟨n, -, henc⟩ := hmode.primary
      have hle := henc.next_le
      omega
  unfold udptlRxPacketAt at h
  rw [if_neg (by omega)] at h
  simp only [Option.bind_eq_bind, Option.bind_eq_some_iff, Prod.exists] at h
  obtain ⟨ifp, stat1, hifp, h⟩ := h
  cases hdec with
  | primary _ => exact Encoded.not_cut hb hifp
  | secondary hmode hat =>
    obtain ⟨⟨n, henc⟩, hptr, hmode, hlater⟩ := hmode
    obtain ⟨rfl, rfl, -⟩ := decodeOpenTypeAt_of_whole hb hifp henc
    rw [if_neg (by decide), if_neg (by omega), if_pos hmode] at h
    obtain ⟨run₁, hrun, -⟩ := Option.bind_eq_some_iff.1 h
    exact rxSecondaryAt_some hb hrun hlater hat
  | fec hmode hi hrow =>
    obtain ⟨⟨n, hn, henc⟩, hptr, hmode, hone⟩ := hmode
    obtain ⟨rfl, rfl, rfl⟩ := decodeOpenTypeAt_of_whole hb hifp henc
    rw [if_neg (by decide), if_neg (by omega), if_neg hmode] at h
    obtain ⟨run₁, hrun, -⟩ := Option.bind_eq_some_iff.1 h
    exact rxFecAt_some hb hrun ⟨hn, by omega, hone⟩ _ hi _ hrow

/-! ## Both functions -/

/-- **What `decode_open_type` is to do** at a place: return, and return `-1`
where the buffer ends inside a length or inside the announced octets. -/
def OpenTypeRight (buf : List UInt8) (pObject : ℕ → Touch) (p : ℕ) : Prop :=
  ∃ fuel o ret, decodeOpenTypeAt buf pObject fuel p = some (o, ret) ∧
    ((∃ n, Encoded buf p n .cut ∨ Encoded buf p n .short) → ret = -1)

theorem openTypeRight_iff (hb : NoWrap buf) (pObject : ℕ → Touch) (p : ℕ) :
    OpenTypeRight buf pObject p ↔ ∀ n, ¬ Encoded buf p n .cut := by
  constructor
  · rintro ⟨fuel, o, ret, h, -⟩
    exact Encoded.not_cut hb h
  · intro hcut
    obtain ⟨o, ret, h⟩ := decodeOpenTypeAt_returns hb hcut (Nat.lt_succ_self buf.length) pObject
    refine ⟨_, o, ret, h, ?_⟩
    rintro ⟨n, hn | hn⟩
    · exact absurd hn (hcut n)
    obtain ⟨e, henc, hend⟩ := decodeOpenTypeAt_some hb h
    obtain ⟨-, rfl⟩ := henc.unique hn
    rcases hend with ⟨-, hret⟩ | ⟨he, -⟩
    · exact hret
    · cases he

/-- **When the decoders return.** `decode_open_type` is right exactly where
the buffer does not end inside a length, and `udptl_rx_packet` returns
exactly where it comes to no open type of which that is not so. -/
theorem decoders_return_iff (hb : NoWrap buf) :
    (∀ pObject p, OpenTypeRight buf pObject p ↔ ∀ n, ¬ Encoded buf p n .cut) ∧
      ∀ s, RxReturns s buf ↔ ∀ p, Decodes s buf p → ∀ n, ¬ Encoded buf p n .cut :=
  ⟨openTypeRight_iff hb, fun _ => ⟨fun h _ hdec => not_cut_of_rxReturns hb h hdec, rxReturns_of hb⟩⟩

/-- A datagram with one octet and no redundancy. -/
theorem decoders_return_iff_one :
    RxReturns newRx [0, 0, 1, 7, 0, 0] ∧
      ∀ p, Decodes newRx [0, 0, 1, 7, 0, 0] p → ∀ n, ¬ Encoded [0, 0, 1, 7, 0, 0] p n .cut := by
  have hb : NoWrap [0, 0, 1, 7, 0, 0] := by
    unfold NoWrap
    decide
  have hret : RxReturns newRx [0, 0, 1, 7, 0, 0] := ⟨7, _, rfl⟩
  exact ⟨hret, ((decoders_return_iff hb).2 newRx).1 hret⟩

/-- **A datagram that is never done with**: the number, and nothing more. -/
theorem not_decoders_return :
    ¬ RxReturns newRx [0, 0] ∧ ¬ OpenTypeRight [0, 0] .ifp 2 := by
  have hb : NoWrap [0, 0] := by
    unfold NoWrap
    decide
  have hcut : Encoded [0, 0] 2 0 .cut := .cut rfl
  exact ⟨fun h => not_cut_of_rxReturns hb h (.primary (by decide)) 0 hcut,
    fun h => (openTypeRight_iff hb .ifp 2).1 h 0 hcut⟩

end Udptl

end Trismedia
