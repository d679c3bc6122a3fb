import Trismedia.Udptl.Returns
/-!
# UDPTL — what the receiver touches

The counts and lengths of a datagram are stored and used without a check
against the arrays of the receiver. Where they are small enough, every
index is inside its array, and what is stored in the ring stays small
enough for the packets to come.
-/


namespace Trismedia

namespace Udptl

/-- All that is touched is inside. -/
def AllIn (limit : ℕ) (touched : List Touch) : Prop := ∀ u ∈ touched, u.InRange limit

variable {limit : ℕ} {touched touched' : List Touch} {u : Touch}

theorem allIn_nil : AllIn limit [] := fun _ h => absurd h List.not_mem_nil

theorem AllIn.append (h : AllIn limit touched) (h' : AllIn limit touched') :
    AllIn limit (touched ++ touched') := by
  intro u hu
  rcases List.mem_append.1 hu with hu | hu
  · exact h u hu
  · exact h' u hu

theorem AllIn.cons (h : u.InRange limit) (h' : AllIn limit touched) : AllIn limit (u :: touched) := by
  intro v hv
  rcases List.mem_cons.1 hv with rfl | hv
  · exact h
  · exact h' v hv

theorem AllIn.snoc (h : AllIn limit touched) (hu : u.InRange limit) :
    AllIn limit (touched ++ [u]) := h.append (allIn_nil.cons hu)

variable {buf : List UInt8} {p q n fuel left ptr entries : ℕ} {o o' : OpenType} {ret : ℤ}
variable {pObject : ℕ → Touch} {t t' : Secondaries} {whole : Bool} {slot slot' : UdptlFecRx}

/-! ## Open types -/

/-- **Decoding touches the datagram and one object.** A datagram is too
short for a fragment that has octets. -/
theorem rounds_touched (hlen : buf.length ≤ 8192)
    (h : decodeOpenTypeRounds buf pObject fuel o = some (o', ret)) (hidx : o.octetIdx = 0)
    (hobj : o.object = none) (hnum : o.numOctets = 0) (hp : (pObject 0).InRange buf.length)
    (hin : AllIn buf.length o.touched) :
    AllIn buf.length o'.touched ∧ (ret = 0 → o'.object.getD 0 + o'.numOctets ≤ buf.length) := by
  have hb : NoWrap buf := by
    unfold NoWrap
    omega
  induction fuel generalizing o with
  | zero => cases h
  | succ fuel ih =>
    have hreads : AllIn buf.length (o.touched ++ [.datagram (decodeLengthReads buf o.len)]) :=
      hin.snoc (decodeLengthReads_le buf o.len)
    cases hl : decodeLengthAt buf o.len with
    | none =>
      rw [rounds_again fuel (round_cut hl)] at h
      exact ih h hidx hobj hnum hreads
    | some l =>
      obtain ⟨-, hnext, -, hsteps⟩ := decodeLengthAt_some hl
      rcases Nat.eq_zero_or_pos l.value with hzero | hpos
      · have hround := round_empty pObject hl hzero
        cases hfrag : l.fragment with
        | true =>
          rw [hfrag] at hround
          rw [rounds_again fuel hround] at h
          exact ih h hidx hobj hnum hreads
        | false =>
          rw [hfrag] at hround
          rw [rounds_done fuel hround] at h
          obtain ⟨rfl, rfl⟩ := Prod.mk.inj (Option.some.inj h)
          refine ⟨hreads, fun _ => ?_⟩
          rw [hobj, hnum]
          exact Nat.zero_le _
      by_cases hthere : l.next + l.value ≤ buf.length
      · have hlast : l.fragment = false := by
          by_contra hne
          have hmod := hsteps (by simpa using hne)
          omega
        have hround := round_octets pObject hb hl hpos hthere
        rw [hlast] at hround
        rw [rounds_done fuel hround] at h
        obtain ⟨rfl, rfl⟩ := Prod.mk.inj (Option.some.inj h)
        refine ⟨hreads.snoc (by rw [hidx]; exact hp), fun _ => ?_⟩
        rw [if_pos hidx, hnum]
        show l.next + (0 + l.value) % 4294967296 ≤ _
        omega
      · rw [rounds_done fuel (round_short hb hl hpos (by omega))] at h
        obtain ⟨rfl, rfl⟩ := Prod.mk.inj (Option.some.inj h)
        exact ⟨hreads, fun h => absurd h (by decide)⟩

theorem noWrap_of_le (hlen : buf.length ≤ 8192) : NoWrap buf := by
  unfold NoWrap
  omega

theorem decodeOpenTypeAt_touched (hlen : buf.length ≤ 8192)
    (h : decodeOpenTypeAt buf pObject fuel p = some (o, ret)) (hp : (pObject 0).InRange buf.length) :
    AllIn buf.length o.touched ∧ (ret = 0 → o.object.getD 0 + o.numOctets ≤ buf.length) :=
  rounds_touched hlen h rfl rfl rfl hp allIn_nil

/-! ## Secondary packets -/

/-- The number of secondary packets, `k` before the lengths from `start`
on. -/
inductive SecondaryCount (buf : List UInt8) : ℕ → ℕ → ℕ → Prop
  | last {start k q : ℕ} {l : LengthField} (h : decodeLengthAt buf start = some l)
      (hlast : l.fragment = false) (hrow : Row buf anySize l.next l.value q) :
      SecondaryCount buf start k (k + l.value)
  | more {start k q total : ℕ} {l : LengthField} (h : decodeLengthAt buf start = some l)
      (hfrag : l.fragment = true) (hrow : Row buf anySize l.next l.value q)
      (hrest : SecondaryCount buf q (k + l.value) total) : SecondaryCount buf start k total

theorem decodeSecondaryAt_touched (hlen : buf.length ≤ 8192)
    (h : decodeSecondaryAt buf fuel left t = some (t', whole))
    (hfew : ∀ i < left, ∀ p, Row buf anySize t.len i p → t.bufs.length + i < 16)
    (hin : AllIn buf.length t.touched) :
    AllIn buf.length t'.touched ∧ (whole = true → t'.bufs.length = t.bufs.length + left) := by
  induction left generalizing t with
  | zero =>
    obtain ⟨rfl, rfl⟩ := Prod.mk.inj (Option.some.inj h)
    exact ⟨hin, fun _ => rfl⟩
  | succ left ih =>
    rw [decodeSecondaryAt] at h
    simp only [Option.bind_eq_bind, Option.bind_eq_some_iff, Prod.exists] at h
    obtain ⟨o, stat1, ho, h⟩ := h
    have hk : t.bufs.length < 16 := hfew 0 (Nat.succ_pos left) t.len .nil
    obtain ⟨hdec, -⟩ := decodeOpenTypeAt_touched hlen ho hk
    have hin' : AllIn buf.length (t.touched ++ .lengths t.bufs.length :: o.touched) :=
      hin.append (hdec.cons hk)
    obtain ⟨e, henc, hend⟩ := decodeOpenTypeAt_some (noWrap_of_le hlen) ho
    rcases hend with ⟨rfl, rfl⟩ | ⟨rfl, rfl⟩
    · rw [if_pos (by decide)] at h
      obtain ⟨rfl, rfl⟩ := Prod.mk.inj (Option.some.inj h)
      exact ⟨hin', by simp⟩
    · rw [if_neg (by decide)] at h
      obtain ⟨hall, hcount⟩ := ih h (fun i hi p hrow => by
        have hlt := hfew (i + 1) (by omega) p ((row_succ henc trivial).2 hrow)
        simp only [List.length_append, List.length_cons, List.length_nil]
        omega) hin'
      refine ⟨hall, fun hw => ?_⟩
      rw [hcount hw]
      simp only [List.length_append, List.length_cons, List.length_nil]
      omega

theorem decodeSecondariesAt_touched (hlen : buf.length ≤ 8192) {rounds : ℕ}
    (h : decodeSecondariesAt buf fuel rounds t = some (t', whole))
    (hfew : ∀ m p, SecondaryAt buf t.len t.bufs.length m p → m < 16)
    (hin : AllIn buf.length t.touched) :
    AllIn buf.length t'.touched ∧
      (whole = true → SecondaryCount buf t.len t.bufs.length t'.bufs.length) := by
  induction rounds generalizing t with
  | zero => cases h
  | succ rounds ih =>
    rw [decodeSecondariesAt] at h
    have hreads : AllIn buf.length (t.touched ++ [.datagram (decodeLengthReads buf t.len)]) :=
      hin.snoc (decodeLengthReads_le buf t.len)
    cases hl : decodeLengthAt buf t.len with
    | none =>
      simp only [hl] at h
      obtain ⟨rfl, rfl⟩ := Prod.mk.inj (Option.some.inj h)
      exact ⟨hreads, by simp⟩
    | some l =>
      simp only [hl, Option.bind_eq_bind, Option.bind_eq_some_iff, Prod.exists] at h
      obtain ⟨t₁, whole₁, hrow, h⟩ := h
      obtain ⟨-, hwhole, -⟩ := decodeSecondaryAt_some (noWrap_of_le hlen) hrow
      obtain ⟨hall, hcount⟩ := decodeSecondaryAt_touched hlen hrow
        (fun i hi p hat => hfew _ p (.here hl hi hat)) hreads
      by_cases hgo : whole₁ = true ∧ l.fragment = true
      · rw [if_pos hgo] at h
        have hrow' := hwhole hgo.1
        obtain ⟨hall', hcount'⟩ := ih h (fun m p hat => hfew m p (.later hl hgo.2 hrow' (by
          rw [hcount hgo.1] at hat
          exact hat))) hall
        refine ⟨hall', fun hw => .more hl hgo.2 hrow' ?_⟩
        have hlater := hcount' hw
        rw [hcount hgo.1] at hlater
        exact hlater
      · rw [if_neg hgo] at h
        obtain ⟨rfl, rfl⟩ := Prod.mk.inj (Option.some.inj h)
        refine ⟨hall, fun hw => ?_⟩
        rw [hcount hw]
        exact .last hl (by simpa [hw] using hgo) (hwhole hw)

/-- How many of the secondary packets are not seen before. -/
def newCount (seqNo rxSeqNo total : ℕ) : ℕ :=
  (List.range total).countP fun i => toUnsigned ((seqNo : ℤ) - (i + 1 : ℕ)) ≥ rxSeqNo

theorem newFrames_count (seqNo rxSeqNo : ℕ) (bufs : List (List UInt8)) (total : ℕ) :
    (newFrames seqNo rxSeqNo bufs total).length = newCount seqNo rxSeqNo total := by
  unfold newCount
  induction total with
  | zero => rfl
  | succ i ih =>
    rw [newFrames, List.range_succ, List.countP_append, List.countP_singleton, ← ih]
    by_cases hnew : toUnsigned ((seqNo : ℤ) - (i + 1 : ℕ)) ≥ rxSeqNo
    · rw [if_pos hnew, if_pos (decide_eq_true hnew), List.length_cons]
    · rw [if_neg hnew, if_neg (fun h => hnew (of_decide_eq_true h)), Nat.add_zero]

/-! ## FEC -/

/-- **What the ring stores is small enough** for the arrays of a slot. -/
structure SlotBounded (slot : UdptlFecRx) : Prop where
  entries : slot.fecEntries ≤ maxFecEntries
  lens : ∀ m < maxFecEntries, slot.fecLen m ≤ localFaxMaxDatagram

theorem SlotBounded.setLen (h : SlotBounded slot) (hn : n ≤ localFaxMaxDatagram) (i : ℕ)
    (fec : ℕ → List UInt8) :
    SlotBounded { slot with fecLen := Function.update slot.fecLen i n, fec := fec } := by
  refine ⟨h.entries, fun m hm => ?_⟩
  show Function.update slot.fecLen i n m ≤ _
  by_cases hmi : m = i
  · rw [hmi, Function.update_self]
    exact hn
  · rw [Function.update_of_ne hmi]
    exact h.lens m hm

theorem SlotBounded.setBuf (h : SlotBounded slot) (octets : List UInt8) (bufLen : ℤ) :
    SlotBounded { slot with buf := octets, bufLen := bufLen } := ⟨h.entries, h.lens⟩

/-- The FEC entries of a row announce no more than can be stored. -/
def SmallEntries (buf : List UInt8) (left p : ℕ) : Prop :=
  ∀ i < left, ∀ q, Row buf storable p i q → ∀ n e, Encoded buf q n e → n ≤ localFaxMaxDatagram

theorem decodeFecAt_touched (hlen : buf.length ≤ 8192)
    (h : decodeFecAt buf fuel entries left ptr slot touched = some (slot', touched', whole))
    (hleft : left ≤ entries) (hentries : entries ≤ maxFecEntries) (hsmall : SmallEntries buf left ptr)
    (hslot : SlotBounded slot) (hin : AllIn buf.length touched) :
    AllIn buf.length touched' ∧ SlotBounded slot' := by
  induction left generalizing ptr slot touched with
  | zero =>
    obtain ⟨rfl, hrest⟩ := Prod.mk.inj (Option.some.inj h)
    obtain ⟨rfl, -⟩ := Prod.mk.inj hrest
    exact ⟨hin, hslot⟩
  | succ left ih =>
    rw [decodeFecAt] at h
    simp only [Option.bind_eq_bind, Option.bind_eq_some_iff, Prod.exists] at h
    obtain ⟨o, stat1, ho, h⟩ := h
    have hi : entries - (left + 1) < maxFecEntries := by omega
    obtain ⟨hdec, hdata⟩ := decodeOpenTypeAt_touched hlen ho (show 0 < 1 by decide)
    obtain ⟨e, henc, hend⟩ := decodeOpenTypeAt_some (noWrap_of_le hlen) ho
    have hn : o.numOctets ≤ localFaxMaxDatagram := hsmall 0 (Nat.succ_pos left) ptr .nil _ _ henc
    have hin' : AllIn buf.length (touched ++ .fecLen (entries - (left + 1)) :: o.touched) :=
      hin.append (hdec.cons hi)
    rcases hend with ⟨rfl, rfl⟩ | ⟨rfl, rfl⟩
    · rw [if_pos (by decide)] at h
      obtain ⟨rfl, hrest⟩ := Prod.mk.inj (Option.some.inj h)
      obtain ⟨rfl, -⟩ := Prod.mk.inj hrest
      exact ⟨hin', hslot.setLen hn _ slot.fec⟩
    · rw [if_neg (by decide), if_neg (by omega)] at h
      refine ih h (by omega) (fun i hi p hrow => ?_) (hslot.setLen hn _ _) ?_
      · exact hsmall (i + 1) (by omega) p ((row_succ henc hn).2 hrow)
      · exact hin'.append (.cons hi (.cons hn (.cons (hdata rfl) allIn_nil)))

/-! ## The repair -/

/-- Every slot of the ring is. -/
def RingBounded (rx : ℕ → UdptlFecRx) : Prop := ∀ x, SlotBounded (rx x)

theorem RingBounded.update {rx : ℕ → UdptlFecRx} (h : RingBounded rx) (hslot : SlotBounded slot)
    (x : ℕ) : RingBounded (Function.update rx x slot) := by
  intro y
  by_cases hyx : y = x
  · rw [hyx, Function.update_self]
    exact hslot
  · rw [Function.update_of_ne hyx]
    exact h y

variable {r r' : Repair} {rt rt' : Repair × List Touch} {l m x : ℕ}

theorem RingBounded.repairEntry (h : RingBounded r.1) (hr : repairEntry l m r = some r') :
    RingBounded r'.1 := by
  unfold Udptl.repairEntry at hr
  simp only [Option.bind_eq_bind, Option.bind_eq_some_iff] at hr
  obtain ⟨group, -, hr⟩ := hr
  split_ifs at hr
  · obtain rfl := Option.some.inj hr
    exact h.update ((h _).setBuf _ _) _
  · obtain rfl := Option.some.inj hr
    exact h

theorem repairTouches_in (h : RingBounded r.1) (hm : m < maxFecEntries) (limit l : ℕ) :
    AllIn limit (repairTouches l m r) := by
  have hn : (r.1 l).fecLen m ≤ localFaxMaxDatagram := (h l).lens m hm
  unfold repairTouches
  simp only
  cases fecGroup (mask (l + m)) (r.1 l).fecSpan (r.1 l).fecEntries with
  | none => exact allIn_nil
  | some group =>
    simp only
    split_ifs
    · exact .cons hm (.cons hm (.cons hn (.cons hn allIn_nil)))
    · exact .cons hm allIn_nil
    · exact allIn_nil

theorem repairEntriesAt_touched (h : repairEntriesAt l left m rt = some rt')
    (hbound : m + left ≤ maxFecEntries) (hring : RingBounded rt.1.1) (hin : AllIn limit rt.2) :
    RingBounded rt'.1.1 ∧ AllIn limit rt'.2 := by
  induction left generalizing m rt with
  | zero =>
    obtain rfl := Option.some.inj h
    exact ⟨hring, hin⟩
  | succ left ih =>
    rw [repairEntriesAt] at h
    obtain ⟨next, hnext, h⟩ := Option.bind_eq_some_iff.1 h
    exact ih h (by omega) (hring.repairEntry hnext)
      (hin.append (repairTouches_in hring (by omega) limit l))

theorem repairSlotsAt_touched {stop : ℕ} (h : repairSlotsAt stop fuel x rt = some rt')
    (hring : RingBounded rt.1.1) (hin : AllIn limit rt.2) :
    RingBounded rt'.1.1 ∧ AllIn limit rt'.2 := by
  induction fuel generalizing x rt with
  | zero =>
    rw [repairSlotsAt] at h
    split_ifs at h
    obtain rfl := Option.some.inj h
    exact ⟨hring, hin⟩
  | succ fuel ih =>
    rw [repairSlotsAt] at h
    by_cases hne : x ≠ stop
    · rw [if_pos hne] at h
      simp only [Option.bind_eq_bind] at h
      by_cases hnone : (rt.1.1 x).fecLen 0 ≤ 0
      · rw [if_pos hnone] at h
        exact ih h hring hin
      · rw [if_neg hnone] at h
        obtain ⟨r₁, hr₁, h⟩ := Option.bind_eq_some_iff.1 h
        have hentries := (hring x).entries
        obtain ⟨hring₁, hin₁⟩ := repairEntriesAt_touched hr₁ (by omega) hring hin
        exact ih h hring₁ hin₁
    · rw [if_neg hne] at h
      obtain rfl := Option.some.inj h
      exact ⟨hring, hin⟩

/-! ## The packet -/

theorem RingBounded.missSlots {s : UdptlRx} (h : RingBounded s.rx) (left : ℕ) :
    RingBounded (missSlots left s).rx := by
  induction left generalizing s with
  | zero => exact h
  | succ left ih =>
    refine ih (h.update ?_ _)
    refine ⟨Nat.zero_le _, fun m hm => ?_⟩
    show Function.update (s.rx (mask s.rxSeqNo)).fecLen 0 0 m ≤ _
    by_cases hm0 : m = 0
    · rw [hm0, Function.update_self]
      exact Nat.zero_le _
    · rw [Function.update_of_ne hm0]
      exact (h _).lens m hm

theorem playRepaired_length (r : Repair) (left x : ℕ) (j : ℤ) :
    (playRepaired r left x j).length ≤ left := by
  induction left generalizing x j with
  | zero => exact Nat.le_refl _
  | succ left ih =>
    have hrest := ih (mask (x + 1)) (j + 1)
    rw [playRepaired]
    split_ifs
    · rw [List.length_cons]
      omega
    · omega

/-- **A datagram that fits** the arrays of a receiver: at most sixteen
secondary packets, not all sixteen new, and at most five FEC entries, each
announcing no more octets than can be stored. -/
structure Fits (s : UdptlRx) (buf : List UInt8) : Prop where
  secondaries : ∀ ptr, SecondaryMode s buf ptr → ∀ m p, SecondaryAt buf (ptr + 1) 0 m p → m < 16
  frames : ∀ ptr, SecondaryMode s buf ptr → ∀ total, SecondaryCount buf (ptr + 1) 0 total →
    newCount (seqNumber buf) s.rxSeqNo total < 16
  entries : ∀ ptr, FecMode buf ptr → (buf.getD (ptr + 3) 0).toNat ≤ maxFecEntries
  small : ∀ ptr, FecMode buf ptr → SmallEntries buf (buf.getD (ptr + 3) 0).toNat (ptr + 4)

variable {s : UdptlRx} {run : RxRun} {ifp : OpenType} {seqNo : ℕ}

/-- What a mode of error recovery leaves: all it touched is inside, there is
room for the primary packet, and the ring is bounded. -/
structure RunOk (limit : ℕ) (run : RxRun) : Prop where
  touched : AllIn limit run.touched
  frames : ∀ frames, run.frames = some frames → frames.length < 16
  ring : RingBounded run.rx.rx

theorem rxSecondaryAt_ok (hlen : buf.length ≤ 8192)
    (h : rxSecondaryAt buf fuel s seqNo ptr = some run) (hring : RingBounded s.rx)
    (hfew : seqNo > s.rxSeqNo → ∀ m p, SecondaryAt buf ptr 0 m p → m < 16)
    (hnew : seqNo > s.rxSeqNo → ∀ total, SecondaryCount buf ptr 0 total →
      newCount seqNo s.rxSeqNo total < 16) : RunOk buf.length run := by
  unfold rxSecondaryAt at h
  by_cases hlater : seqNo > s.rxSeqNo
  · rw [if_pos hlater] at h
    simp only [Option.bind_eq_bind, Option.bind_eq_some_iff, Prod.exists] at h
    obtain ⟨t, whole, ht, h⟩ := h
    obtain ⟨hall, hcount⟩ := decodeSecondariesAt_touched hlen ht (hfew hlater) allIn_nil
    cases whole with
    | false =>
      obtain rfl := Option.some.inj h
      exact ⟨hall, by simp, hring⟩
    | true =>
      obtain rfl := Option.some.inj h
      refine ⟨hall, fun frames hf => ?_, hring⟩
      obtain rfl := Option.some.inj hf
      rw [newFrames_count]
      exact hnew hlater _ (hcount rfl)
  · rw [if_neg hlater] at h
    obtain rfl := Option.some.inj h
    refine ⟨allIn_nil, fun frames hf => ?_, hring⟩
    obtain rfl := Option.some.inj hf
    exact Nat.succ_pos 15

theorem rxFecAt_ok (hlen : buf.length ≤ 8192) (h : rxFecAt buf fuel s seqNo ifp ptr = some run)
    (hring : RingBounded s.rx) (hifp : ifp.object.getD 0 + ifp.numOctets ≤ buf.length)
    (hentries : FecFrom buf ifp ptr → (buf.getD (ptr + 2) 0).toNat ≤ maxFecEntries)
    (hsmall : FecFrom buf ifp ptr → SmallEntries buf (buf.getD (ptr + 2) 0).toNat (ptr + 3)) :
    RunOk buf.length run := by
  unfold rxFecAt at h
  by_cases hn : ifp.numOctets > localFaxMaxDatagram
  · rw [if_pos hn] at h
    obtain rfl := Option.some.inj h
    exact ⟨allIn_nil, by simp, hring⟩
  rw [if_neg hn] at h
  have hn' : ifp.numOctets ≤ localFaxMaxDatagram := Nat.le_of_not_gt hn
  have hring' := hring.missSlots (seqNo - s.rxSeqNo)
  have hsaved : AllIn buf.length
      [.bufOctets ifp.numOctets, .datagram (ifp.object.getD 0 + ifp.numOctets)] :=
    .cons hn' (.cons hifp allIn_nil)
  by_cases htwo : ptr + 2 > buf.length
  · rw [if_pos htwo] at h
    obtain rfl := Option.some.inj h
    exact ⟨hsaved, by simp, hring'.update ((hring' _).setBuf _ _) _⟩
  rw [if_neg htwo] at h
  by_cases hone : buf.getD ptr 0 ≠ 1
  · rw [if_pos hone] at h
    obtain rfl := Option.some.inj h
    exact ⟨hsaved.snoc (show ptr + 1 ≤ buf.length by omega), by simp,
      hring'.update ((hring' _).setBuf _ _) _⟩
  rw [if_neg hone] at h
  by_cases hthree : ptr + 3 > buf.length
  · rw [if_pos hthree] at h
    obtain rfl := Option.some.inj h
    refine ⟨hsaved.snoc (show ptr + 2 ≤ buf.length by omega), by simp, hring'.update ?_ _⟩
    exact ⟨(hring' _).entries, (hring' _).lens⟩
  rw [if_neg hthree] at h
  have hfrom : FecFrom buf ifp ptr := ⟨hn', by omega, by simpa using hone⟩
  simp only [Option.bind_eq_bind, Option.bind_eq_some_iff, Prod.exists] at h
  obtain ⟨slot, touched, whole, hdec, h⟩ := h
  have htwo' : (Touch.datagram (ptr + 2)).InRange buf.length := Nat.le_of_not_gt htwo
  have hthree' : (Touch.datagram (ptr + 3)).InRange buf.length := Nat.le_of_not_gt hthree
  obtain ⟨hall, hslot⟩ := decodeFecAt_touched hlen hdec (Nat.le_refl _) (hentries hfrom)
    (hsmall hfrom) ⟨hentries hfrom, (hring' _).lens⟩ ((hsaved.snoc htwo').snoc hthree')
  cases whole with
  | false =>
    obtain rfl := Option.some.inj h
    exact ⟨hall, by simp, hring'.update hslot _⟩
  | true =>
    rw [if_pos rfl] at h
    obtain ⟨⟨r, touched'⟩, hr, h⟩ := Option.bind_eq_some_iff.1 h
    obtain rfl := Option.some.inj h
    obtain ⟨hring₁, hall₁⟩ := repairSlotsAt_touched hr (hring'.update hslot _) hall
    refine ⟨hall₁, fun frames hf => ?_, hring₁⟩
    obtain rfl := Option.some.inj hf
    exact Nat.lt_succ_of_le (playRepaired_length _ _ _ _)

theorem allIn_frames {frames : List T38Frame} (h : frames.length ≤ 16) :
    AllIn limit ((List.range frames.length).map .frame) := by
  intro u hu
  obtain ⟨i, hi, rfl⟩ := List.mem_map.1 hu
  exact Nat.lt_of_lt_of_le (List.mem_range.1 hi) h

theorem RunOk.after (h : RunOk limit run) (hin : AllIn limit touched) :
    RunOk limit { run with touched := touched ++ run.touched } :=
  ⟨hin.append h.touched, h.frames, h.ring⟩

theorem playPrimary_ok (h : RunOk limit run) (seqNo : ℕ) (ifp : OpenType) :
    AllIn limit (playPrimary buf seqNo ifp run).touched ∧
      RingBounded (playPrimary buf seqNo ifp run).rx.rx := by
  unfold playPrimary
  cases hframes : run.frames with
  | none => exact ⟨h.touched, h.ring⟩
  | some frames =>
    have hroom := h.frames frames hframes
    refine ⟨h.touched.append (allIn_frames ?_), h.ring⟩
    split_ifs
    · rw [List.length_append]
      exact hroom
    · exact Nat.le_of_lt hroom

/-- **One datagram that fits** keeps every index inside, and the ring
bounded. -/
theorem udptlRxPacketAt_ok (hlen : buf.length ≤ 8192) (h : udptlRxPacketAt buf fuel s = some run)
    (hring : RingBounded s.rx) (hfit : Fits s buf) :
    AllIn buf.length run.touched ∧ RingBounded run.rx.rx := by
  unfold udptlRxPacketAt at h
  by_cases hseq : 2 > buf.length
  · rw [if_pos hseq] at h
    obtain rfl := Option.some.inj h
    exact ⟨allIn_nil, hring⟩
  rw [if_neg hseq] at h
  simp only [Option.bind_eq_bind, Option.bind_eq_some_iff, Prod.exists] at h
  obtain ⟨ifp, stat1, hifp, h⟩ := h
  obtain ⟨hdec, hdata⟩ := decodeOpenTypeAt_touched hlen hifp (show 0 < 1 by decide)
  obtain ⟨e, henc, hend⟩ := decodeOpenTypeAt_some (noWrap_of_le hlen) hifp
  have hstart : AllIn buf.length (.datagram 2 :: ifp.touched) :=
    .cons (show 2 ≤ buf.length by omega) hdec
  rcases hend with ⟨rfl, rfl⟩ | ⟨rfl, rfl⟩
  · rw [if_pos (by decide)] at h
    obtain rfl := Option.some.inj h
    exact ⟨hstart, hring⟩
  rw [if_neg (by decide)] at h
  by_cases hmode : ifp.len + 1 > buf.length
  · rw [if_pos hmode] at h
    obtain rfl := Option.some.inj h
    exact ⟨hstart, hring⟩
  rw [if_neg hmode] at h
  have hptr : (Touch.datagram (ifp.len + 1)).InRange buf.length := Nat.le_of_not_gt hmode
  have hstart' := hstart.snoc hptr
  by_cases hsec : buf.getD ifp.len 0 &&& 0x80 = 0
  · rw [if_pos hsec] at h
    obtain ⟨run₁, hrun, h⟩ := Option.bind_eq_some_iff.1 h
    obtain rfl := Option.some.inj h
    have hsecond : seqNumber buf > s.rxSeqNo → SecondaryMode s buf ifp.len :=
      fun hlater => ⟨⟨_, henc⟩, hptr, hsec, hlater⟩
    have hok := rxSecondaryAt_ok hlen hrun hring
      (fun hlater => hfit.secondaries _ (hsecond hlater))
      (fun hlater => hfit.frames _ (hsecond hlater))
    exact playPrimary_ok (hok.after hstart') _ _
  · rw [if_neg hsec] at h
    obtain ⟨run₁, hrun, h⟩ := Option.bind_eq_some_iff.1 h
    obtain rfl := Option.some.inj h
    have hfec : FecFrom buf ifp (ifp.len + 1) → FecMode buf ifp.len := by
      rintro ⟨hn, hthree, hone⟩
      exact ⟨⟨_, hn, henc⟩, by omega, hsec, hone⟩
    have hok := rxFecAt_ok hlen hrun hring (hdata rfl) (fun hfrom => hfit.entries _ (hfec hfrom))
      (fun hfrom => hfit.small _ (hfec hfrom))
    exact playPrimary_ok (hok.after hstart') _ _

/-! ## Runs -/

/-- A datagram is received, and decoding it ends. -/
def RxStep (s : UdptlRx) (buf : List UInt8) (s' : UdptlRx) : Prop :=
  buf.length ≤ 8192 ∧ ∃ fuel frames touched, udptlRxPacketAt buf fuel s = some ⟨s', frames, touched⟩

theorem newRx_bounded : RingBounded newRx.rx :=
  fun _ => ⟨Nat.zero_le _, fun _ _ => Nat.zero_le _⟩

/-- **Every index is inside** in a run whose datagrams all fit. -/
theorem rx_inRange {bufs : List (List UInt8)}
    (hrun : Trace (fun s buf s' => RxStep s buf s' ∧ Fits s buf) newRx bufs s)
    (hlen : buf.length ≤ 8192) (hfit : Fits s buf) (h : udptlRxPacketAt buf fuel s = some run) :
    AllIn buf.length run.touched := by
  have hring : RingBounded s.rx := by
    refine hrun.inv_state (I := fun s => RingBounded s.rx) newRx_bounded ?_
    rintro t d t' ht ⟨⟨hd, _, _, _, hrun'⟩, hfit'⟩
    exact (udptlRxPacketAt_ok hd hrun' ht hfit').2
  exact (udptlRxPacketAt_ok hlen h hring hfit).1

/-- A packet with the number 1 and one secondary packet. -/
def withSecondary : List UInt8 := [0, 1, 1, 7, 0, 1, 1, 5]

/-- A packet with the number 3 and one FEC entry. -/
def withFec : List UInt8 := [0, 3, 1, 9, 0x80, 1, 1, 1, 1, 14]

theorem withSecondary_fits (s : UdptlRx) : Fits s withSecondary := by
  have henc : Encoded withSecondary 2 1 (.whole 4) := .whole (l := ⟨false, 1, 3⟩) rfl rfl (by decide)
  have hlength : decodeLengthAt withSecondary 5 = some ⟨false, 1, 6⟩ := rfl
  have hptr : ∀ {n ptr}, Encoded withSecondary 2 n (.whole ptr) → ptr = 4 := by
    intro n ptr h
    obtain ⟨-, he⟩ := h.unique henc
    injection he
  have hnofec : ∀ ptr, ¬ FecMode withSecondary ptr := by
    rintro ptr ⟨⟨n, -, h⟩, -, hmode, -⟩
    obtain rfl := hptr h
    exact hmode rfl
  refine ⟨fun ptr hmode m p hat => ?_, fun ptr hmode total hcount => ?_,
    fun ptr hmode => absurd hmode (hnofec ptr), fun ptr hmode => absurd hmode (hnofec ptr)⟩
  · obtain ⟨n, h⟩ := hmode.primary
    obtain rfl := hptr h
    cases hat with
    | here hl hi _ =>
      obtain rfl := Option.some.inj (hlength.symm.trans hl)
      have hone : _ < 1 := hi
      omega
    | later hl hfrag _ _ =>
      obtain rfl := Option.some.inj (hlength.symm.trans hl)
      cases hfrag
  · obtain ⟨n, h⟩ := hmode.primary
    obtain rfl := hptr h
    cases hcount with
    | last hl _ _ =>
      obtain rfl := Option.some.inj (hlength.symm.trans hl)
      refine Nat.lt_of_le_of_lt List.countP_le_length ?_
      rw [List.length_range]
      decide
    | more hl hfrag _ _ =>
      obtain rfl := Option.some.inj (hlength.symm.trans hl)
      cases hfrag

theorem withFec_fits (s : UdptlRx) : Fits s withFec := by
  have henc : Encoded withFec 2 1 (.whole 4) := .whole (l := ⟨false, 1, 3⟩) rfl rfl (by decide)
  have hentry : Encoded withFec 8 1 (.whole 10) := .whole (l := ⟨false, 1, 9⟩) rfl rfl (by decide)
  have hptr : ∀ {n ptr}, Encoded withFec 2 n (.whole ptr) → ptr = 4 := by
    intro n ptr h
    obtain ⟨-, he⟩ := h.unique henc
    injection he
  have hnosecond : ∀ ptr, ¬ SecondaryMode s withFec ptr := by
    rintro ptr ⟨⟨n, h⟩, -, hmode, -⟩
    obtain rfl := hptr h
    exact absurd hmode (by decide)
  refine ⟨fun ptr hmode => absurd hmode (hnosecond ptr), fun ptr hmode => absurd hmode (hnosecond ptr),
    fun ptr hmode => ?_, fun ptr hmode i hi q hrow n e h => ?_⟩
  · obtain ⟨n, -, h⟩ := hmode.primary
    obtain rfl := hptr h
    decide
  · obtain ⟨n', -, h'⟩ := hmode.primary
    obtain rfl := hptr h'
    obtain rfl : i = 0 := Nat.lt_one_iff.1 hi
    obtain rfl := row_zero.1 hrow
    obtain ⟨rfl, -⟩ := h.unique hentry
    decide

/-- The two, one after the other. -/
theorem rx_inRange_two : ∃ s run, Trace (fun s buf s' => RxStep s buf s' ∧ Fits s buf) newRx
      [withSecondary] s ∧ udptlRxPacketAt withFec 11 s = some run ∧
    AllIn withFec.length run.touched := by
  have hruns : ((udptlRxPacketAt withSecondary 9 newRx).bind fun run =>
      udptlRxPacketAt withFec 11 run.rx).isSome = true := by decide +kernel
  obtain ⟨run₂, hruns⟩ := Option.isSome_iff_exists.1 hruns
  obtain ⟨run₁, h₁, h₂⟩ := Option.bind_eq_some_iff.1 hruns
  have hstep : RxStep newRx withSecondary run₁.rx := ⟨by decide, 9, run₁.frames, run₁.touched, h₁⟩
  have hrun : Trace (fun s buf s' => RxStep s buf s' ∧ Fits s buf) newRx [withSecondary] run₁.rx :=
    .single ⟨hstep, withSecondary_fits newRx⟩
  exact ⟨run₁.rx, run₂, hrun, h₂, rx_inRange hrun (by decide) (withFec_fits _) h₂⟩

/-- An empty primary packet with the number 1 and seventeen empty secondary
packets. -/
def seventeen : List UInt8 := [0, 1, 0, 0, 17] ++ List.replicate 17 0

theorem not_rx_inRange : ∃ run, udptlRxPacketAt seventeen 23 newRx = some run ∧
    ¬ AllIn seventeen.length run.touched := by
  have hrun : (udptlRxPacketAt seventeen 23 newRx).map (fun run => run.touched.contains (.lengths 16))
      = some true := by decide +kernel
  obtain ⟨run, hrun, hmem⟩ := Option.map_eq_some_iff.1 hrun
  refine ⟨run, hrun, fun hall => ?_⟩
  have hin : (Touch.lengths 16).InRange seventeen.length := hall _ (by simpa using hmem)
  exact absurd hin (Nat.lt_irrefl 16)

end Udptl

end Trismedia
