import Mathlib.Data.List.Range
import Trismedia.Udptl.Sender
/-!
# Redundancy

A datagram carries its IFP and the ones before it, and the receiver takes
of these what it expects. `rx_datagram` says which numbers one datagram
brings: from the one expected on, or from as far back as the datagram
goes, to its own. The number expected is the one after the last datagram,
whichever that was.
-/


namespace Trismedia

namespace Udptl

variable {buflen E i n k r a b seq left entry span : ℕ} {s : UdptlTx} {rx rx' : UdptlRx}
variable {tx : ℕ → UdptlFecTx} {buf buf' ifp rest : List UInt8}
variable {sent ifps prev bufs ds : List (List UInt8)} {arrivals : List ℕ}

/-- The datagram of a packet: its number, the IFP and the ones before it,
the last one first. -/
def secondaryDatagram (seq : ℕ) (ifp : List UInt8) (prev : List (List UInt8)) : List UInt8 :=
  seqOctets seq ++ openType ifp ++ 0x00 :: (lengthOctets prev.length ++ openTypes prev)

/-- The last IFPs, as many as there are entries. -/
def redundant (E : ℕ) (sent : List (List UInt8)) : List (List UInt8) :=
  sent.reverse.take (min E (sent.length % 4294967296))

/-- **The datagram** of an IFP after the IFPs `sent`. -/
def redundancyDatagram (E : ℕ) (sent : List (List UInt8)) (ifp : List UInt8) : List UInt8 :=
  secondaryDatagram (sent.length % 65536) ifp (redundant E sent)

theorem redundant_length (hE : E ≤ 15) : (redundant E sent).length =
    min E (sent.length % 4294967296) := by
  unfold redundant
  rw [List.length_take, List.length_reverse]
  omega

/-! ## The sender -/

theorem toUnsigned_natCast (h : n < 4294967296) : toUnsigned n = n := by
  unfold toUnsigned
  omega

/-- The entries are the last IFPs. -/
theorem encodeRedundancy_some (hslots : SlotsOk tx sent)
    (hshort : ∀ ifp ∈ sent, ifp.length ≤ localFaxMaxDatagram) (hk : k ≤ 15)
    (hkn : k ≤ sent.length) (hleft : left ≤ k)
    (h : encodeRedundancy buflen tx (sent.length % 16) k left buf = some (some buf')) :
    buf' = buf ++ openTypes ((sent.reverse.take k).drop (k - left)) := by
  induction left generalizing buf with
  | zero =>
    cases h
    rw [Nat.sub_zero, List.drop_eq_nil_of_le (by rw [List.length_take]; omega)]
    simp [openTypes]
  | succ left ih =>
    rw [encodeRedundancy] at h
    obtain ⟨res, h1, hrest⟩ := Option.bind_eq_some_iff.1 h
    cases res with
    | none => cases hrest
    | some buf₁ =>
      -- the IFP in that place
      have hidx : sent.length - 1 - (k - (left + 1)) < sent.length := by omega
      have hget : sent[sent.length - 1 - (k - (left + 1))]? =
          some (sent[sent.length - 1 - (k - (left + 1))]) := List.getElem?_eq_getElem hidx
      generalize sent[sent.length - 1 - (k - (left + 1))] = ifp at hget
      have hplace : mask (((sent.length % 16 : ℕ) : ℤ) - ((k - (left + 1) : ℕ) : ℤ) - 1) =
          (sent.length - 1 - (k - (left + 1))) % 16 := by
        unfold mask
        omega
      have hlen := hshort ifp (List.mem_of_getElem? hget)
      unfold localFaxMaxDatagram at hlen
      rw [hplace, hslots _ _ hget (by omega)] at h1
      simp only at h1
      rw [toUnsigned_natCast (by omega)] at h1
      have hbuf₁ := encodeOpenType_some (by omega) h1
      have hrec := ih (by omega) hrest
      have hdrop : (sent.reverse.take k).drop (k - (left + 1)) =
          ifp :: (sent.reverse.take k).drop (k - left) := by
        have hlt : k - (left + 1) < (sent.reverse.take k).length := by
          rw [List.length_take, List.length_reverse]
          omega
        rw [List.drop_eq_getElem_cons hlt]
        have hi : k - (left + 1) + 1 = k - left := by omega
        have hifp : (sent.reverse.take k)[k - (left + 1)] = ifp := by
          rw [List.getElem_take, List.getElem_reverse]
          exact Option.some.inj ((List.getElem?_eq_getElem hidx).symm.trans hget)
        rw [hi, hifp]
      rw [hrec, hbuf₁, hdrop]
      unfold openTypes
      rw [List.flatMap_cons, List.append_assoc]

/-- **What the sender sends.** -/
theorem redundancy_sent (hE : E ≤ 15) (hs : TxOk s sent)
    (hmode : SameMode (newTx .redundancy E span) s)
    (h : encodeErrorRecovery buflen (saved s sent.length ifp) (sent.length % 65536)
      (sent.length % 16) (seqOctets (sent.length % 65536) ++ openType ifp) = some (some buf)) :
    buf = redundancyDatagram E sent ifp := by
  obtain ⟨hscheme, hentries, -⟩ := hmode
  unfold encodeErrorRecovery at h
  have hscheme' : (saved s sent.length ifp).errorCorrectionScheme = .redundancy := hscheme
  have hentries' : (saved s sent.length ifp).errorCorrectionEntries = E := hentries
  have hseq : (saved s sent.length ifp).txSeqNo = sent.length % 4294967296 := hs.seq
  rw [hscheme'] at h
  simp only [hentries', hseq] at h
  have hk : (if sent.length % 4294967296 > E then E else sent.length % 4294967296) =
      min E (sent.length % 4294967296) := by
    split <;> omega
  rw [hk] at h
  obtain ⟨buf₁, h1, h⟩ := Option.bind_eq_some_iff.1 h
  obtain ⟨⟨buf₂, v⟩, h2, h⟩ := Option.bind_eq_some_iff.1 h
  obtain ⟨hbuf₂, -⟩ := encodeLength_some (by omega) h2
  have hslots : SlotsOk (saved s sent.length ifp).tx sent := hs.slots.update _
  have henc := encodeRedundancy_some hslots hs.short (by omega)
    (by omega) le_rfl h
  rw [henc, hbuf₂, putOctet_some h1, Nat.sub_self, List.drop_zero]
  unfold redundancyDatagram secondaryDatagram
  rw [redundant_length hE]
  unfold redundant
  simp only [List.append_assoc, List.cons_append, List.nil_append]

/-! ## The receiver -/

theorem decodeSecondary_openTypes (bufs : List (List UInt8)) (rest : List UInt8)
    (hds : ∀ d ∈ ds, d.length < 0x4000)
    (hlen : bufs.length + ds.length ≤ 16) :
    decodeSecondary ds.length bufs (openTypes ds ++ rest) =
      some (some (bufs ++ ds.map payload, rest)) := by
  induction ds generalizing bufs with
  | nil => simp [decodeSecondary, openTypes]
  | cons d ds ih =>
    rw [List.length_cons] at hlen
    rw [List.length_cons, decodeSecondary, if_neg (by omega), openTypes_cons,
      decodeOpenType_openType (hds d List.mem_cons_self)]
    simp only [Option.bind_eq_bind, Option.bind_some]
    rw [ih _ (fun d' hd => hds d' (List.mem_cons_of_mem _ hd)) (by
      rw [List.length_append, List.length_singleton]
      omega)]
    simp

theorem newFrames_length (seqNo rxSeqNo : ℕ) (bufs : List (List UInt8)) (i : ℕ) :
    (newFrames seqNo rxSeqNo bufs i).length ≤ i := by
  induction i with
  | zero => exact le_rfl
  | succ i ih =>
    rw [newFrames]
    split
    · exact Nat.succ_le_succ ih
    · exact Nat.le_succ_of_le ih

/-- **A datagram is taken apart.** -/
theorem rx_secondary (hseq : seq < 65536) (hifp : ifp.length < 0x4000)
    (hprev : ∀ d ∈ prev, d.length < 0x4000) (hlen : prev.length ≤ 15) :
    udptlRxPacket rx (secondaryDatagram seq ifp prev) =
      some ({ rx with rxSeqNo := seq + 1 },
        some ((if rx.rxSeqNo < seq then
            newFrames seq rx.rxSeqNo (prev.map payload) prev.length else []) ++
          if rx.rxSeqNo ≤ seq then [⟨seq, payload ifp⟩] else [])) := by
  have hsec : decodeSecondaries ((lengthOctets prev.length ++ openTypes prev).length + 1) []
      (lengthOctets prev.length ++ openTypes prev) = some (some (prev.map payload)) := by
    have hdec := decodeSecondary_openTypes [] [] hprev (by simpa using by omega)
    rw [List.append_nil] at hdec
    rw [decodeSecondaries, decodeLength_octets (by omega)]
    simp only [hdec, Option.bind_eq_bind, Option.bind_some]
    rfl
  have hshape : secondaryDatagram seq ifp prev = UInt8.ofNat (seq / 256) :: UInt8.ofNat (seq % 256) ::
      (openType ifp ++ 0x00 :: (lengthOctets prev.length ++ openTypes prev)) := by
    unfold secondaryDatagram seqOctets
    rfl
  rw [hshape]
  unfold udptlRxPacket
  simp only [seqOctets_value hseq, decodeOpenType_openType hifp, Option.bind_eq_bind,
    Option.bind_some, UInt8.zero_and, if_true]
  have hfew := newFrames_length seq rx.rxSeqNo (prev.map payload) prev.length
  by_cases hgap : rx.rxSeqNo < seq
  · have hge : rx.rxSeqNo ≤ seq := hgap.le
    simp only [gt_iff_lt, hgap, if_true, hsec, Option.pure_def, Option.bind_some, List.length_map,
      ge_iff_le, hge]
    rw [if_neg (by
      rw [List.length_append, List.length_singleton]
      omega)]
  · simp only [gt_iff_lt, hgap, if_false, ge_iff_le]
    by_cases hge : rx.rxSeqNo ≤ seq
    · simp [hge]
    · simp [hge]

/-! ## Which packets a datagram brings -/

/-- The frame of a packet. -/
def frameAt (sent : List (List UInt8)) (x : ℕ) : T38Frame :=
  ⟨(x % 65536 : ℕ), payload (sent.getD x [])⟩

/-- The frames of the packets from `a` to before `b`. -/
def framesFrom (sent : List (List UInt8)) (a b : ℕ) : List T38Frame :=
  (List.range' a (b - a)).map (frameAt sent)

theorem framesFrom_append (hab : a ≤ b) (hbn : b ≤ n) :
    framesFrom sent a b ++ framesFrom sent b n = framesFrom sent a n := by
  unfold framesFrom
  rw [← List.map_append]
  have hn : n - a = (b - a) + (n - b) := by omega
  have hb : b = a + 1 * (b - a) := by omega
  rw [hn, ← List.range'_append, ← hb]

theorem framesFrom_cons (hab : a < b) :
    framesFrom sent a b = frameAt sent a :: framesFrom sent (a + 1) b := by
  unfold framesFrom
  have hb : b - a = (b - (a + 1)) + 1 := by omega
  rw [hb, List.range'_succ, List.map_cons]

/-- The secondary packets that were not seen before, where the numbers have
not come round. -/
theorem newFrames_eq (hseq : n < 65536) (hin : i ≤ n) (hr : r ≤ n)
    (hbufs : ∀ x, n - i ≤ x → x < n → bufs.getD (n - 1 - x) [] = payload (sent.getD x [])) :
    newFrames n r bufs i = framesFrom sent (max r (n - i)) n := by
  induction i with
  | zero =>
    rw [newFrames, Nat.sub_zero, max_eq_right hr]
    simp [framesFrom]
  | succ i ih =>
    have hrec := ih (by omega) fun x hx hxn => hbufs x (by omega) hxn
    have hcast : (n : ℤ) - (i + 1 : ℕ) = ((n - (i + 1) : ℕ) : ℤ) := by omega
    rw [newFrames, hcast, toUnsigned_natCast (by omega), hrec]
    by_cases hge : n - (i + 1) ≥ r
    · have hmax : max r (n - (i + 1)) = n - (i + 1) := max_eq_right hge
      have hmax' : max r (n - i) = n - (i + 1) + 1 := by omega
      rw [if_pos hge, hmax, hmax', framesFrom_cons (a := n - (i + 1)) (b := n) (by omega)]
      have hbuf := hbufs (n - (i + 1)) le_rfl (by omega)
      have hidx : n - 1 - (n - (i + 1)) = i := by omega
      rw [hidx] at hbuf
      unfold frameAt
      rw [hbuf, Nat.mod_eq_of_lt (by omega)]
    · have hmax : max r (n - (i + 1)) = max r (n - i) := by omega
      rw [if_neg hge, hmax]

/-- The datagram of the packet `n`. -/
def datagramAt (E : ℕ) (sent : List (List UInt8)) (n : ℕ) : List UInt8 :=
  redundancyDatagram E (sent.take n) (sent.getD n [])

/-- The secondary packet that is one before packet `x`. -/
theorem redundant_getD (hE : E ≤ 15) {x : ℕ} (hn : n ≤ sent.length) (hlow : n - min E n ≤ x)
    (hx : x < n) (hbound : n < 4294967296) :
    ((redundant E (sent.take n)).map payload).getD (n - 1 - x) [] = payload (sent.getD x []) := by
  have hlen : (sent.take n).length = n := by
    rw [List.length_take]
    omega
  have hget : (redundant E (sent.take n))[n - 1 - x]? = sent[x]? := by
    unfold redundant
    rw [hlen, List.getElem?_take_of_lt (by omega), List.getElem?_reverse (by omega), hlen,
      List.getElem?_take_of_lt (by omega)]
    congr 1
    omega
  rw [List.getD_eq_getElem?_getD, List.getElem?_map, hget, List.getElem?_eq_getElem (by omega),
    List.getD_eq_getElem?_getD, List.getElem?_eq_getElem (by omega)]
  rfl

/-- A datagram of the session is always taken, wherever the numbers are. -/
theorem rx_at (hE : E ≤ 15) (hshort : ∀ ifp ∈ sent, ifp.length ≤ localFaxMaxDatagram)
    (hn : n < sent.length) (rx : UdptlRx) :
    udptlRxPacket rx (datagramAt E sent n) = some ({ rx with rxSeqNo := n % 65536 + 1 },
      some ((if rx.rxSeqNo < n % 65536 then newFrames (n % 65536) rx.rxSeqNo
          ((redundant E (sent.take n)).map payload) (min E (n % 4294967296)) else []) ++
        if rx.rxSeqNo ≤ n % 65536 then
          [⟨(n % 65536 : ℕ), payload (sent.getD n [])⟩] else [])) := by
  have hlen : (sent.take n).length = n := by
    rw [List.length_take]
    omega
  have hlt : ∀ d ∈ sent, d.length < 0x4000 := by
    intro d hd
    have hd' := hshort d hd
    unfold localFaxMaxDatagram at hd'
    omega
  have hifp : sent.getD n [] ∈ sent := by
    rw [List.getD_eq_getElem?_getD, List.getElem?_eq_getElem hn]
    exact List.getElem_mem hn
  have hprev : ∀ d ∈ redundant E (sent.take n), d.length < 0x4000 := fun d hd =>
    hlt d (List.mem_of_mem_take (List.mem_reverse.1 (List.mem_of_mem_take hd)))
  have hk : (redundant E (sent.take n)).length = min E (n % 4294967296) := by
    rw [redundant_length hE, hlen]
  unfold datagramAt redundancyDatagram
  rw [hlen, rx_secondary (Nat.mod_lt _ (by decide)) (hlt _ hifp) hprev (by omega), hk]

/-- **What one datagram brings**, where the numbers have not come round. -/
theorem rx_datagram (rx : UdptlRx) (hE : E ≤ 15) (hshort : ∀ ifp ∈ sent, ifp.length ≤ localFaxMaxDatagram)
    (hn : n < sent.length) (hbound : n < 65536) :
    udptlRxPacket rx (datagramAt E sent n) = some ({ rx with rxSeqNo := n + 1 },
      some (framesFrom sent (max rx.rxSeqNo (n - E)) (n + 1))) := by
  have hmod : n % 65536 = n := Nat.mod_eq_of_lt hbound
  have hprimary : (⟨n, payload (sent.getD n [])⟩ : T38Frame) = frameAt sent n := by
    unfold frameAt
    rw [hmod]
  have hlast : framesFrom sent n (n + 1) = [frameAt sent n] := by
    rw [framesFrom_cons (by omega)]
    simp [framesFrom]
  rw [rx_at hE hshort hn, hmod, Nat.mod_eq_of_lt (a := n) (b := 4294967296) (by omega), hprimary]
  by_cases hle : rx.rxSeqNo ≤ n
  · rw [if_pos hle]
    by_cases hgap : rx.rxSeqNo < n
    · have hnew := newFrames_eq (r := rx.rxSeqNo) (i := min E n) hbound (by omega) hle fun x hlow hx =>
        redundant_getD hE hn.le hlow hx (by omega)
      have hmax : max rx.rxSeqNo (n - min E n) = max rx.rxSeqNo (n - E) := by omega
      rw [if_pos hgap, hnew, hmax, ← hlast, framesFrom_append (by omega) (by omega)]
    · have hmax : max rx.rxSeqNo (n - E) = n := by omega
      rw [if_neg hgap, hmax, hlast, List.nil_append]
  · -- the packet is late, and brings nothing
    have hnil : framesFrom sent (max rx.rxSeqNo (n - E)) (n + 1) = [] := by
      have hzero : n + 1 - max rx.rxSeqNo (n - E) = 0 := by omega
      unfold framesFrom
      rw [hzero, List.range'_zero, List.map_nil]
    rw [if_neg hle, if_neg (by omega), List.nil_append, hnil]

/-- The datagrams of a session. -/
theorem redundancy_datagrams (hE : E ≤ 15) {s' : UdptlTx} {pairs : List (List UInt8 × List UInt8)}
    (h : sendAll buflen (newTx .redundancy E span) ifps = some (s', pairs)) :
    (∀ ifp ∈ pairs.map Prod.fst, ifp.length ≤ localFaxMaxDatagram ∧ ifp ∈ ifps) ∧
      ∀ i < pairs.length, (pairs[i]?).map Prod.snd = some (datagramAt E (pairs.map Prod.fst) i) :=
  sendAll_datagrams (redundancyDatagram E)
    (fun s sent ifp buf hs hmode _ hrec => redundancy_sent hE hs hmode hrec)
    (newTx_ok .redundancy E span) h

/-! ## Short packets are not refused -/

/-- An IFP of less than 128 octets that is not empty. -/
def Short (ifp : List UInt8) : Prop := ifp ≠ [] ∧ ifp.length < 0x80

theorem openType_length (h : Short ifp) : (openType ifp).length = ifp.length + 1 := by
  unfold openType lengthOctets
  rw [payload_of_ne h.1, if_pos h.2, List.length_append, List.length_singleton, Nat.add_comm]

theorem encodeRedundancy_fits (buf : List UInt8) (hslots : SlotsOk tx sent) (hshort : ∀ ifp ∈ sent, Short ifp)
    (hk : k ≤ 15) (hkn : k ≤ sent.length) (hleft : left ≤ k)
    (hfits : buf.length + 128 * left ≤ buflen) :
    ∃ buf', encodeRedundancy buflen tx (sent.length % 16) k left buf = some (some buf') := by
  induction left generalizing buf with
  | zero => exact ⟨buf, rfl⟩
  | succ left ih =>
    have hidx : sent.length - 1 - (k - (left + 1)) < sent.length := by omega
    have hget : sent[sent.length - 1 - (k - (left + 1))]? =
        some (sent[sent.length - 1 - (k - (left + 1))]) := List.getElem?_eq_getElem hidx
    generalize sent[sent.length - 1 - (k - (left + 1))] = ifp at hget
    have hplace : mask (((sent.length % 16 : ℕ) : ℤ) - ((k - (left + 1) : ℕ) : ℤ) - 1) =
        (sent.length - 1 - (k - (left + 1))) % 16 := by
      unfold mask
      omega
    have hifp := hshort ifp (List.mem_of_getElem? hget)
    have hlen := hifp.2
    obtain ⟨buf', hrec⟩ := ih (buf ++ openType ifp) (by omega) (by
      rw [List.length_append, openType_length hifp]
      omega)
    refine ⟨buf', ?_⟩
    rw [encodeRedundancy, hplace, hslots _ _ hget (by omega)]
    simp only
    rw [toUnsigned_natCast (by omega), encodeOpenType_fits hifp.1 hlen (by omega)]
    exact hrec

theorem encodeErrorRecovery_fits (hE : E ≤ 15) (hs : TxOk s sent)
    (hmode : SameMode (newTx .redundancy E span) s) (hshort : ∀ ifp ∈ sent, Short ifp)
    (hlen : ifp.length < 0x80) (hbuf : buf.length = 2 + (ifp.length + 1))
    (hfits : 4 + 128 * (E + 1) ≤ buflen) :
    ∃ buf', encodeErrorRecovery buflen (saved s sent.length ifp) (sent.length % 65536)
      (sent.length % 16) buf = some (some buf') := by
  obtain ⟨hscheme, hentries, -⟩ := hmode
  have hscheme' : (saved s sent.length ifp).errorCorrectionScheme = .redundancy := hscheme
  have hentries' : (saved s sent.length ifp).errorCorrectionEntries = E := hentries
  have hseq' : (saved s sent.length ifp).txSeqNo = sent.length % 4294967296 := hs.seq
  unfold encodeErrorRecovery
  rw [hscheme']
  simp only [hentries', hseq']
  have hk : (if sent.length % 4294967296 > E then E else sent.length % 4294967296) =
      min E (sent.length % 4294967296) := by
    split <;> omega
  have hone : (lengthOctets (min E (sent.length % 4294967296))).length = 1 := by
    unfold lengthOctets
    rw [if_pos (by omega)]
    rfl
  rw [hk, putOctet_fits (by omega)]
  simp only [Option.bind_eq_bind, Option.bind_some]
  rw [encodeLength_short (by omega) (by
    rw [List.length_append, List.length_singleton]
    omega)]
  simp only [Option.bind_some]
  refine encodeRedundancy_fits _ (hs.slots.update _) hshort (by omega) (by omega) le_rfl ?_
  simp only [List.length_append, List.length_singleton, hone]
  omega

/-- **A short IFP is not refused.** -/
theorem build_fits (hE : E ≤ 15) (hs : TxOk s sent)
    (hmode : SameMode (newTx .redundancy E span) s) (hshort : ∀ ifp ∈ sent, Short ifp)
    (hifp : Short ifp) (hfits : 4 + 128 * (E + 1) ≤ buflen) :
    ∃ s' buf, udptlBuildPacket buflen s ifp = some (s', some buf) := by
  obtain ⟨hscheme, hentries, hspan⟩ := hmode
  obtain ⟨hseq, hentry⟩ := hs.number
  have hlen := hifp.2
  have hopen := openType_length hifp
  unfold udptlBuildPacket
  simp only [hseq, hentry]
  rw [if_neg (by
    unfold localFaxMaxDatagram
    omega), putOctet_fits (by
    rw [List.length_nil]
    omega)]
  simp only [Option.bind_eq_bind, Option.bind_some]
  rw [putOctet_fits (by
    simp only [List.nil_append, List.length_singleton]
    omega)]
  simp only [Option.bind_some]
  rw [encodeOpenType_fits hifp.1 hifp.2 (by
    simp only [List.nil_append, List.singleton_append, List.length_cons, List.length_nil]
    omega)]
  simp only [Option.bind_some]
  have hocts : ∀ a b : UInt8, ([] ++ [a] ++ [b] ++ openType ifp).length = 2 + (ifp.length + 1) := by
    intro a b
    simp only [List.nil_append, List.cons_append, List.length_cons, hopen]
    omega
  obtain ⟨buf, hbuf⟩ := encodeErrorRecovery_fits hE hs ⟨hscheme, hentries, hspan⟩ hshort hlen
    (hocts _ _) hfits
  unfold saved at hbuf
  rw [hbuf]
  exact ⟨_, buf, rfl⟩

theorem sendAll_fits (hE : E ≤ 15) (hs : TxOk s sent)
    (hmode : SameMode (newTx .redundancy E span) s) (hshort : ∀ ifp ∈ sent, Short ifp)
    (hifps : ∀ ifp ∈ ifps, Short ifp) (hfits : 4 + 128 * (E + 1) ≤ buflen) :
    ∃ s' pairs, sendAll buflen s ifps = some (s', pairs) ∧ pairs.map Prod.fst = ifps := by
  induction ifps generalizing s sent with
  | nil => exact ⟨s, [], rfl, rfl⟩
  | cons ifp ifps ih =>
    have hifp := hifps ifp List.mem_cons_self
    obtain ⟨s₁, buf, hbuild⟩ := build_fits hE hs hmode hshort hifp hfits
    obtain ⟨hlen, ⟨hnone, -⟩ | ⟨-, -, -, rfl⟩⟩ := build_eq hs hbuild
    · cases hnone
    have hshort' : ∀ d ∈ sent ++ [ifp], Short d := by
      intro d hd
      rcases List.mem_append.1 hd with hd | hd
      · exact hshort d hd
      · rw [List.mem_singleton.1 hd]
        exact hifp
    obtain ⟨s', pairs, hsend, hpairs⟩ := ih (hs.pushed hlen) hmode hshort'
      fun d hd => hifps d (List.mem_cons_of_mem _ hd)
    refine ⟨s', (ifp, buf) :: pairs, ?_, by rw [List.map_cons, hpairs]⟩
    rw [sendAll, hbuild]
    simp only [Option.bind_eq_bind, Option.bind_some]
    rw [hsend]
    rfl

end Udptl

end Trismedia
