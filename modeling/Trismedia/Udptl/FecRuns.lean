import Trismedia.Udptl.FecWindow
/-!
# FEC sessions

One datagram brings its own packet and the one it repairs, if there is
one. So over a whole session with isolated losses each packet is delivered
once, a lost one with the datagram that repairs it, as long as that is
sent at all.
-/


namespace Trismedia

namespace Udptl

variable {buflen s e q p m n x k c fuel left l stop b : ℕ} {sent ifps : List (List UInt8)}
variable {lost bad : ℕ → Prop} {rx : ℕ → UdptlFecRx} {flags : ℕ → Bool}
variable {slot fixed : UdptlFecRx} {z j : ℤ} {r : Repair} {ur ur' : UdptlRx} {rest : List UInt8}

/-! ## Playing -/

theorem playRepaired_none (h : ∀ i < left, r.2 ((b + i) % 16) = false) :
    playRepaired r left (b % 16) j = [] := by
  induction left generalizing b j with
  | zero => rfl
  | succ left ih =>
    have hfirst := h 0 (Nat.succ_pos _)
    have hnext : mask (((b % 16 : ℕ) : ℤ) + 1) = (b + 1) % 16 := by
      unfold mask
      omega
    rw [Nat.add_zero] at hfirst
    rw [playRepaired, hfirst, hnext]
    refine ih fun i hi => ?_
    rw [Nat.add_assoc, Nat.add_comm 1 i]
    exact h (i + 1) (by omega)

/-- One repaired slot is played, with its number. -/
theorem playRepaired_one {c : ℕ} (hc : c < left) (hset : r.2 ((b + c) % 16) = true)
    (h : ∀ i < left, i ≠ c → r.2 ((b + i) % 16) = false) :
    playRepaired r left (b % 16) j =
      [⟨j + c, (r.1 ((b + c) % 16)).buf.take (r.1 ((b + c) % 16)).bufLen.toNat⟩] := by
  induction left generalizing b j c with
  | zero => omega
  | succ left ih =>
    have hnext : mask (((b % 16 : ℕ) : ℤ) + 1) = (b + 1) % 16 := by
      unfold mask
      omega
    have hshift : ∀ i, b + 1 + i = b + (i + 1) := fun i => by omega
    rw [playRepaired, hnext]
    cases c with
    | zero =>
      rw [Nat.add_zero] at hset ⊢
      rw [if_pos hset, playRepaired_none fun i hi => ?_]
      · simp
      · rw [hshift]
        exact h (i + 1) (by omega) (by omega)
    | succ c =>
      have hfirst := h 0 (Nat.succ_pos _) (by omega)
      rw [Nat.add_zero] at hfirst
      rw [hfirst]
      have hrec := ih (b := b + 1) (j := j + 1) (c := c) (by omega) (by rwa [hshift])
        fun i hi hne => by
          rw [hshift]
          exact h (i + 1) (by omega) (by omega)
      rw [hshift] at hrec
      have hnum : j + 1 + (c : ℤ) = j + ((c + 1 : ℕ) : ℤ) := by omega
      rw [hnum] at hrec
      exact hrec

/-! ## The entries of a datagram -/

/-- **The entries are read back** into the slot. -/
theorem decodeFec_spec {t : ℕ} (d : ℕ → List UInt8) (ht : t ≤ maxFecEntries)
    (hd : ∀ m < t, d m ≠ [] ∧ (d m).length ≤ localFaxMaxDatagram) (hleft : left ≤ t)
    (slot : UdptlFecRx) :
    ∃ slot', decodeFec t left slot (openTypes (((List.range t).drop (t - left)).map d)) =
        some (slot', true) ∧
      slot'.bufLen = slot.bufLen ∧ slot'.buf = slot.buf ∧ slot'.fecSpan = slot.fecSpan ∧
      slot'.fecEntries = slot.fecEntries ∧
      (∀ m < t - left, slot'.fec m = slot.fec m ∧ slot'.fecLen m = slot.fecLen m) ∧
      ∀ m < t, t - left ≤ m → slot'.fec m = d m ∧ slot'.fecLen m = (d m).length := by
  induction left generalizing slot with
  | zero =>
    refine ⟨slot, rfl, rfl, rfl, rfl, rfl, fun m hm => ⟨rfl, rfl⟩, fun m hm hle => ?_⟩
    omega
  | succ left ih =>
    have hm : t - (left + 1) < t := by omega
    obtain ⟨hne, hlen⟩ := hd _ hm
    have hidx : t - (left + 1) + 1 = t - left := by omega
    have hdrop : (List.range t).drop (t - (left + 1)) =
        (t - (left + 1)) :: (List.range t).drop (t - left) := by
      rw [List.drop_eq_getElem_cons (by rwa [List.length_range]), List.getElem_range, hidx]
    have hshape : openTypes (((List.range t).drop (t - (left + 1))).map d) =
        openType (d (t - (left + 1))) ++ openTypes (((List.range t).drop (t - left)).map d) := by
      rw [hdrop, List.map_cons]
      unfold openTypes
      rw [List.flatMap_cons]
    have hlt : (d (t - (left + 1))).length < 0x4000 := by
      unfold localFaxMaxDatagram at hlen
      omega
    obtain ⟨slot', hdec, hbl, hb, hsp, hen, hlow, hhigh⟩ := ih (by omega)
      { slot with
        fecLen := Function.update slot.fecLen (t - (left + 1)) (d (t - (left + 1))).length
        fec := Function.update slot.fec (t - (left + 1)) (d (t - (left + 1))) }
    refine ⟨slot', ?_, hbl, hb, hsp, hen, fun m hm' => ?_, fun m hmt hle => ?_⟩
    · rw [decodeFec, if_neg (by omega), hshape, decodeOpenType_openType hlt, payload_of_ne hne]
      simp only [Option.bind_eq_bind, Option.bind_some]
      rw [if_neg (by omega)]
      exact hdec
    · have hrest := hlow m (by omega)
      simp only at hrest
      rwa [Function.update_of_ne (by omega), Function.update_of_ne (by omega)] at hrest
    · by_cases heq : m = t - (left + 1)
      · have hrest := hlow m (by omega)
        simp only [heq, Function.update_self] at hrest
        rw [heq]
        exact hrest
      · exact hhigh m hmt (by omega)

/-! ## One datagram -/

theorem missSlots_succ (k : ℕ) (ur : UdptlRx) :
    missSlots (k + 1) ur = missSlots 1 (missSlots k ur) := by
  induction k generalizing ur with
  | zero => rfl
  | succ k ih =>
    rw [missSlots, ih]
    rfl

theorem missSlots_rxSeqNo (k : ℕ) (ur : UdptlRx) :
    (missSlots k ur).rxSeqNo = ur.rxSeqNo + k := by
  induction k generalizing ur with
  | zero => rfl
  | succ k ih =>
    rw [missSlots, ih]
    simp only
    omega

/-- **The receiver before the packet `q`**, the packets that were missed
since the last one counted. -/
structure RxOk (s e : ℕ) (sent : List (List UInt8)) (lost : ℕ → Prop) (q : ℕ) (ur : UdptlRx) :
    Prop where
  rxSeqNo : ur.rxSeqNo ≤ q
  window : Window s e sent lost (Bad s lost q) (missSlots (q - ur.rxSeqNo) ur).rx q

theorem rxOk_new : RxOk s e sent lost 0 newRx := ⟨le_rfl, window_new⟩

/-- A packet is lost. -/
theorem RxOk.missed (hp : FecParams s e) (hfar : FarApart s e lost) (h : RxOk s e sent lost q ur)
    (hq : lost q) : RxOk s e sent lost (q + 1) ur := by
  have hle := h.rxSeqNo
  refine ⟨by omega, ?_⟩
  have hsub : q + 1 - ur.rxSeqNo = (q - ur.rxSeqNo) + 1 := by omega
  have hseq : (missSlots (q - ur.rxSeqNo) ur).rxSeqNo = q := by
    rw [missSlots_rxSeqNo]
    omega
  have hw : Window s e sent lost (Bad s lost (q + 1)) (missSlots (q - ur.rxSeqNo) ur).rx q := by
    refine h.window.congr fun x hx hlost => ?_
    unfold Bad
    have hne : repairAt s x ≠ q := fun heq => hfar.repairAt_arrives hp hlost (heq ▸ hq)
    simp only [hlost, true_and]
    omega
  rw [hsub, missSlots_succ, missSlots]
  simp only [hseq, mask_natCast]
  refine hw.miss hq ⟨hq, ?_⟩ ⟨?_, rfl⟩
  · unfold repairAt
    omega
  · exact Function.update_self 0 0 ((missSlots (q - ur.rxSeqNo) ur).rx (q % 16)).fecLen

theorem fecEntry_take (hm : m < entriesAt s e q) :
    fecEntry s e (sent.take q) q m = fecEntry s e sent q m := by
  unfold fecEntry
  congr 1
  refine List.map_congr_left fun x hx => ?_
  have hlt := (group_bounds hm hx).2
  rw [List.getD_eq_getElem?_getD, List.getElem?_take_of_lt hlt, List.getD_eq_getElem?_getD]

/-- The datagram of the packet `q`. -/
def fecDatagramAt (s e : ℕ) (sent : List (List UInt8)) (q : ℕ) : List UInt8 :=
  fecDatagram s e (sent.take q) (sent.getD q [])

theorem ofNat_toNat (h : n < 256) : (UInt8.ofNat n).toNat = n := by
  rw [UInt8.toNat_ofNat']
  exact Nat.mod_eq_of_lt h

/-- The entries of the datagram, as they were sent. -/
theorem fecEntries_take (s e q : ℕ) (sent : List (List UInt8)) :
    (List.range (entriesAt s e q)).map (fecEntry s e (sent.take q) q) =
      (List.range (entriesAt s e q)).map (fecEntry s e sent q) :=
  List.map_congr_left fun _ hm => fecEntry_take (List.mem_range.1 hm)

/-- **The datagram is read** into its slot, and the repair begins. -/
theorem rxFec_eq (hp : FecParams s e) (hne : ∀ ifp ∈ sent, ifp ≠ [])
    (hshort : ∀ ifp ∈ sent, ifp.length ≤ localFaxMaxDatagram) (hq : q < sent.length) (ur : UdptlRx) :
    ∃ slot, Arrived s e sent slot q ∧
      rxFec ur q (sent.getD q []) (1 :: UInt8.ofNat (spanAt s e q) ::
          UInt8.ofNat (entriesAt s e q) ::
          openTypes ((List.range (entriesAt s e q)).map (fecEntry s e (sent.take q) q))) =
        (repairSlots (mask (((q % 16 : ℕ) : ℤ) -
            (16 - (spanAt s e q : ℤ) * (entriesAt s e q : ℤ)))) 16 (q % 16)
          (Function.update (missSlots (q - ur.rxSeqNo) ur).rx (q % 16) slot,
            Function.update (fun _ => false) (q % 16) true)).bind fun r =>
          some ({ missSlots (q - ur.rxSeqNo) ur with rx := r.1 },
            some (playRepaired r 15 ((q + 1) % 16) ((q : ℤ) - 15))) := by
  have hlen : (sent.getD q []).length ≤ localFaxMaxDatagram :=
    hshort _ (List.mem_of_getElem? (getD_mem hq))
  have hspan : spanAt s e q < 256 := by
    have hring := Nat.mul_le_mul_left s hp.entries
    have hlt := hp.ring
    unfold spanAt
    split <;> omega
  have hent : entriesAt s e q ≤ maxFecEntries := le_trans (entriesAt_le s e q) hp.few
  have hent' : entriesAt s e q < 256 := by
    unfold maxFecEntries at hent
    omega
  have hd : ∀ m < entriesAt s e q, fecEntry s e sent q m ≠ [] ∧
      (fecEntry s e sent q m).length ≤ localFaxMaxDatagram := by
    intro m hm
    refine ⟨fun hnil => ?_, fecEntry_length hm hq.le hshort⟩
    obtain ⟨x, hx⟩ : ∃ x, x ∈ groupNumbers s e q m := by
      unfold groupNumbers
      exact ⟨_, List.mem_map_of_mem (List.mem_range.2 hp.span)⟩
    have hlt := (group_bounds hm hx).2
    have hle := le_fecEntry_length sent hx
    have hpos := List.length_pos_of_ne_nil
      (hne _ (List.mem_of_getElem? (getD_mem (x := x) (by omega))))
    rw [hnil, List.length_nil] at hle
    omega
  generalize hmiss : missSlots (q - ur.rxSeqNo) ur = missed
  obtain ⟨slot, hdec, hbl, hb, hsp, hen, -, hfec⟩ := decodeFec_spec (fecEntry s e sent q) hent hd
    le_rfl { missed.rx (q % 16) with
      buf := sent.getD q []
      bufLen := (sent.getD q []).length
      fecSpan := spanAt s e q
      fecEntries := entriesAt s e q }
  rw [Nat.sub_self, List.drop_zero] at hdec
  refine ⟨slot, ⟨hbl, hb, hsp, hen, fun m hm => (hfec m hm (by omega)).1,
    fun m hm => (hfec m hm (by omega)).2⟩, ?_⟩
  have hnext : mask (((q % 16 : ℕ) : ℤ) + 1) = (q + 1) % 16 := by
    unfold mask
    omega
  unfold rxFec
  rw [if_neg (not_lt.2 hlen)]
  simp only [hmiss, mask_natCast, ne_eq, not_true_eq_false, if_false, ofNat_toNat hspan,
    ofNat_toNat hent', fecEntries_take, hdec, Option.bind_eq_bind, Option.bind_some, if_true, hnext]
  rfl

/-- The packets that are bad and not later: only the one that is repaired
now. -/
theorem bad_iff (hqs : s ≤ q) (harr : ¬ lost q) (hx : x ≤ q) :
    Bad s lost q x ↔ lost x ∧ repairAt s x = q := by
  unfold Bad
  refine and_congr_right fun hlost => ?_
  have hxq : x ≠ q := fun heq => harr (heq ▸ hlost)
  unfold repairAt
  omega

/-- **What one datagram brings**: the packet it repairs, if there is one,
and its own. -/
theorem rx_fec (hp : FecParams s e) (hfar : FarApart s e lost) (hne : ∀ ifp ∈ sent, ifp ≠ [])
    (hshort : ∀ ifp ∈ sent, ifp.length ≤ localFaxMaxDatagram) (hq : q < sent.length)
    (hfew : sent.length < 65536) (h : RxOk s e sent lost q ur) (harr : ¬ lost q) :
    ∃ ur' frames, udptlRxPacket ur (fecDatagramAt s e sent q) =
        some (ur', some (frames ++ [⟨q, sent.getD q []⟩])) ∧
      RxOk s e sent lost (q + 1) ur' ∧
      ((frames = [] ∧ ∀ n, lost n → repairAt s n ≠ q) ∨
        ∃ n k, lost n ∧ repairAt s n = q ∧
          frames = [⟨n, sent.getD n [] ++ List.replicate k 0⟩]) := by
  obtain ⟨slot, ha, hrx⟩ := rxFec_eq hp hne hshort hq ur
  have hle := h.rxSeqNo
  have hseq : (missSlots (q - ur.rxSeqNo) ur).rxSeqNo = q := by
    rw [missSlots_rxSeqNo]
    omega
  have hwin := h.window
  generalize missSlots (q - ur.rxSeqNo) ur = missed at hrx hseq hwin
  -- what is left to do once the repair is known
  have hfinish : ∀ r frames, repairSlots (mask (((q % 16 : ℕ) : ℤ) -
        (16 - (spanAt s e q : ℤ) * (entriesAt s e q : ℤ)))) 16 (q % 16)
      (Function.update missed.rx (q % 16) slot,
        Function.update (fun _ => false) (q % 16) true) = some r →
      playRepaired r 15 ((q + 1) % 16) ((q : ℤ) - 15) = frames → frames.length ≤ 1 →
      udptlRxPacket ur (fecDatagramAt s e sent q) =
        some (⟨q + 1, r.1⟩, some (frames ++ [⟨q, sent.getD q []⟩])) := by
    intro r frames hrep hplay hlen
    have htake : (sent.take q).length = q := by
      rw [List.length_take]
      omega
    have hifp : (sent.getD q []).length < 0x4000 := by
      have hlt := hshort _ (List.mem_of_getElem? (getD_mem hq))
      unfold localFaxMaxDatagram at hlt
      omega
    have hpay : payload (sent.getD q []) = sent.getD q [] :=
      payload_of_ne (hne _ (List.mem_of_getElem? (getD_mem hq)))
    have hmode : ¬ (0x80 : UInt8) &&& 0x80 = 0 := by decide
    rw [hrep, Option.bind_some, hplay] at hrx
    unfold fecDatagramAt fecDatagram
    rw [htake, Nat.mod_eq_of_lt (by omega : q < 65536)]
    unfold udptlRxPacket seqOctets
    simp only [List.cons_append, List.nil_append, seqOctets_value (by omega : q < 65536),
      decodeOpenType_openType hifp, hpay, Option.bind_eq_bind, Option.bind_some, hmode, if_false,
      hrx, hseq, ge_iff_le, le_refl, if_true]
    rw [if_neg (by
      rw [List.length_append, List.length_singleton]
      omega)]
    rfl
  have hsaved := hwin.save harr ha
  have hok : ∀ rx, Window s e sent lost (Bad s lost (q + 1)) rx (q + 1) →
      RxOk s e sent lost (q + 1) ⟨q + 1, rx⟩ := by
    intro rx hw
    refine ⟨le_rfl, ?_⟩
    rw [Nat.sub_self]
    exact hw
  by_cases hex : ∃ n, lost n ∧ repairAt s n = q
  · obtain ⟨n, hlost, hn⟩ := hex
    have hqs : s ≤ q := by
      unfold repairAt at hn
      omega
    have hnq : n < q := by
      unfold repairAt at hn
      omega
    have hback : q ≤ n + 15 := by
      have hpos := hp.entriesAt_pos hqs
      have hlow := (group_bounds (by omega) (repair_mem hp hn)).1
      have hlt := hp.reach_lt (n := q)
      omega
    have honly : ∀ x, lost x → repairAt s x = q → x = n := fun x hx heq =>
      hfar.repairAt_inj hp hx hlost (heq.trans hn.symm)
    obtain ⟨fixed, hrep, hfixed⟩ := repairSlots_bad hp hne hq
      (Function.update (fun _ => false) (q % 16) true) hsaved harr hn hlost ⟨hlost, hn.ge⟩
      fun x hx hxn hbad => by
        obtain ⟨hxlost, hxq⟩ := (bad_iff hqs harr hx).1 hbad
        exact hxn (honly x hxlost hxq)
    obtain ⟨k, hbuf⟩ := hfixed.buf
    have hidx : q + 1 + (n + 15 - q) = n + 16 := by omega
    have hslot : (q + 1 + (n + 15 - q)) % 16 = n % 16 := by omega
    have hplay : playRepaired (Function.update (Function.update missed.rx (q % 16) slot) (n % 16) fixed,
        Function.update (Function.update (fun _ => false) (q % 16) true) (n % 16) true) 15
          ((q + 1) % 16) ((q : ℤ) - 15) = [⟨n, sent.getD n [] ++ List.replicate k 0⟩] := by
      rw [playRepaired_one (c := n + 15 - q) (by omega)]
      · have hnum : (q : ℤ) - 15 + ((n + 15 - q : ℕ) : ℤ) = n := by omega
        rw [hslot, hnum]
        simp only [Function.update_self]
        rw [hfixed.bufLen, Int.toNat_natCast, List.take_length, hbuf]
      · rw [hslot]
        exact Function.update_self ..
      · intro i hi hne'
        have h1 : (q + 1 + i) % 16 ≠ n % 16 := by omega
        have h2 : (q + 1 + i) % 16 ≠ q % 16 := by omega
        simp only
        rw [Function.update_of_ne h1, Function.update_of_ne h2]
    refine ⟨_, _, hfinish _ _ hrep hplay (by simp), hok _ ?_, .inr ⟨n, k, hlost, hn, rfl⟩⟩
    refine (hsaved.mend (by omega) (by omega) hlost hfixed).congr fun x hx hxlost => ?_
    have hxq : x ≠ q := fun heq => harr (heq ▸ hxlost)
    have hcase : x = n ↔ repairAt s x = q := ⟨fun heq => heq ▸ hn, honly x hxlost⟩
    unfold Bad
    rw [ne_eq, hcase]
    simp only [hxlost, true_and]
    omega
  · have hno : ∀ n, lost n → repairAt s n ≠ q := fun n hlost hn => hex ⟨n, hlost, hn⟩
    have hrep := repairSlots_good hp hne hq (Function.update (fun _ => false) (q % 16) true)
      hsaved fun hqs x hx hbad => by
        obtain ⟨hxlost, hxq⟩ := (bad_iff hqs harr hx).1 hbad
        exact hno x hxlost hxq
    have hplay : playRepaired (Function.update missed.rx (q % 16) slot,
        Function.update (fun _ => false) (q % 16) true) 15 ((q + 1) % 16) ((q : ℤ) - 15) = [] := by
      refine playRepaired_none fun i hi => ?_
      have h2 : (q + 1 + i) % 16 ≠ q % 16 := by omega
      simp only
      rw [Function.update_of_ne h2]
    refine ⟨_, _, hfinish _ _ hrep hplay (by simp), hok _ ?_, .inl ⟨rfl, hno⟩⟩
    refine hsaved.congr fun x hx hxlost => ?_
    have hxq := hno x hxlost
    unfold Bad
    simp only [hxlost, true_and]
    omega

/-! ## A session -/

/-- The packets before `q` that are not lost. -/
def survivors (lost : ℕ → Prop) [DecidablePred lost] (q : ℕ) : List ℕ :=
  (List.range q).filter fun n => ¬ lost n

/-- The number of a frame that is delivered before the packet `q`. -/
def Due (s : ℕ) (lost : ℕ → Prop) (q : ℕ) (f : T38Frame) : Prop :=
  ∃ x : ℕ, f.seqno = x ∧ ((x < q ∧ ¬ lost x) ∨ (lost x ∧ repairAt s x < q))

theorem fec_datagrams (hp : FecParams s e) {tx : UdptlTx} {pairs : List (List UInt8 × List UInt8)}
    (hsend : sendAll buflen (newTx .fec e s) ifps = some (tx, pairs))
    (hfew : pairs.length < 65536) :
    (∀ ifp ∈ pairs.map Prod.fst, ifp.length ≤ localFaxMaxDatagram ∧ ifp ∈ ifps) ∧
      ∀ i < pairs.length, (pairs[i]?).map Prod.snd =
        some (fecDatagramAt s e (pairs.map Prod.fst) i) :=
  sendAll_datagrams (fecDatagram s e)
    (fun s sent ifp buf hs hmode hlt hrec => fec_sent hp hs hmode (by omega) hrec)
    (newTx_ok .fec e s) hsend

section Session

variable [DecidablePred lost]

theorem survivors_succ_of_lost (h : lost q) : survivors lost (q + 1) = survivors lost q := by
  unfold survivors
  rw [List.range_succ, List.filter_append, List.filter_cons_of_neg (by simpa using h)]
  simp

theorem survivors_succ (h : ¬ lost q) : survivors lost (q + 1) = survivors lost q ++ [q] := by
  unfold survivors
  rw [List.range_succ, List.filter_append, List.filter_cons_of_pos (by simpa using h)]
  simp

variable (hp : FecParams s e) (hfar : FarApart s e lost) (hne : ∀ ifp ∈ sent, ifp ≠ [])
variable (hshort : ∀ ifp ∈ sent, ifp.length ≤ localFaxMaxDatagram) (hfew : sent.length < 65536)
include hp hfar hne hshort hfew

/-- **The session up to the packet `q`**: the receiver is in order, and no
packet was delivered twice. -/
theorem rxAll_fec (hq : q ≤ sent.length) :
    ∃ ur frames, rxAll newRx ((survivors lost q).map (fecDatagramAt s e sent)) =
        some (ur, frames) ∧ RxOk s e sent lost q ur ∧ (frames.map T38Frame.seqno).Nodup ∧
      ∀ f ∈ frames, Due s lost q f := by
  induction q with
  | zero => exact ⟨newRx, [], rfl, rxOk_new, List.nodup_nil, by simp⟩
  | succ q ih =>
    obtain ⟨ur, frames, hrx, hok, hnd, hdue⟩ := ih (by omega)
    by_cases hlost : lost q
    · refine ⟨ur, frames, ?_, hok.missed hp hfar hlost, hnd, fun f hf => ?_⟩
      · rw [survivors_succ_of_lost hlost]
        exact hrx
      · obtain ⟨x, hx, hcase⟩ := hdue f hf
        exact ⟨x, hx, hcase.imp (fun h => ⟨by omega, h.2⟩) fun h => ⟨h.1, by omega⟩⟩
    · obtain ⟨ur', new, hnew, hok', hcase⟩ :=
        rx_fec hp hfar hne hshort (by omega) hfew hok hlost
      refine ⟨ur', frames ++ (new ++ [⟨q, sent.getD q []⟩]), ?_, hok', ?_, ?_⟩
      · rw [survivors_succ hlost, List.map_append]
        exact rxAll_concat hrx hnew
      · -- neither packet was delivered before
        have hown : ∀ f ∈ frames, f.seqno ≠ q := by
          intro f hf heq
          obtain ⟨x, hx, hcase⟩ := hdue f hf
          have hxq : x = q := by omega
          rcases hcase with h | h
          · omega
          · exact hlost (hxq ▸ h.1)
        rw [List.map_append, List.nodup_append]
        rcases hcase with ⟨rfl, -⟩ | ⟨n, k, hn, hrep, rfl⟩
        · refine ⟨hnd, by simp, ?_⟩
          intro a ha b hb
          obtain ⟨f, hf, rfl⟩ := List.mem_map.1 ha
          obtain rfl : b = q := by simpa using hb
          exact hown f hf
        · have hnq : n ≠ q := fun heq => hlost (heq ▸ hn)
          have hnq' : (n : ℤ) ≠ q := by omega
          refine ⟨hnd, by simpa using hnq', ?_⟩
          intro a ha b hb
          obtain ⟨f, hf, rfl⟩ := List.mem_map.1 ha
          have hb' : b = n ∨ b = q := by simpa using hb
          rcases hb' with rfl | rfl
          · intro heq
            obtain ⟨x, hx, hcase⟩ := hdue f hf
            have hxn : x = n := by omega
            rcases hcase with h | h
            · exact h.2 (hxn ▸ hn)
            · rw [hxn] at h
              omega
          · exact hown f hf
      · intro f hf
        rcases List.mem_append.1 hf with hf | hf
        · obtain ⟨x, hx, hcase⟩ := hdue f hf
          exact ⟨x, hx, hcase.imp (fun h => ⟨by omega, h.2⟩) fun h => ⟨h.1, by omega⟩⟩
        rcases List.mem_append.1 hf with hf | hf
        · rcases hcase with ⟨rfl, -⟩ | ⟨n, k, hn, hrep, rfl⟩
          · cases hf
          · rw [List.mem_singleton.1 hf]
            exact ⟨n, rfl, .inr ⟨hn, by omega⟩⟩
        · rw [List.mem_singleton.1 hf]
          exact ⟨q, rfl, .inl ⟨by omega, hlost⟩⟩

end Session

/-- **Every lost packet that is followed by the packet that repairs it is
delivered then**, with its own number and its own octets, filled up with
zeros; and no packet is delivered twice. -/
theorem fec_delivered {lost : ℕ → Prop} [DecidablePred lost] (hp : FecParams s e)
    {tx : UdptlTx} {pairs : List (List UInt8 × List UInt8)}
    (hsend : sendAll buflen (newTx .fec e s) ifps = some (tx, pairs))
    (hne : ∀ ifp ∈ ifps, ifp ≠ []) (hfew : pairs.length < 65536) (hfar : FarApart s e lost) :
    (∃ rx frames, rxAll newRx (received pairs (survivors lost pairs.length)) = some (rx, frames) ∧
      (frames.map T38Frame.seqno).Nodup) ∧
    ∀ n, lost n → repairAt s n < pairs.length → ∃ rx frames datagram rx' frames' k,
      rxAll newRx (received pairs (survivors lost (repairAt s n))) = some (rx, frames) ∧
      (pairs[repairAt s n]?).map Prod.snd = some datagram ∧
      udptlRxPacket rx datagram = some (rx', some frames') ∧
      ⟨n, (pairs.map Prod.fst).getD n [] ++ List.replicate k 0⟩ ∈ frames' := by
  obtain ⟨hshort, hat⟩ := fec_datagrams hp hsend hfew
  have hlen : (pairs.map Prod.fst).length = pairs.length := List.length_map ..
  have hne' : ∀ ifp ∈ pairs.map Prod.fst, ifp ≠ [] := fun ifp h => hne ifp (hshort ifp h).2
  have hshort' : ∀ ifp ∈ pairs.map Prod.fst, ifp.length ≤ localFaxMaxDatagram := fun ifp h =>
    (hshort ifp h).1
  have hsurvive : ∀ q ≤ pairs.length, received pairs (survivors lost q) =
      (survivors lost q).map (fecDatagramAt s e (pairs.map Prod.fst)) := by
    intro q hq
    refine received_eq (fun i hi => ?_) hat
    have hlt := List.mem_range.1 (List.mem_of_mem_filter hi)
    omega
  constructor
  · obtain ⟨rx, frames, hrx, -, hnd, -⟩ := rxAll_fec hp hfar hne' hshort' (by omega)
      (by omega : pairs.length ≤ (pairs.map Prod.fst).length)
    rw [hsurvive _ le_rfl]
    exact ⟨rx, frames, hrx, hnd⟩
  · intro n hn hq
    obtain ⟨rx, frames, hrx, hok, -, -⟩ := rxAll_fec hp hfar hne' hshort' (by omega)
      (by omega : repairAt s n ≤ (pairs.map Prod.fst).length)
    obtain ⟨rx', new, hnew, -, hcase⟩ := rx_fec hp hfar hne' hshort' (by omega) (by omega) hok
      (hfar.repairAt_arrives hp hn)
    rw [hsurvive _ hq.le]
    rcases hcase with ⟨-, hno⟩ | ⟨x, k, hx, hxn, rfl⟩
    · exact absurd rfl (hno n hn)
    · obtain rfl : x = n := hfar.repairAt_inj hp hx hn hxn
      exact ⟨rx, frames, _, rx', _, k, hrx, hat _ hq, hnew, by simp⟩

/-- The second of three packets is lost. -/
theorem fec_delivered_lost : ∃ tx pairs rx frames datagram rx' frames' k,
    sendAll 400 (newTx .fec 1 2) [[7], [8, 9], [10]] = some (tx, pairs) ∧
      rxAll newRx (received pairs (survivors (fun n => n = 1) 2)) = some (rx, frames) ∧
      (pairs[2]?).map Prod.snd = some datagram ∧
      udptlRxPacket rx datagram = some (rx', some frames') ∧
      ⟨1, (pairs.map Prod.fst).getD 1 [] ++ List.replicate k 0⟩ ∈ frames' := by
  obtain ⟨tx, pairs, hsend, hlen⟩ : ∃ tx pairs,
      sendAll 400 (newTx .fec 1 2) [[7], [8, 9], [10]] = some (tx, pairs) ∧ pairs.length = 3 :=
    ⟨_, _, rfl, rfl⟩
  have hp : FecParams 2 1 := ⟨by decide, by decide, by decide, by decide⟩
  have hfar : FarApart 2 1 fun n => n = 1 := by
    intro a b ha hb hlt
    omega
  obtain ⟨-, hrepaired⟩ := fec_delivered hp hsend (by decide) (by omega) hfar
  have hat : repairAt 2 1 < pairs.length := by
    rw [hlen]
    decide
  obtain ⟨rx, frames, datagram, rx', frames', k, hrx, hget, hnew, hmem⟩ := hrepaired 1 rfl hat
  exact ⟨tx, pairs, rx, frames, datagram, rx', frames', k, hsend, hrx, hget, hnew, hmem⟩

/-- The first of two packets is lost, and the span is two: the second one
has no entries yet. -/
theorem not_fec_delivered_of_end : ∃ tx pairs rx frames,
    sendAll 400 (newTx .fec 1 2) [[7], [8]] = some (tx, pairs) ∧
      FarApart 2 1 (fun n => n = 0) ∧
      rxAll newRx (received pairs (survivors (fun n => n = 0) 2)) = some (rx, frames) ∧
      frames = [⟨1, [8]⟩] := by
  refine ⟨_, _, _, _, rfl, ?_, rfl, rfl⟩
  intro a b ha hb hlt
  omega

end Udptl

end Trismedia
