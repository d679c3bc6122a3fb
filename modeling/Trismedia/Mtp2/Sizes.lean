import Trismedia.Isup.Call
import Trismedia.Isup.Decode
import Trismedia.Mtp2.Frames
import Trismedia.Mtp2.Wire
/-!
# The size of a message on its way

A message of ISUP is copied to a request (`mtp_enqueue_isup_packet` of
`channels/ss7/l4isup.c`), to a slot of the retransmission buffer, to
`tx_buffer` and, behind the peer's check of the length, to an event. The slot
has the size of the request, and four octets stand in it before the message.
-/


namespace Trismedia

namespace Mtp2

open Isup

/-! ## The way of a message -/

/-- `mtp_enqueue_isup_packet`: the octets of the request, for whatever link it
is; `none` for a message that is refused. -/
def mtpEnqueueIsupPacket (sizeofMtpReq : ℕ) (msg : List Octet) : Option (List Octet) :=
  let sizeofReqBuf := sizeofMtpReq + mtpMaxPckSize
  if sizeofMtpReq + msg.length > sizeofReqBuf then none else some msg

/-- `mtp3_set_sls` -/
def mtp3SetSls (variant : Ss7Variant) (sls : ℕ) (buf : List Octet) : List Octet :=
  match variant with
  | .itu => buf.set 3 (UInt8.ofNat (((buf.getD 3 0).toNat &&& 0xff0f) ||| (sls <<< 4)))
  | .china => buf.set 6 (UInt8.ofNat (sls &&& 0x0f))

/-- The service information octet of a request; a subservice of -1 has all
bits. -/
def isupService (m : Mtp2State) : Octet := UInt8.ofNat (5 ||| (m.subservice.getD 0xf <<< 4))

/-- A request of ISUP in `mtp_thread_main`. -/
def queueIsup (c : Link) (m : Mtp2State) (req : List Octet) : Mtp2State :=
  mtp2QueueMsu m (isupService m) (mtp3SetSls c.variant c.sls req)

/-- The size of `tx_buffer`. -/
def txBufferSize : ℕ := 272 + 7 + 5

/-- What `mtp2_read_su` gets for a frame and the flag behind it. -/
def frameTokens (f : List Octet) : List Token := (whole f).map .octet ++ [.flag]

/-- The peer is in service, and the unit in its buffer is the next one. -/
structure Expects (p : Mtp2State) (buf : ℕ → Octet) : Prop where
  inservice : p.state = .inservice
  bsn : ¬illegalBsn p (bsnOf buf)
  fsn : fsnOf buf = mtpNextSeq p.sendBsn
  fib : fibOf buf = p.sendBib

/-- **A frame is received**: it is not too long, and its message is delivered
as it was. -/
structure Received {Tx Rx : Type} (hdlc : Fasthdlc Tx Rx) (hRx : Rx) (f sif : List Octet) :
    Prop where
  read : ∀ calls results,
    ((frameTokens f).foldl (fun r t => takeResult hdlc r (arrival t))
      ⟨hRx, [], 0xffff, calls, results⟩).calls = calls ++ [.goodFrame f]
  deliver : ∀ (c : Link) (alive : Bool) (p : Mtp2State) (buf : ℕ → Octet), Holds buf f →
    Expects p buf → ∃ p', mtp2GoodFrame c alive p buf f.length = some p' ∧
      p'.events = p.events ++ [.isup sif]

/-- **The sizes fit** a message: its slot and the buffer for its frame hold it,
and the peer receives it. -/
structure SizesFit {Tx Rx : Type} (hdlc : Fasthdlc Tx Rx) (hRx : Rx) (req : List Octet) :
    Prop where
  slot : ∀ (c : Link) (m : Mtp2State), (queueIsup c m req).accepted ≠ m.accepted →
    ((queueIsup c m req).retransBuf (queueIsup c m req).retransLastSent).length ≤ mtpMaxPckSize
  sent : ∀ (c : Link) (m n : Mtp2State) (seq : ℕ), (queueIsup c m req).accepted ≠ m.accepted →
    (n.state = .inservice ∨ n.state = .ready) → n.retransSeq = some seq →
      n.retransBuf seq = (queueIsup c m req).retransBuf (queueIsup c m req).retransLastSent →
        (mtp2PickFrame n).2.length ≤ txBufferSize ∧
          Received hdlc hRx (mtp2PickFrame n).2 (mtp3SetSls c.variant c.sls req)

/-! ## Sending -/

variable {Tx Rx : Type} {hdlc : Fasthdlc Tx Rx} {hRx : Rx} {c : Link} {m n p : Mtp2State}
variable {req sif f os : List Octet} {buf : ℕ → Octet} {sio o₀ o₁ : Octet}

theorem length_mtp3SetSls (variant : Ss7Variant) (sls : ℕ) (buf : List Octet) :
    (mtp3SetSls variant sls buf).length = buf.length := by
  cases variant <;> exact List.length_set

theorem serviceOf_isupService (m : Mtp2State) : (isupService m).toNat &&& 0xf = 5 := by
  have hand : ∀ x : ℕ, x &&& 0xf = x % 16 := fun x => Nat.and_two_pow_sub_one_eq_mod x 4
  have hor : 5 ||| (m.subservice.getD 0xf <<< 4) = 5 + m.subservice.getD 0xf * 16 :=
    @or_shiftLeft 5 4 _ (by decide)
  have hof : (isupService m).toNat = (5 + m.subservice.getD 0xf * 16) % 256 := by
    rw [← hor]
    rfl
  rw [hand, hof]
  omega

/-- **A message that is queued** has two octets or more, and its slot is made
of it. -/
theorem queueIsup_accepted (h : (queueIsup c m req).accepted ≠ m.accepted) :
    2 ≤ req.length ∧ (queueIsup c m req).retransBuf (queueIsup c m req).retransLastSent =
      slotOf (isupService m) (mtp3SetSls c.variant c.sls req) := by
  unfold queueIsup mtp2QueueMsu at h ⊢
  rw [length_mtp3SetSls] at h ⊢
  by_cases hstate : m.state ≠ .inservice ∧ m.state ≠ .ready
  · rw [if_pos hstate] at h
    exact absurd rfl h
  rw [if_neg hstate] at h ⊢
  by_cases hlen : req.length < 2
  · rw [if_pos hlen] at h
    exact absurd rfl h
  rw [if_neg hlen] at h ⊢
  dsimp only at h ⊢
  by_cases hfull : mtpNextSeq m.retransLastSent = m.retransLastAcked
  · rw [if_pos hfull] at h
    exact absurd rfl h
  rw [if_neg hfull]
  exact ⟨by omega, Function.update_self _ _ _⟩

/-- The frame of a message. -/
def msuFrame (o₀ o₁ sio : Octet) (sif : List Octet) : List Octet :=
  o₀ :: o₁ :: UInt8.ofNat (if sif.length ≥ 62 then 63 else 1 + sif.length) :: sio :: sif

theorem length_msuFrame : (msuFrame o₀ o₁ sio sif).length = sif.length + 4 := rfl

theorem pick_msuFrame {seq : ℕ} (hstate : n.state = .inservice ∨ n.state = .ready)
    (hseq : n.retransSeq = some seq) (hslot : n.retransBuf seq = slotOf sio sif) :
    (mtp2PickFrame n).2 =
      msuFrame (seqOctet n.sendBsn n.sendBib) (seqOctet seq n.sendFib) sio sif := by
  rw [mtp2PickFrame_of_service hstate, pickUnit, hseq]
  dsimp only
  rw [hslot]
  have hlen : (slotOf sio sif).length =
      (msuFrame (seqOctet n.sendBsn n.sendBib) (seqOctet seq n.sendFib) sio sif).length := rfl
  rw [hlen]
  exact List.take_length

/-! ## Receiving -/

/-- Octets that there is room for. -/
theorem takeResult_octets (os : List Octet) : ∀ r : Receiver Rx, r.rxBuf.length + os.length ≤ 279 →
    (os.map Token.octet).foldl (fun r t => takeResult hdlc r (arrival t)) r =
      { r with rxBuf := r.rxBuf ++ os, rxCrc := os.foldl pppFcs r.rxCrc } := by
  induction os with
  | nil =>
    intro r _
    rw [List.append_nil]
    rfl
  | cons o os ih =>
    intro r h
    rw [List.length_cons] at h
    have hstep : takeResult hdlc r (arrival (.octet o)) =
        { r with rxBuf := r.rxBuf ++ [o], rxCrc := pppFcs r.rxCrc o } := if_neg (by omega)
    rw [List.map_cons, List.foldl_cons, hstep, ih _ (by
      rw [List.length_append, List.length_singleton]
      omega), List.append_assoc]
    rfl

/-- What the receiver has called it for stays. -/
theorem takeResult_calls (ts : List Token) : ∀ r : Receiver Rx,
    r.calls <+: (ts.foldl (fun r t => takeResult hdlc r (arrival t)) r).calls := by
  induction ts with
  | nil => exact fun r => List.prefix_rfl
  | cons t ts ih =>
    intro r
    refine List.IsPrefix.trans ?_ (ih _)
    cases t with
    | flag => exact List.prefix_append _ _
    | octet o =>
      unfold arrival takeResult
      dsimp only
      split_ifs
      · exact List.prefix_append _ _
      · exact List.prefix_rfl

/-- **A frame that is not too long** is a good one. -/
theorem read_of_length (hshort : 3 ≤ f.length) (hlong : f.length ≤ 277) (calls : List RxCall)
    (results : List RxResult) :
    ((frameTokens f).foldl (fun r t => takeResult hdlc r (arrival t))
      ⟨hRx, [], 0xffff, calls, results⟩).calls = calls ++ [.goodFrame f] := by
  have hlen := length_whole f
  have hcrc : (whole f).foldl pppFcs 0xffff = 0xf0b8 := fcsOf_whole f
  have htake : (whole f).take ((whole f).length - 2) = f := by
    rw [hlen, Nat.add_sub_cancel, whole, List.take_left]
  rw [frameTokens, List.foldl_append, takeResult_octets _ _ (by rw [List.length_nil]; omega), hcrc,
    List.nil_append]
  unfold List.foldl arrival takeResult newFrame
  dsimp only [List.foldl_nil]
  rw [if_neg (by omega), if_neg (by omega), if_pos rfl, htake]

/-- One that is too long is not. -/
theorem not_read_of_length (hlong : 277 < f.length) :
    ((frameTokens f).foldl (fun r t => takeResult hdlc r (arrival t))
      ⟨hRx, [], 0xffff, [], []⟩).calls ≠ [.goodFrame f] := by
  intro h
  have hlen := length_whole f
  have hfirst : ((whole f).take 279).length = 279 := by
    rw [List.length_take]
    omega
  have hsplit : frameTokens f = ((whole f).take 279).map .octet ++
      (.octet ((whole f).getD 279 0) :: (((whole f).drop 280).map .octet ++ [.flag])) := by
    have hat : (whole f).drop 279 = (whole f).getD 279 0 :: (whole f).drop 280 := by
      rw [List.drop_eq_getElem_cons (by omega), List.getD_eq_getElem?_getD,
        List.getElem?_eq_getElem (by omega), Option.getD_some]
    rw [frameTokens, ← List.take_append_drop 279 (whole f), List.map_append, List.take_append_drop,
      hat, List.append_assoc]
    rfl
  have hgrows := @takeResult_calls Tx Rx hdlc (((whole f).drop 280).map .octet ++ [.flag])
    (newFrame ⟨hdlc.rxSearch hRx, (whole f).take 279, ((whole f).take 279).foldl pppFcs 0xffff, [], []⟩
      [.badFrame, .octetCounting])
  rw [hsplit, List.foldl_append, takeResult_octets _ _ (by rw [hfirst]; exact le_rfl),
    List.foldl_cons, List.nil_append] at h
  have hstep : takeResult hdlc (⟨hRx, (whole f).take 279, ((whole f).take 279).foldl pppFcs 0xffff,
      [], []⟩ : Receiver Rx) (arrival (.octet ((whole f).getD 279 0))) =
        newFrame ⟨hdlc.rxSearch hRx, (whole f).take 279, ((whole f).take 279).foldl pppFcs 0xffff, [],
          []⟩ [.badFrame, .octetCounting] := if_pos hfirst.ge
  rw [hstep] at h
  rw [h] at hgrows
  exact absurd (show 2 ≤ 1 from hgrows.length_le) (by decide)

/-- The length indicator of a frame. -/
theorem Holds.li (h : Holds buf (msuFrame o₀ o₁ sio sif)) :
    liOf buf = (if sif.length ≥ 62 then 63 else 1 + sif.length) ∧ buf 3 = sio ∧
      octetsFrom buf 4 sif.length = sif := by
  have hlen : (msuFrame o₀ o₁ sio sif).length = sif.length + 4 := rfl
  have htwo : buf 2 = UInt8.ofNat (if sif.length ≥ 62 then 63 else 1 + sif.length) :=
    h 2 (by omega)
  refine ⟨?_, h 3 (by omega), ?_⟩
  · rw [liOf, htwo]
    exact li_toNat _ (by split_ifs <;> omega)
  · refine List.ext_getElem (by simp [octetsFrom]) fun i hi hi' => ?_
    have hbuf := h (4 + i) (by omega)
    rw [Nat.add_comm 4 i] at hbuf
    simp only [octetsFrom, List.getElem_map, List.getElem_range]
    rw [Nat.add_comm 4 i, hbuf]
    simp [msuFrame, hi']

/-- **The next unit at a link in service** comes to the check for a label. -/
theorem goodFrame_expected (alive : Bool) (hexpects : Expects p buf) {len : ℕ}
    (hshort : 3 ≤ liOf buf) (hlen : liOf buf + 3 ≤ len) :
    ∃ m, m.events = p.events ∧ mtp2GoodFrame c alive p buf len =
      if liOf buf < 5 then some m else processMsu c alive m buf len := by
  obtain ⟨hstate, hbsn, hfsn, hfib⟩ := hexpects
  obtain ⟨d, r, hcount⟩ := mtp2ErrorMonCountFrame_frame p
  unfold mtp2GoodFrame
  rw [hcount]
  dsimp only
  rw [if_neg (by rw [hstate]; exact LinkState.noConfusion), if_neg (by omega), if_neg (by omega),
    if_pos hstate]
  have hlegal : ¬illegalBsn { p with emonDcount := d, errorRateMon := r } (bsnOf buf) := hbsn
  obtain ⟨t, hacked⟩ := takeBsn_frame { p with emonDcount := d, errorRateMon := r, bsnErrors := 0 }
    (bsnOf buf)
  unfold takeUnit
  rw [if_neg hlegal]
  dsimp only
  rw [hacked]
  obtain ⟨rs, hbib⟩ := takeBib_frame { p with
    emonDcount := d, errorRateMon := r, bsnErrors := 0, t7 := t, retransLastAcked := bsnOf buf }
    (bsnOf buf) (bibOf buf)
  rw [hbib, if_neg (by omega)]
  have hne : fsnOf buf ≠ p.sendBsn := by
    rw [hfsn, mtpNextSeq]
    omega
  unfold takeMsu
  dsimp only
  rw [if_neg hne, if_pos hfsn, if_pos hfib]
  refine ⟨?_, ?_, ?_⟩
  rotate_left 2
  · exact rfl
  · rfl

/-- A message with a label is delivered. -/
theorem deliver_of_length (hservice : sio.toNat &&& 0xf = 5) (hlabel : 4 ≤ sif.length) (alive : Bool)
    (hbuf : Holds buf (msuFrame o₀ o₁ sio sif)) (hexpects : Expects p buf) :
    ∃ p', mtp2GoodFrame c alive p buf (msuFrame o₀ o₁ sio sif).length = some p' ∧
      p'.events = p.events ++ [.isup sif] := by
  obtain ⟨hli, hsio, hsif⟩ := hbuf.li
  have hlen : (msuFrame o₀ o₁ sio sif).length = sif.length + 4 := rfl
  rw [hlen]
  have hlong : 5 ≤ liOf buf ∧ liOf buf + 3 ≤ sif.length + 4 := by
    rw [hli]
    split_ifs <;> omega
  obtain ⟨m, hevents, hgood⟩ := @goodFrame_expected c p buf alive hexpects (sif.length + 4)
    (by omega) hlong.2
  have hl4 : l4Octets buf (sif.length + 4) = sif := by
    have hcount : (if liOf buf = 63 then sif.length + 4 - 4 else liOf buf - 1) = sif.length := by
      rw [hli]
      split_ifs <;> omega
    rw [l4Octets, hcount, hsif]
  rw [hgood, if_neg (by omega)]
  unfold processMsu
  dsimp only
  rw [hsio, hservice, if_neg (by decide), if_neg (by decide), if_pos rfl, hl4, hevents]
  exact ⟨_, rfl, rfl⟩

/-- One without a label is not. -/
theorem not_deliver_of_length (hsome : 2 ≤ sif.length) (hlabel : sif.length < 4) (alive : Bool)
    (hbuf : Holds buf (msuFrame o₀ o₁ sio sif)) (hexpects : Expects p buf) :
    ∃ p', mtp2GoodFrame c alive p buf (msuFrame o₀ o₁ sio sif).length = some p' ∧
      p'.events = p.events := by
  obtain ⟨hli, -, -⟩ := hbuf.li
  rw [if_neg (by omega)] at hli
  have hlen : (msuFrame o₀ o₁ sio sif).length = sif.length + 4 := rfl
  rw [hlen]
  obtain ⟨m, hevents, hgood⟩ := @goodFrame_expected c p buf alive hexpects (sif.length + 4)
    (by omega) (by omega)
  rw [if_pos (by omega)] at hgood
  exact ⟨m, hgood, hevents⟩

/-! ## The sizes -/

/-- A link in service that expects the unit in the buffer. -/
def expecting (buf : ℕ → Octet) : Mtp2State :=
  { mtpInitLinkData none with
    state := .inservice, sendBsn := (fsnOf buf + 127) % 128, sendBib := fibOf buf,
    retransLastAcked := bsnOf buf, retransLastSent := bsnOf buf }

theorem expecting_expects (buf : ℕ → Octet) : Expects (expecting buf) buf := by
  have hlt : fsnOf buf < 128 := Nat.lt_of_le_of_lt Nat.and_le_right (by decide)
  refine ⟨rfl, not_illegalBsn_acked rfl, ?_, rfl⟩
  show fsnOf buf = ((fsnOf buf + 127) % 128 + 1) % 128
  omega

/-- A link in service with nothing to send. -/
def idleLink : Mtp2State := { mtpInitLinkData none with state := .inservice }

/-- What is accepted is the message, of at most the size of a request. -/
theorem mtpEnqueueIsupPacket_eq {sizeofMtpReq : ℕ} {msg : List Octet}
    (h : mtpEnqueueIsupPacket sizeofMtpReq msg = some req) :
    msg = req ∧ msg.length ≤ mtpMaxPckSize := by
  unfold mtpEnqueueIsupPacket at h
  dsimp only at h
  split_ifs at h with hbig
  exact ⟨Option.some.inj h, by omega⟩

/-- **The sizes do not fit** a message that is sent without a label, or one of
more than 273 octets. -/
theorem not_sizesFit (hsome : 2 ≤ req.length) (hnot : req.length < 4 ∨ 273 < req.length) :
    ¬SizesFit hdlc hRx req := by
  intro hfit
  -- the link that sends it, with the message in its first slot
  let c : Link := ⟨.itu, 1, 2, 0, false⟩
  let sif := mtp3SetSls c.variant c.sls req
  have hsif : sif.length = req.length := length_mtp3SetSls _ _ _
  have hqueue : queueIsup c idleLink req = { idleLink with
      retransBuf := Function.update idleLink.retransBuf 0 (slotOf (isupService idleLink) sif)
      retransLastSent := 0, retransSeq := some 0, t7 := true
      accepted := [⟨isupService idleLink, sif⟩] } := by
    unfold queueIsup mtp2QueueMsu
    rw [if_neg (by decide), if_neg (by rw [length_mtp3SetSls]; omega)]
    rfl
  have hslot : (queueIsup c idleLink req).retransBuf 0 = slotOf (isupService idleLink) sif := by
    rw [hqueue]
    show Function.update idleLink.retransBuf 0 (slotOf (isupService idleLink) sif) 0 = _
    exact Function.update_self 0 (slotOf (isupService idleLink) sif) idleLink.retransBuf
  have haccepted : (queueIsup c idleLink req).accepted ≠ idleLink.accepted := by
    rw [hqueue]
    exact List.cons_ne_nil _ _
  have hstate : (queueIsup c idleLink req).state = .inservice := by rw [hqueue]; rfl
  have hseq : (queueIsup c idleLink req).retransSeq = some 0 := by rw [hqueue]
  have hlast : (queueIsup c idleLink req).retransLastSent = 0 := by rw [hqueue]
  obtain ⟨-, hread, hdeliver⟩ := hfit.sent c idleLink (queueIsup c idleLink req) 0 haccepted
    (Or.inl hstate) hseq (by rw [hlast])
  rw [pick_msuFrame (Or.inl hstate) hseq hslot] at hread hdeliver
  generalize seqOctet (queueIsup c idleLink req).sendBsn (queueIsup c idleLink req).sendBib = o₀
    at hread hdeliver
  generalize seqOctet 0 (queueIsup c idleLink req).sendFib = o₁ at hread hdeliver
  by_cases hlong : 273 < req.length
  · refine @not_read_of_length Tx Rx hdlc hRx (msuFrame o₀ o₁ (isupService idleLink) sif) ?_
      (hread [] [])
    rw [length_msuFrame]
    omega
  · let buf : ℕ → Octet := fun i => (msuFrame o₀ o₁ (isupService idleLink) sif).getD i 0
    have hholds : Holds buf (msuFrame o₀ o₁ (isupService idleLink) sif) := fun _ _ => rfl
    obtain ⟨p', hp', hevents⟩ := hdeliver c true (expecting buf) buf hholds (expecting_expects buf)
    obtain ⟨p'', hp'', hsame⟩ := @not_deliver_of_length c (expecting buf) sif buf
      (isupService idleLink) o₀ o₁ (by omega) (by omega) true hholds (expecting_expects buf)
    obtain rfl := Option.some.inj (hp'.symm.trans hp'')
    rw [hsame] at hevents
    exact List.cons_ne_nil _ _ (List.self_eq_append_right.1 hevents)

/-- **The sizes fit** a message that is not sent, or one that has a label and
at most 273 octets. -/
theorem sizesFit_of_length (hlen : req.length < 2 ∨ 4 ≤ req.length ∧ req.length ≤ 273) :
    SizesFit hdlc hRx req := by
  have hlong : ∀ {c : Link} {m : Mtp2State}, (queueIsup c m req).accepted ≠ m.accepted →
      4 ≤ req.length ∧ req.length ≤ 273 := by
    intro c m haccepted
    have htwo := (queueIsup_accepted haccepted).1
    omega
  refine ⟨fun c m haccepted => ?_, fun c m n seq haccepted hstate hseq hslot => ?_⟩
  · have hle := hlong haccepted
    rw [(queueIsup_accepted haccepted).2]
    show (mtp3SetSls c.variant c.sls req).length + 4 ≤ 280
    rw [length_mtp3SetSls]
    omega
  · have hle := hlong haccepted
    have hsif := length_mtp3SetSls c.variant c.sls req
    rw [(queueIsup_accepted haccepted).2] at hslot
    rw [pick_msuFrame hstate hseq hslot]
    generalize hsls : mtp3SetSls c.variant c.sls req = sif at hsif
    refine ⟨?_, fun calls results => ?_, fun c alive p buf hholds hexpects => ?_⟩
    · rw [length_msuFrame, txBufferSize]
      omega
    · exact read_of_length (by rw [length_msuFrame]; omega) (by rw [length_msuFrame]; omega) calls
        results
    · exact deliver_of_length (serviceOf_isupService m) (by omega) alive hholds hexpects

/-- **Exactly when the sizes fit**: a message of less than two octets is not
sent; one without a label is not delivered; and 273 octets are as many as the
peer takes. -/
theorem sizesFit_iff (hdlc : Fasthdlc Tx Rx) (hRx : Rx) (sizeofMtpReq : ℕ) (msg req : List Octet)
    (h : mtpEnqueueIsupPacket sizeofMtpReq msg = some req) :
    SizesFit hdlc hRx req ↔ msg.length < 2 ∨ 4 ≤ msg.length ∧ msg.length ≤ 273 := by
  obtain ⟨rfl, -⟩ := mtpEnqueueIsupPacket_eq h
  constructor
  · intro hfit
    by_contra hnot
    exact not_sizesFit (by omega) (by omega) hfit
  · exact sizesFit_of_length

/-- A message of eight octets. -/
theorem sizesFit_iff_short :
    mtpEnqueueIsupPacket 48 (List.replicate 8 0) = some (List.replicate 8 0) ∧
      (SizesFit bitHdlc ⟨[], 0, true⟩ (List.replicate 8 0) ↔
        (List.replicate 8 (0 : Octet)).length < 2 ∨
          4 ≤ (List.replicate 8 (0 : Octet)).length ∧
            (List.replicate 8 (0 : Octet)).length ≤ 273) :=
  ⟨rfl, sizesFit_iff bitHdlc ⟨[], 0, true⟩ 48 (List.replicate 8 0) (List.replicate 8 0) rfl⟩

/-- **A message that fills a request** is accepted, but not its slot, nor the
peer, has room for its frame. -/
theorem not_sizesFit_full :
    ∃ req, mtpEnqueueIsupPacket 48 (List.replicate 280 0) = some req ∧
      ¬SizesFit bitHdlc ⟨[], 0, true⟩ req := by
  have hlen : (List.replicate 280 (0 : Octet)).length = 280 := List.length_replicate
  refine ⟨List.replicate 280 0, ?_, not_sizesFit (by omega) (by omega)⟩
  unfold mtpEnqueueIsupPacket
  dsimp only
  rw [hlen, if_neg (by decide)]

end Mtp2

end Trismedia
