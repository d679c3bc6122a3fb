import Mathlib.Data.Int.Notation
import Mathlib.Data.List.Basic
import Trismedia.Common.CInt
/-!
# The signalling link of MTP2

Level 2 of a signalling link, `channels/ss7/mtp.c`: the alignment, the
retransmission buffer, the frames received and the frame to send, with the
link test of level 3. The octets between the frames (flags, check bits) and
the log are left out. A timer is whether it runs; its expiry is an event.

`mtp_changeover` does not end where it meets a management message, so
what may call it gives an `Option`. The last three fields of the state are
history: no function reads them.
-/


namespace Trismedia

namespace Mtp2

open CInt

/-! ## Data -/

abbrev Octet := UInt8

/-- The states of a link. -/
inductive LinkState where
  | down
  | notAligned
  | aligned
  | proving
  | ready
  | inservice
  deriving DecidableEq

/-- `ss7_variant` -/
inductive Ss7Variant where
  | itu
  | china
  deriving DecidableEq

/-- What the configuration says of a link: `opc` is the point code of this
host, `peerpc` what `linkpeerpc` gives. -/
structure Link where
  variant : Ss7Variant
  opc : ℕ
  peerpc : ℕ
  sls : ℕ
  sendSltm : Bool

/-- A message signal unit: the service information octet and the SIF. -/
structure Msu where
  sio : Octet
  sif : List Octet
  deriving DecidableEq

/-- What `mtp_put` hands to the other thread, and `cluster_mtp_forward` to
another host. -/
inductive MtpEvent where
  | linkUp
  | linkDown
  | sccp (buf : List Octet)
  | isup (buf : List Octet)
  | forward (buf : List Octet)
  deriving DecidableEq

/-- `struct mtp2_state`. A slot of `retransBuf` holds its `len` octets;
`none` stands for `-1`. `accepted` are the MSUs taken by `mtp2_queue_msu`,
`handed` those handed to `process_msu`, `fails` counts the failures of the
link. -/
structure Mtp2State where
  state : LinkState
  sendFib : Bool
  sendBsn : ℕ
  sendBib : Bool
  subservice : Option ℕ
  retransBuf : ℕ → List Octet
  retransSeq : Option ℕ
  retransLastAcked : ℕ
  retransLastSent : ℕ
  errorRateMon : ℕ
  emonNcount : ℕ
  emonDcount : ℕ
  bsnErrors : ℕ
  t1 : Bool
  t2 : Bool
  t3 : Bool
  t4 : Bool
  t7 : Bool
  t17 : Bool
  level4Up : Bool
  sltmT1 : Bool
  sltmT2 : Bool
  sltmTries : ℕ
  events : List MtpEvent
  accepted : List Msu
  handed : List Msu
  fails : ℕ

/-- `MTP_NEXT_SEQ` -/
def mtpNextSeq (x : ℕ) : ℕ := (x + 1) % 128

/-- `mtp_init_link_data` -/
def mtpInitLinkData (subservice : Option ℕ) : Mtp2State where
  state := .down
  sendFib := true
  sendBsn := 0x7f
  sendBib := true
  subservice := subservice
  retransBuf := fun _ => []
  retransSeq := none
  retransLastAcked := 0x7f
  retransLastSent := 0x7f
  errorRateMon := 0
  emonNcount := 0
  emonDcount := 0
  bsnErrors := 0
  t1 := false
  t2 := false
  t3 := false
  t4 := false
  t7 := false
  t17 := false
  level4Up := false
  sltmT1 := false
  sltmT2 := false
  sltmTries := 0
  events := []
  accepted := []
  handed := []
  fails := 0

/-! ## Failures and the start of an alignment -/

/-- `mtp2_cleanup`: all timers stop. -/
def mtp2Cleanup (m : Mtp2State) : Mtp2State :=
  { m with
    sltmT1 := false, sltmT2 := false, t1 := false, t2 := false, t3 := false, t4 := false,
    t7 := false, t17 := false }

/-- `start_initial_alignment` -/
def startInitialAlignment (m : Mtp2State) : Mtp2State :=
  { m with
    state := .notAligned, sendFib := true, sendBsn := 0x7f, sendBib := true, retransSeq := none,
    retransLastAcked := 0x7f, retransLastSent := 0x7f, errorRateMon := 0, emonDcount := 0,
    emonNcount := 0, bsnErrors := 0, t2 := true }

/-- `abort_initial_alignment` -/
def abortInitialAlignment (m : Mtp2State) : Mtp2State :=
  { mtp2Cleanup m with state := .down, t17 := true, fails := m.fails + 1 }

/-- `l4up` -/
def l4up (m : Mtp2State) : Mtp2State :=
  if m.level4Up then m
  else
    { m with
      level4Up := true
      events := if m.state = .inservice then m.events ++ [.linkUp] else m.events }

/-- `l4down` -/
def l4down (m : Mtp2State) : Mtp2State :=
  if m.level4Up then { m with level4Up := false, events := m.events ++ [.linkDown] } else m

/-- What the changeover leaves in a slot: five octets with status 2. -/
def toLssu (slot : List Octet) : List Octet := (slot.set 3 2).take 5

/-- The service indicator of the MSU in a slot. -/
def serviceOf (slot : List Octet) : ℕ := (slot.getD 3 0).toNat &&& 0xf

/-- The MSU of slot `i` goes to another host, if it is one of ISUP, and
leaves the buffer. -/
def forwardSlot (m : Mtp2State) (i : ℕ) : Mtp2State :=
  { m with
    events :=
      if serviceOf (m.retransBuf i) = 5 then m.events ++ [.forward ((m.retransBuf i).drop 4)]
      else m.events
    retransBuf := Function.update m.retransBuf i (toLssu (m.retransBuf i)) }

/-- The loop of `mtp_changeover`. Its inner `newm` hides the outer one, so
no MSU goes to another link; a slot with another message than a user part's
keeps the loop where it is. -/
def changeoverLoop : ℕ → ℕ → Mtp2State → Option Mtp2State
  | 0, _, _ => none
  | fuel + 1, i, m =>
    if i = mtpNextSeq m.retransLastSent then some m
    else if serviceOf (m.retransBuf i) ≥ 3 then
      changeoverLoop fuel (mtpNextSeq i) (forwardSlot m i)
    else none

/-- `mtp_changeover`; `alive` is what `cluster_receivers_alive` answers. -/
def mtpChangeover (alive : Bool) (m : Mtp2State) : Option Mtp2State :=
  if alive then changeoverLoop 128 (mtpNextSeq m.retransLastAcked) m
  else
    some { m with retransLastAcked := mtpNextSeq m.retransLastSent, retransSeq := none }

/-- `mtp3_link_fail` after the changeover. -/
def linkFailed (m : Mtp2State) (down : Bool) : Mtp2State :=
  l4down
    (if down then { m with state := .down, t17 := true, fails := m.fails + 1 }
      else { m with state := .notAligned, fails := m.fails + 1 })

/-- `mtp3_link_fail` -/
def mtp3LinkFail (alive : Bool) (m : Mtp2State) (down : Bool) : Option Mtp2State :=
  let m' := mtp2Cleanup m
  if m.state = .inservice then
    (mtpChangeover alive { m' with events := m'.events ++ [.linkDown] }).map fun m =>
      linkFailed m down
  else some (linkFailed m' down)

/-! ## The error rate monitors -/

/-- `mtp2_error_mon_count_frame` -/
def mtp2ErrorMonCountFrame (m : Mtp2State) : Mtp2State :=
  if m.state = .ready ∨ m.state = .inservice then
    { m with
      emonDcount := (m.emonDcount + 1) % 256
      errorRateMon :=
        if (m.emonDcount + 1) % 256 = 0 ∧ m.errorRateMon > 0 then m.errorRateMon - 1
        else m.errorRateMon }
  else m

/-- `mtp2_octet_counting` -/
def mtp2OctetCounting (m : Mtp2State) : Mtp2State := { m with emonNcount := 0 }

/-- `mtp2_emon_count_error` -/
def mtp2EmonCountError (alive : Bool) (m : Mtp2State) : Option Mtp2State :=
  if m.state = .ready ∨ m.state = .inservice then
    if m.errorRateMon < 64 then
      let m := { m with errorRateMon := m.errorRateMon + 1 }
      if m.errorRateMon = 64 then mtp3LinkFail alive m false else some m
    else some m
  else if m.state = .proving then
    let m := { m with errorRateMon := m.errorRateMon + 1 }
    if m.errorRateMon ≥ 1 then some (abortInitialAlignment m) else some m
  else some m

/-- The statics of `mtp2_bad_frame`, which all links share: the time of the
last message, in microseconds (`none` where `tv_sec` is 0), and the messages
suppressed since. -/
structure BadLog where
  last : Option ℤ
  badcount : ℕ

/-- Whether `mtp2_bad_frame` returns before it counts the frame. -/
def BadLog.suppresses (log : BadLog) (now : ℤ) : Prop :=
  match log.last with
  | none => False
  | some last => wrapInt (now - last) < 10 * 1000000 ∧ log.badcount < 10000

instance (log : BadLog) (now : ℤ) : Decidable (log.suppresses now) := by
  unfold BadLog.suppresses
  split <;> infer_instance

/-- `mtp2_bad_frame` -/
def mtp2BadFrame (alive : Bool) (log : BadLog) (now : ℤ) (m : Mtp2State) : Option Mtp2State :=
  if log.suppresses now then some m else mtp2EmonCountError alive (mtp2ErrorMonCountFrame m)

/-- An octet read in octet counting mode, in `mtp2_read_su`. -/
def countOctet (alive : Bool) (m : Mtp2State) : Option Mtp2State :=
  let m := { m with emonNcount := (m.emonNcount + 1) % 16 }
  if m.emonNcount = 0 then mtp2EmonCountError alive m else some m

/-! ## Queueing -/

/-- The octets of an MSU in its slot; the first two are filled in when it is
sent. -/
def slotOf (sio : Octet) (sif : List Octet) : List Octet :=
  0 :: 0 :: UInt8.ofNat (if sif.length ≥ 62 then 63 else 1 + sif.length) :: sio :: sif

/-- `mtp2_queue_msu` -/
def mtp2QueueMsu (m : Mtp2State) (sio : Octet) (sif : List Octet) : Mtp2State :=
  if m.state ≠ .inservice ∧ m.state ≠ .ready then m
  else if sif.length < 2 then m
  else
    let i := mtpNextSeq m.retransLastSent
    if i = m.retransLastAcked then m
    else
      { m with
        retransBuf := Function.update m.retransBuf i (slotOf sio sif)
        retransLastSent := i
        retransSeq := if m.retransSeq = none then some i else m.retransSeq
        t7 := if m.retransSeq = none then true else m.t7
        accepted := m.accepted ++ [⟨sio, sif⟩] }

/-- `mtp3_put_label` -/
def mtp3PutLabel (sls : ℕ) (variant : Ss7Variant) (opc dpc : ℕ) : List Octet :=
  match variant with
  | .itu =>
    [UInt8.ofNat (dpc &&& 0xff),
      UInt8.ofNat (((dpc &&& 0x3f00) >>> 8) ||| ((opc &&& 0x0003) <<< 6)),
      UInt8.ofNat ((opc &&& 0x03fc) >>> 2),
      UInt8.ofNat (((opc &&& 0x3c00) >>> 10) ||| (sls <<< 4))]
  | .china =>
    [UInt8.ofNat (dpc &&& 0xff), UInt8.ofNat ((dpc &&& 0xff00) >>> 8),
      UInt8.ofNat ((dpc &&& 0xff0000) >>> 16), UInt8.ofNat (opc &&& 0xff),
      UInt8.ofNat ((opc &&& 0xff00) >>> 8), UInt8.ofNat ((opc &&& 0xff0000) >>> 16),
      UInt8.ofNat (sls &&& 0x0f)]

/-- The service information octet of the messages this end makes itself. -/
def serviceOctet (m : Mtp2State) (si : ℕ) : Octet :=
  UInt8.ofNat ((m.subservice.getD 0x8 <<< 4) ||| si)

/-- `sltm_pattern` -/
def sltmPattern : List Octet :=
  [0x11, 0x22, 0x33, 0x44, 0x55, 0x66, 0x77, 0x88, 0x99, 0xaa, 0xbb, 0xcc, 0xdd, 0xee, 0xff]

/-- `mtp3_send_sltm` -/
def mtp3SendSltm (c : Link) (m : Mtp2State) : Mtp2State :=
  let messageSltm := mtp3PutLabel c.sls c.variant c.opc c.peerpc ++ [0x11, 0xf0] ++ sltmPattern
  let m := mtp2QueueMsu m (serviceOctet m 1) messageSltm
  if m.sltmT1 then m else { m with sltmT1 := true, sltmTries := 1 }

/-- The traffic restart allowed message, queued when the link enters
service. -/
def queueTra (c : Link) (m : Mtp2State) : Mtp2State :=
  mtp2QueueMsu m (serviceOctet m 0) (mtp3PutLabel c.sls c.variant c.opc c.peerpc ++ [0x17])

/-! ## Received frames

A frame stands at the start of the receive buffer `buf`, `len` octets long. -/

/-- The backward sequence number. -/
def bsnOf (buf : ℕ → Octet) : ℕ := (buf 0).toNat &&& 0x7f

/-- The backward indicator bit. -/
def bibOf (buf : ℕ → Octet) : Bool := (buf 0).toNat >>> 7 = 1

/-- The forward sequence number. -/
def fsnOf (buf : ℕ → Octet) : ℕ := (buf 1).toNat &&& 0x7f

/-- The forward indicator bit. -/
def fibOf (buf : ℕ → Octet) : Bool := (buf 1).toNat >>> 7 = 1

/-- The length indicator. -/
def liOf (buf : ℕ → Octet) : ℕ := (buf 2).toNat &&& 0x3f

/-- The octets of the buffer from `i` on. -/
def octetsFrom (buf : ℕ → Octet) (i n : ℕ) : List Octet := (List.range n).map fun k => buf (i + k)

/-- `mtp2_process_lssu` -/
def mtp2ProcessLssu (alive : Bool) (m : Mtp2State) (buf : ℕ → Octet) : Option Mtp2State :=
  let typ := (buf 3).toNat &&& 0x07
  if typ = 0 then
    match m.state with
    | .notAligned => some { m with t2 := false, t3 := true, state := .aligned }
    | .proving => some { m with t4 := false, state := .aligned }
    | .ready => some (abortInitialAlignment m)
    | .inservice => mtp3LinkFail alive m false
    | _ => some m
  else if typ = 1 ∨ typ = 2 then
    let m := { m with sendBsn := fsnOf buf, sendBib := fibOf buf }
    match m.state with
    | .notAligned => some { m with t2 := false, t3 := true, state := .aligned }
    | .aligned =>
      some { m with t3 := false, t4 := true, state := .proving, errorRateMon := 0, emonNcount := 0 }
    | .inservice => mtp3LinkFail alive m false
    | _ => some m
  else if typ = 3 then
    match m.state with
    | .aligned => some (abortInitialAlignment m)
    | .proving => some (abortInitialAlignment m)
    | .ready => mtp3LinkFail alive m true
    | .inservice => mtp3LinkFail alive m true
    | _ => some m
  else if typ = 4 ∨ typ = 5 then some m
  else mtp3LinkFail alive m false

/-! ### The units handed to level 3 -/

/-- The destination point code of a received unit. -/
def dpcOf (c : Link) (buf : ℕ → Octet) : ℕ :=
  match c.variant with
  | .itu => (buf 4).toNat ||| (((buf 5).toNat &&& 0x3f) <<< 8)
  | .china => (buf 4).toNat ||| ((buf 5).toNat <<< 8) ||| ((buf 6).toNat <<< 16)

/-- The originating point code of a received unit. -/
def opcOf (c : Link) (buf : ℕ → Octet) : ℕ :=
  match c.variant with
  | .itu =>
    (((buf 5).toNat &&& 0xc0) >>> 6) ||| ((buf 6).toNat <<< 2) ||| (((buf 7).toNat &&& 0x0f) <<< 10)
  | .china => (buf 7).toNat ||| ((buf 8).toNat <<< 8) ||| ((buf 9).toNat <<< 16)

/-- The signalling link code of a received unit. -/
def slcOf (c : Link) (buf : ℕ → Octet) : ℕ :=
  match c.variant with
  | .itu => ((buf 7).toNat &&& 0xf0) >>> 4
  | .china => (buf 10).toNat &&& 0x0f

/-- Where the heading code of a received unit stands. -/
def headingAt (c : Link) : ℕ :=
  match c.variant with
  | .itu => 8
  | .china => 11

/-- `h0` and `h1` of a received unit. -/
def headingOf (c : Link) (buf : ℕ → Octet) : ℕ × ℕ :=
  ((buf (headingAt c)).toNat &&& 0xf, ((buf (headingAt c)).toNat &&& 0xf0) >>> 4)

/-- `slt_pattern_len` -/
def sltPatternLen (c : Link) (buf : ℕ → Octet) : ℕ :=
  ((buf (headingAt c + 1)).toNat &&& 0xf0) >>> 4

/-- Whether an SLTA is accepted (Q.707 (2.2)). -/
def validSlta (c : Link) (buf : ℕ → Octet) : Prop :=
  slcOf c buf = c.sls ∧ opcOf c buf = c.peerpc ∧ dpcOf c buf = c.opc ∧
    octetsFrom buf (headingAt c + 2) 15 = sltmPattern

instance (c : Link) (buf : ℕ → Octet) : Decidable (validSlta c buf) := by
  unfold validSlta
  infer_instance

/-- The answer to an SLTM, queued. -/
def queueSlta (c : Link) (m : Mtp2State) (buf : ℕ → Octet) : Mtp2State :=
  let sltPatternLen := sltPatternLen c buf
  mtp2QueueMsu m (serviceOctet m 1)
    (mtp3PutLabel (slcOf c buf) c.variant (dpcOf c buf) (opcOf c buf) ++
      [0x21, UInt8.ofNat (sltPatternLen <<< 4)] ++
      octetsFrom buf (headingAt c + 2) sltPatternLen)

/-- A received SLTA. -/
def takeSlta (c : Link) (alive : Bool) (m : Mtp2State) (buf : ℕ → Octet) : Option Mtp2State :=
  let m := { m with sltmT1 := false }
  if validSlta c buf then some (l4up m)
  else if m.sltmTries = 1 then some { mtp3SendSltm c m with sltmTries := 2 }
  else mtp3LinkFail alive m false

/-- The octets `deliver_l4` passes on. -/
def l4Octets (buf : ℕ → Octet) (len : ℕ) : List Octet :=
  octetsFrom buf 4 (if liOf buf = 63 then len - 4 else liOf buf - 1)

/-- The MSU in the buffer. -/
def msuOf (buf : ℕ → Octet) (len : ℕ) : Msu := ⟨buf 3, octetsFrom buf 4 (len - 4)⟩

/-- `process_msu`. What it does with a management message is to log it. -/
def processMsu (c : Link) (alive : Bool) (m : Mtp2State) (buf : ℕ → Octet) (len : ℕ) :
    Option Mtp2State :=
  let serviceIndicator := (buf 3).toNat &&& 0xf
  let m :=
    { m with
      handed := m.handed ++ [msuOf buf len]
      subservice := some (m.subservice.getD (((buf 3).toNat &&& 0xf0) >>> 4)) }
  if serviceIndicator = 1 then
    if liOf buf < 7 then some m
    else if liOf buf < 7 + sltPatternLen c buf then some m
    else if headingOf c buf = (1, 1) then some (queueSlta c m buf)
    else if headingOf c buf = (1, 2) then takeSlta c alive m buf
    else some m
  else if serviceIndicator = 3 then
    some { m with events := m.events ++ [.sccp (l4Octets buf len)] }
  else if serviceIndicator = 5 then
    some { m with events := m.events ++ [.isup (l4Octets buf len)] }
  else some m

/-! ### `mtp2_good_frame` -/

/-- The first unit taken in `MTP2_READY`: the link enters service with the
numbers and the bits of this unit. -/
def enterService (c : Link) (m : Mtp2State) (buf : ℕ → Octet) : Mtp2State :=
  let m :=
    { m with
      t1 := false, t7 := false, sendFib := bibOf buf, sendBsn := fsnOf buf, sendBib := fibOf buf,
      retransLastAcked := bsnOf buf, errorRateMon := 0, emonDcount := 0, emonNcount := 0,
      level4Up := false, state := .inservice }
  let m := queueTra c m
  if c.sendSltm then { mtp3SendSltm c m with sltmT2 := true } else l4up m

/-- A BSN outside those sent and not yet acknowledged. -/
def illegalBsn (m : Mtp2State) (bsn : ℕ) : Prop :=
  (m.retransLastAcked ≤ m.retransLastSent ∧
      (bsn < m.retransLastAcked ∨ bsn > m.retransLastSent)) ∨
    (m.retransLastAcked > m.retransLastSent ∧
      (bsn < m.retransLastAcked ∧ bsn > m.retransLastSent))

instance (m : Mtp2State) (bsn : ℕ) : Decidable (illegalBsn m bsn) := by
  unfold illegalBsn
  infer_instance

/-- A new acknowledgement restarts T7. -/
def takeBsn (m : Mtp2State) (bsn : ℕ) : Mtp2State :=
  if m.retransLastAcked = bsn then m
  else { m with t7 := bsn ≠ m.retransLastSent, retransLastAcked := bsn }

/-- A changed BIB is a negative acknowledgement: retransmission starts. -/
def takeBib (m : Mtp2State) (bsn : ℕ) (bib : Bool) : Mtp2State :=
  if bib = m.sendFib then m
  else
    { m with
      sendFib := bib
      retransSeq := if bsn = m.retransLastSent then none else some (mtpNextSeq bsn) }

/-- A frame was lost: ask for retransmission, once. -/
def askAgain (m : Mtp2State) (fib : Bool) : Mtp2State :=
  if fib = m.sendBib then { m with sendBib := !m.sendBib } else m

/-- A fill-in unit. -/
def takeFisu (m : Mtp2State) (fsn : ℕ) (fib : Bool) : Mtp2State :=
  if fsn = m.sendBsn then m else askAgain m fib

/-- A message unit. -/
def takeMsu (c : Link) (alive : Bool) (m : Mtp2State) (buf : ℕ → Octet) (len : ℕ) :
    Option Mtp2State :=
  if fsnOf buf = m.sendBsn then some m
  else if fsnOf buf = mtpNextSeq m.sendBsn then
    if fibOf buf = m.sendBib then
      let m := { m with sendBsn := fsnOf buf }
      if liOf buf < 5 then some m else processMsu c alive m buf len
    else some m
  else some (askAgain m (fibOf buf))

/-- A unit at a link in service. -/
def takeUnit (c : Link) (alive : Bool) (m : Mtp2State) (buf : ℕ → Octet) (len : ℕ) :
    Option Mtp2State :=
  if illegalBsn m (bsnOf buf) then
    if m.bsnErrors > 2 then mtp3LinkFail alive { m with bsnErrors := 0 } true
    else some { m with bsnErrors := m.bsnErrors + 1 }
  else
    let m := takeBib (takeBsn { m with bsnErrors := 0 } (bsnOf buf)) (bsnOf buf) (bibOf buf)
    if liOf buf = 0 then some (takeFisu m (fsnOf buf) (fibOf buf))
    else takeMsu c alive m buf len

/-- `mtp2_good_frame`. The second test for `MTP2_READY` in the source stands
behind the first and is never reached. -/
def mtp2GoodFrame (c : Link) (alive : Bool) (m : Mtp2State) (buf : ℕ → Octet) (len : ℕ) :
    Option Mtp2State :=
  let m := mtp2ErrorMonCountFrame m
  if m.state = .down then some m
  else if liOf buf + 3 > len then some m
  else if liOf buf = 1 ∨ liOf buf = 2 then mtp2ProcessLssu alive m buf
  else if m.state = .inservice then takeUnit c alive m buf len
  else if m.state = .ready then takeUnit c alive (enterService c m buf) buf len
  else some m

/-! ## The frame to send -/

/-- An octet with a sequence number and an indicator bit. -/
def seqOctet (seq : ℕ) (bit : Bool) : Octet := UInt8.ofNat (seq ||| (bit.toNat <<< 7))

/-- A link status unit. -/
def lssuFrame (m : Mtp2State) (status : Octet) : List Octet :=
  [seqOctet m.sendBsn m.sendBib, seqOctet m.retransLastSent m.sendFib, 1, status]

/-- What a link sends in READY and INSERVICE: the next message, or a fill-in
unit. -/
def pickUnit (m : Mtp2State) : Mtp2State × List Octet :=
  match m.retransSeq with
  | some seq =>
    ({ m with retransSeq := if seq = m.retransLastSent then none else some (mtpNextSeq seq) },
      (seqOctet m.sendBsn m.sendBib :: seqOctet seq m.sendFib :: (m.retransBuf seq).drop 2).take
        (m.retransBuf seq).length)
  | none => (m, [seqOctet m.sendBsn m.sendBib, seqOctet m.retransLastSent m.sendFib, 0])

/-- `mtp2_pick_frame`: the link after it and the frame in `tx_buffer`. -/
def mtp2PickFrame (m : Mtp2State) : Mtp2State × List Octet :=
  match m.state with
  | .down => (m, lssuFrame m 3)
  | .notAligned => (m, lssuFrame m 0)
  | .aligned => (m, lssuFrame m 2)
  | .proving => (m, lssuFrame m 2)
  | .ready => pickUnit m
  | .inservice => pickUnit m

/-! ## Timers -/

/-- The timers of a link. -/
inductive Timer where
  | t1
  | t2
  | t3
  | t4
  | t7
  | t17
  | sltmT1
  | sltmT2
  deriving DecidableEq

/-- Whether a timer runs. -/
def Mtp2State.running (m : Mtp2State) : Timer → Bool
  | .t1 => m.t1
  | .t2 => m.t2
  | .t3 => m.t3
  | .t4 => m.t4
  | .t7 => m.t7
  | .t17 => m.t17
  | .sltmT1 => m.sltmT1
  | .sltmT2 => m.sltmT2

/-- `timeout_sltm_t1` -/
def timeoutSltmT1 (c : Link) (alive : Bool) (m : Mtp2State) : Option Mtp2State :=
  if m.sltmTries = 1 then some { mtp3SendSltm c m with sltmTries := 2 }
  else mtp3LinkFail alive { m with sltmT1 := false } false

/-- What a timer does at its expiry: `t1_timeout` to `t4_timeout`,
`t17_timeout`, `timeout_t7`, `timeout_sltm_t1` and `mtp3_send_sltm`. -/
def expire (c : Link) (alive : Bool) (m : Mtp2State) : Timer → Option Mtp2State
  | .t1 => some (abortInitialAlignment { m with t1 := false })
  | .t2 => some (abortInitialAlignment { m with t2 := false })
  | .t3 => some (abortInitialAlignment { m with t3 := false })
  | .t4 => some { m with state := .ready, t4 := false, t1 := true }
  | .t7 => mtp3LinkFail alive { m with t7 := false } true
  | .t17 => some (startInitialAlignment { m with t17 := false })
  | .sltmT1 => timeoutSltmT1 c alive m
  | .sltmT2 => some (mtp3SendSltm c m)

/-! ## One link -/

/-- What happens to a link. `linkUp` and `linkDown` are the requests of
`mtp_thread_main`; after `formatError` the reader counts octets. -/
inductive Event where
  | goodFrame (buf : ℕ → Octet) (len : ℕ)
  | badFrame (log : BadLog) (now : ℤ)
  | formatError (log : BadLog) (now : ℤ)
  | octet
  | expire (t : Timer)
  | linkUp
  | linkDown
  | queueMsu (sio : Octet) (sif : List Octet)
  | pickFrame

/-- **One event at a link.** `alive` is the answer `cluster_receivers_alive`
gives meanwhile; `none` is an event that cannot happen or does not end. -/
def linkStep (c : Link) (alive : Bool) (m : Mtp2State) : Event → Option Mtp2State
  | .goodFrame buf len => mtp2GoodFrame c alive m buf len
  | .badFrame log now => mtp2BadFrame alive log now m
  | .formatError log now => (mtp2BadFrame alive log now m).map mtp2OctetCounting
  | .octet => countOctet alive m
  | .expire t => if m.running t then expire c alive m t else none
  | .linkUp => some (startInitialAlignment m)
  | .linkDown => some (l4down (mtp2Cleanup { m with state := .down }))
  | .queueMsu sio sif => some (mtp2QueueMsu m sio sif)
  | .pickFrame => some (mtp2PickFrame m).1

/-- One event at a link, with what `cluster_receivers_alive` answers. -/
def LinkStep (c : Link) (m : Mtp2State) (e : Bool × Event) (m' : Mtp2State) : Prop :=
  linkStep c e.1 m e.2 = some m'

/-- A link status unit on the line. -/
def lssuBuf (status : Octet) (i : ℕ) : Octet := [0xff, 0xff, 1, status].getD i 0

end Mtp2

end Trismedia
