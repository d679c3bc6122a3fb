import Mathlib.Algebra.Order.Group.Int
import Mathlib.Logic.Function.Basic
import Trismedia.Common.Trace
/-!
# UDPTL

`main/udptl.c` as it computes: the length and open type codings,
`udptl_build_packet` and `udptl_rx_packet`. A function is `none` where the
code writes outside an array or goes round a loop for ever. A buffer that
is read is the list of the octets that are left of it, and one that is
written the list of those written so far. Of a frame the number and the
data are kept: its other fields are the same for all.
-/


namespace Trismedia

namespace Udptl

/-- `LOCAL_FAX_MAX_DATAGRAM` -/
def localFaxMaxDatagram : ℕ := 1400

/-- `MAX_FEC_ENTRIES` -/
def maxFecEntries : ℕ := 5

/-- `x & UDPTL_BUF_MASK` -/
def mask (x : ℤ) : ℕ := (x % 16).toNat

/-- An `int` taken for an `unsigned int`. -/
def toUnsigned (x : ℤ) : ℕ := (x % 4294967296).toNat

/-! ## Lengths and open types -/

/-- `decode_length`: nothing for `-1`, else whether it is a fragment, the
value and what is left. -/
def decodeLength : List UInt8 → Option (Bool × ℕ × List UInt8)
  | [] => none
  | b :: rest =>
    if b &&& 0x80 = 0 then
      some (false, b.toNat, rest)
    else if b &&& 0x40 = 0 then
      match rest with
      | [] => none
      | c :: rest => some (false, ((b &&& 0x3F).toNat <<< 8) ||| c.toNat, rest)
    else
      -- Indicate we have a fragment
      some (true, (b &&& 0x3F).toNat <<< 14, rest)

/-- The loop of `decode_open_type`. `object` is what `p_object` shows of the
buffer so far; an error is `-1`, with the octets counted. -/
def decodeOpenTypeLoop : ℕ → ℕ → List UInt8 → List UInt8 →
    Option (Except ℕ (List UInt8 × List UInt8))
  | 0, _, _, _ => none
  | fuel + 1, octetIdx, object, rest =>
    match decodeLength rest with
    -- `length` is unsigned and not below zero: the loop goes round for ever
    | none => none
    | some (fragment, octetCnt, rest) =>
      if octetCnt > 0 then
        -- Make sure the buffer contains at least the number of bits requested
        if octetCnt > rest.length then
          some (.error (object.length + octetCnt))
        -- `p_object[octet_idx]` is outside
        else if octetIdx ≠ 0 then
          none
        else if fragment then
          decodeOpenTypeLoop fuel (octetIdx + octetCnt) (rest.take octetCnt) (rest.drop octetCnt)
        else
          some (.ok (rest.take octetCnt, rest.drop octetCnt))
      else if fragment then
        decodeOpenTypeLoop fuel octetIdx object rest
      else
        some (.ok (object, rest))

/-- `decode_open_type` -/
def decodeOpenType (rest : List UInt8) : Option (Except ℕ (List UInt8 × List UInt8)) :=
  decodeOpenTypeLoop (rest.length + 1) 0 [] rest

/-- `buf[len++] = b` -/
def putOctet (buflen : ℕ) (buf : List UInt8) (b : UInt8) : Option (List UInt8) :=
  if buf.length < buflen then some (buf ++ [b]) else none

/-- `encode_length`, with what it returns. -/
def encodeLength (buflen : ℕ) (buf : List UInt8) (value : ℕ) : Option (List UInt8 × ℕ) :=
  if value < 0x80 then do
    -- 1 octet
    let buf ← putOctet buflen buf (UInt8.ofNat value)
    return (buf, value)
  else if value < 0x4000 then do
    -- 2 octets
    let buf ← putOctet buflen buf (UInt8.ofNat (((0x8000 ||| value) >>> 8) &&& 0xFF))
    let buf ← putOctet buflen buf (UInt8.ofNat (value &&& 0xFF))
    return (buf, value)
  else do
    -- Fragmentation
    let multiplier := if value < 0x10000 then value >>> 14 else 4
    let buf ← putOctet buflen buf (UInt8.ofNat (0xC0 ||| multiplier))
    return (buf, multiplier <<< 14)

/-- The loop of `encode_open_type`; nothing inside for `-1`. -/
def encodeOpenTypeLoop (buflen : ℕ) :
    ℕ → List UInt8 → List UInt8 → ℕ → Option (Option (List UInt8))
  | 0, _, _, _ => none
  | fuel + 1, buf, data, numOctets => do
    let (buf, enclen) ← encodeLength buflen buf numOctets
    if enclen + buf.length > buflen then
      return none
    -- `data` is read past its end
    else if enclen > data.length then
      none
    else if enclen ≥ numOctets then
      return some (buf ++ data.take enclen)
    else
      encodeOpenTypeLoop buflen fuel (buf ++ data.take enclen) (data.drop enclen)
        (numOctets - enclen)

/-- `encode_open_type` -/
def encodeOpenType (buflen : ℕ) (buf data : List UInt8) (numOctets : ℕ) :
    Option (Option (List UInt8)) :=
  -- If open type is of zero length, add a single zero byte (10.1)
  if numOctets = 0 then
    encodeOpenTypeLoop buflen 1 buf [0] 1
  else
    encodeOpenTypeLoop buflen (data.length + 1) buf data numOctets

/-! ## The session -/

/-- `enum tris_t38_ec_modes` -/
inductive T38EcMode
  | none
  | redundancy
  | fec
  deriving DecidableEq, Repr

/-- `udptl_fec_tx_buffer_t` -/
structure UdptlFecTx where
  bufLen : ℤ
  buf : List UInt8

/-- `udptl_fec_rx_buffer_t` -/
structure UdptlFecRx where
  bufLen : ℤ
  buf : List UInt8
  fecLen : ℕ → ℕ
  fec : ℕ → List UInt8
  fecSpan : ℕ
  fecEntries : ℕ

/-- What `struct tris_udptl` holds to send. -/
structure UdptlTx where
  errorCorrectionScheme : T38EcMode
  errorCorrectionEntries : ℕ
  errorCorrectionSpan : ℕ
  txSeqNo : ℕ
  tx : ℕ → UdptlFecTx

/-- What `struct tris_udptl` holds to receive. -/
structure UdptlRx where
  rxSeqNo : ℕ
  rx : ℕ → UdptlFecRx

/-- A frame for the reader: its number and its data. -/
structure T38Frame where
  seqno : ℤ
  data : List UInt8
  deriving DecidableEq, Repr

/-- A new session, to send. -/
def newTx (scheme : T38EcMode) (entries span : ℕ) : UdptlTx where
  errorCorrectionScheme := scheme
  errorCorrectionEntries := entries
  errorCorrectionSpan := span
  txSeqNo := 0
  tx := fun _ => ⟨-1, []⟩

/-- A new session, to receive. -/
def newRx : UdptlRx where
  rxSeqNo := 0
  rx := fun _ => ⟨-1, [], fun _ => 0, fun _ => [], 0, 0⟩

/-- The loop `for (k = start; k != limit; k = (k + step) & UDPTL_BUF_MASK)`:
the numbers it visits. In sixteen steps it has been everywhere it comes. -/
def ringLoop (limit step : ℕ) : ℕ → ℕ → Option (List ℕ)
  | 0, k => if k ≠ limit then none else some []
  | fuel + 1, k =>
    if k ≠ limit then do
      let ks ← ringLoop limit step fuel (mask (k + step))
      return k :: ks
    else
      return []

/-- The packets under one FEC entry: the loop over them. -/
def fecGroup (limit span entries : ℕ) : Option (List ℕ) :=
  ringLoop limit entries 16 (mask (limit - span * entries))

/-! ## Sending -/

/-- One packet goes into an XOR'ed entry, whose length so far is the high
tide. -/
def xorInto (fec buf : List UInt8) : List UInt8 :=
  if fec.length < buf.length then
    List.zipWith (· ^^^ ·) fec buf ++ buf.drop fec.length
  else
    List.zipWith (· ^^^ ·) fec buf ++ fec.drop buf.length

/-- The redundant entries: the last `left` of them. -/
def encodeRedundancy (buflen : ℕ) (tx : ℕ → UdptlFecTx) (entry entries : ℕ) :
    ℕ → List UInt8 → Option (Option (List UInt8))
  | 0, buf => some (some buf)
  | left + 1, buf => do
    let i := entries - (left + 1)
    let j := mask ((entry : ℤ) - i - 1)
    match ← encodeOpenType buflen buf (tx j).buf (toUnsigned (tx j).bufLen) with
    | none => return none
    | some buf => encodeRedundancy buflen tx entry entries left buf

/-- The packets of a group, in one XOR'ed entry. -/
def xorGroup (tx : ℕ → UdptlFecTx) (group : List ℕ) : List UInt8 :=
  group.foldl (fun fec i => xorInto fec ((tx i).buf.take (tx i).bufLen.toNat)) []

/-- The FEC entries: the last `left` of them. -/
def encodeFec (buflen : ℕ) (tx : ℕ → UdptlFecTx) (entry span entries : ℕ) :
    ℕ → List UInt8 → Option (Option (List UInt8))
  | 0, buf => some (some buf)
  | left + 1, buf => do
    let m := entries - (left + 1)
    -- Make an XOR'ed entry the maximum length
    let group ← fecGroup (mask ((entry : ℤ) + m)) span entries
    let fec := xorGroup tx group
    match ← encodeOpenType buflen buf fec fec.length with
    | none => return none
    | some buf => encodeFec buflen tx entry span entries left buf

/-- Encode the appropriate type of error recovery information. -/
def encodeErrorRecovery (buflen : ℕ) (s : UdptlTx) (seq entry : ℕ) (buf : List UInt8) :
    Option (Option (List UInt8)) :=
  match s.errorCorrectionScheme with
  | .none => do
    let buf ← putOctet buflen buf 0x00
    let (buf, _) ← encodeLength buflen buf 0
    return some buf
  | .redundancy => do
    let buf ← putOctet buflen buf 0x00
    let entries :=
      if s.txSeqNo > s.errorCorrectionEntries then s.errorCorrectionEntries else s.txSeqNo
    let (buf, _) ← encodeLength buflen buf entries
    encodeRedundancy buflen s.tx entry entries entries buf
  | .fec => do
    -- In the initial stages, wind up the FEC smoothly
    let windUp := seq < s.errorCorrectionSpan * s.errorCorrectionEntries
    let entries := if windUp then seq / s.errorCorrectionSpan else s.errorCorrectionEntries
    let span :=
      if windUp ∧ seq < s.errorCorrectionSpan then 0 else s.errorCorrectionSpan
    let buf ← putOctet buflen buf 0x80
    let buf ← putOctet buflen buf 1
    let buf ← putOctet buflen buf (UInt8.ofNat span)
    let buf ← putOctet buflen buf (UInt8.ofNat entries)
    encodeFec buflen s.tx entry span entries entries buf

/-- `udptl_build_packet`: the datagram, or nothing inside for `-1`. -/
def udptlBuildPacket (buflen : ℕ) (s : UdptlTx) (ifp : List UInt8) :
    Option (UdptlTx × Option (List UInt8)) :=
  let seq := s.txSeqNo &&& 0xFFFF
  -- Map the sequence number to an entry in the circular buffer
  let entry := mask seq
  -- the message is written past its place in the circular buffer
  if ifp.length > localFaxMaxDatagram then
    none
  else do
    -- We save the message in a circular buffer, for generating FEC or
    -- redundancy sets later on.
    let s := { s with tx := Function.update s.tx entry ⟨ifp.length, ifp⟩ }
    -- Encode the sequence number
    let buf ← putOctet buflen [] (UInt8.ofNat ((seq >>> 8) &&& 0xFF))
    let buf ← putOctet buflen buf (UInt8.ofNat (seq &&& 0xFF))
    -- Encode the primary IFP packet
    match ← encodeOpenType buflen buf ifp ifp.length with
    | none => return (s, none)
    | some buf =>
      match ← encodeErrorRecovery buflen s seq entry buf with
      | none => return (s, none)
      | some buf => return ({ s with txSeqNo := (s.txSeqNo + 1) % 4294967296 }, some buf)

/-- IFPs sent one after the other: those that were not refused, each with
its datagram. -/
def sendAll (buflen : ℕ) :
    UdptlTx → List (List UInt8) → Option (UdptlTx × List (List UInt8 × List UInt8))
  | s, [] => some (s, [])
  | s, ifp :: ifps => do
    let (s, res) ← udptlBuildPacket buflen s ifp
    let (s, later) ← sendAll buflen s ifps
    match res with
    | none => return (s, later)
    | some buf => return (s, (ifp, buf) :: later)

/-! ## Receiving -/

/-- The loop over the secondary packets of one length: into `bufs`. -/
def decodeSecondary : ℕ → List (List UInt8) → List UInt8 →
    Option (Option (List (List UInt8) × List UInt8))
  | 0, bufs, rest => some (some (bufs, rest))
  | left + 1, bufs, rest =>
    -- `bufs` and `lengths` have sixteen entries
    if bufs.length ≥ 16 then
      none
    else do
      match ← decodeOpenType rest with
      | .error _ => return none
      | .ok (object, rest) => decodeSecondary left (bufs ++ [object]) rest

/-- The loop over the lengths: a fragment is followed by another. -/
def decodeSecondaries : ℕ → List (List UInt8) → List UInt8 → Option (Option (List (List UInt8)))
  | 0, _, _ => none
  | fuel + 1, bufs, rest =>
    match decodeLength rest with
    | none => some none
    | some (fragment, count, rest) => do
      match ← decodeSecondary count bufs rest with
      | none => return none
      | some (bufs, rest) =>
        if fragment then decodeSecondaries fuel bufs rest else return some bufs

/-- Step through in reverse order, so we go oldest to newest: `i` from
`total_count` down. -/
def newFrames (seqNo rxSeqNo : ℕ) (bufs : List (List UInt8)) : ℕ → List T38Frame
  | 0 => []
  | i + 1 =>
    if toUnsigned ((seqNo : ℤ) - (i + 1 : ℕ)) ≥ rxSeqNo then
      -- This one wasn't seen before
      ⟨(seqNo : ℤ) - (i + 1 : ℕ), bufs.getD i []⟩ :: newFrames seqNo rxSeqNo bufs i
    else
      newFrames seqNo rxSeqNo bufs i

/-- Update any missed slots in the buffer. -/
def missSlots : ℕ → UdptlRx → UdptlRx
  | 0, s => s
  | left + 1, s =>
    let x := mask s.rxSeqNo
    let slot := s.rx x
    missSlots left
      { rxSeqNo := s.rxSeqNo + 1
        rx := Function.update s.rx x
          { slot with
            bufLen := -1, fecLen := Function.update slot.fecLen 0 0, fecSpan := 0, fecEntries := 0 } }

/-- Decode the elements of FEC, from the `i`-th on; whether all went well. -/
def decodeFec (entries : ℕ) : ℕ → UdptlFecRx → List UInt8 → Option (UdptlFecRx × Bool)
  | 0, slot, _ => some (slot, true)
  | left + 1, slot, rest =>
    let i := entries - (left + 1)
    if i ≥ maxFecEntries then
      none
    else do
      match ← decodeOpenType rest with
      | .error n => return ({ slot with fecLen := Function.update slot.fecLen i n }, false)
      | .ok (data, rest) =>
        let slot := { slot with fecLen := Function.update slot.fecLen i data.length }
        if data.length > localFaxMaxDatagram then
          return (slot, false)
        else
          -- Save the new FEC data
          decodeFec entries left { slot with fec := Function.update slot.fec i data } rest

/-- The one packet of the group that is missing, if it is one. -/
def whichMissing (rx : ℕ → UdptlFecRx) (group : List ℕ) : ℤ :=
  group.foldl (fun which k =>
    if (rx k).bufLen ≤ 0 then (if which = -1 then (k : ℤ) else -2) else which) (-1)

/-- One octet of a repaired packet. -/
def repairOctet (rx : ℕ → UdptlFecRx) (group : List ℕ) (fec : List UInt8) (j : ℕ) : UInt8 :=
  group.foldl (fun b k => b ^^^ (if (rx k).bufLen > j then (rx k).buf.getD j 0 else 0))
    (fec.getD j 0)

/-- The repaired slots so far: the buffer, and `repaired`. -/
abbrev Repair := (ℕ → UdptlFecRx) × (ℕ → Bool)

/-- Try the `m`-th FEC entry of the slot `l`. -/
def repairEntry (l m : ℕ) (r : Repair) : Option Repair := do
  let slot := r.1 l
  let group ← fecGroup (mask (l + m)) slot.fecSpan slot.fecEntries
  let which := whichMissing r.1 group
  if which ≥ 0 then
    -- Repairable
    let w := which.toNat
    let data := (List.range (slot.fecLen m)).map (repairOctet r.1 group (slot.fec m))
    return (Function.update r.1 w { r.1 w with buf := data, bufLen := slot.fecLen m },
      Function.update r.2 w true)
  else
    return r

/-- The entries of the slot `l`, from the `m`-th on. -/
def repairEntries (l : ℕ) : ℕ → ℕ → Repair → Option Repair
  | 0, _, r => some r
  | left + 1, m, r => do
    let r ← repairEntry l m r
    repairEntries l left (m + 1) r

/-- See if we can reconstruct anything which is missing: `l` from `x` back
to `stop`. -/
def repairSlots (stop : ℕ) : ℕ → ℕ → Repair → Option Repair
  | 0, l, r => if l ≠ stop then none else some r
  | fuel + 1, l, r =>
    if l ≠ stop then do
      let slot := r.1 l
      let r ← if slot.fecLen 0 ≤ 0 then pure r else repairEntries l slot.fecEntries 0 r
      repairSlots stop fuel (mask ((l : ℤ) - 1)) r
    else
      return r

/-- Now play any new packets forwards in time: the `left` slots from `l` on,
numbered from `j` on. -/
def playRepaired (r : Repair) : ℕ → ℕ → ℤ → List T38Frame
  | 0, _, _ => []
  | left + 1, l, j =>
    if r.2 l then
      ⟨j, (r.1 l).buf.take (r.1 l).bufLen.toNat⟩ :: playRepaired r left (mask (l + 1)) (j + 1)
    else
      playRepaired r left (mask (l + 1)) (j + 1)

/-- FEC mode for error recovery, from the mode octet on: nothing inside for
`-1`. -/
def rxFec (s : UdptlRx) (seqNo : ℕ) (ifp rest : List UInt8) :
    Option (UdptlRx × Option (List T38Frame)) :=
  -- Our buffers cannot tolerate overlength IFP packets in FEC mode
  if ifp.length > localFaxMaxDatagram then
    return (s, none)
  else
    -- Update any missed slots in the buffer
    let s := missSlots (seqNo - s.rxSeqNo) s
    let x := mask seqNo
    -- Save the new IFP packet
    let slot := { s.rx x with buf := ifp, bufLen := ifp.length }
    let saved := { s with rx := Function.update s.rx x slot }
    match rest with
    | one :: span :: rest =>
      if one ≠ 1 then
        return (saved, none)
      else
        let slot := { slot with fecSpan := span.toNat }
        match rest with
        | [] => return ({ s with rx := Function.update s.rx x slot }, none)
        | entries :: rest => do
          let slot := { slot with fecEntries := entries.toNat }
          -- Decode the elements
          let (slot, ok) ← decodeFec entries.toNat entries.toNat slot rest
          let s := { s with rx := Function.update s.rx x slot }
          if ok then
            let stop := mask ((x : ℤ) - (16 - (span.toNat : ℤ) * entries.toNat))
            let r ← repairSlots stop 16 x (s.rx, Function.update (fun _ => false) x true)
            return ({ s with rx := r.1 },
              some (playRepaired r 15 (mask (x + 1)) ((seqNo : ℤ) - 15)))
          else
            return (s, none)
    | _ => return (saved, none)

/-- `udptl_rx_packet`: the frames, or nothing inside for `-1`. -/
def udptlRxPacket (s : UdptlRx) (buf : List UInt8) : Option (UdptlRx × Option (List T38Frame)) :=
  match buf with
  | hi :: lo :: rest => do
    -- Decode seq_number
    let seqNo := (hi.toNat <<< 8) ||| lo.toNat
    -- Break out the primary packet
    match ← decodeOpenType rest with
    | .error _ => return (s, none)
    | .ok (ifp, rest) =>
      -- Decode error_recovery
      match rest with
      | [] => return (s, none)
      | mode :: rest =>
        let (s, frames) ←
          if mode &&& 0x80 = 0 then
            -- Secondary packet mode for error recovery
            if seqNo > s.rxSeqNo then do
              -- we need to check if we can fill in the gap from the secondary packets
              match ← decodeSecondaries (rest.length + 1) [] rest with
              | none => pure (s, none)
              | some bufs => pure (s, some (newFrames seqNo s.rxSeqNo bufs bufs.length))
            else
              pure (s, some [])
          else
            rxFec s seqNo ifp rest
        match frames with
        | none => return (s, none)
        | some frames =>
          -- we may have already processed this packet from the error recovery
          -- information in a packet already received
          let frames := if seqNo ≥ s.rxSeqNo then frames ++ [⟨seqNo, ifp⟩] else frames
          -- `f` has sixteen entries
          if frames.length > 16 then
            none
          else
            return ({ s with rxSeqNo := seqNo + 1 }, some frames)
  | _ => return (s, none)

/-- Datagrams received one after the other, with the frames of all. -/
def rxAll : UdptlRx → List (List UInt8) → Option (UdptlRx × List T38Frame)
  | s, [] => some (s, [])
  | s, buf :: bufs => do
    let (s, frames) ← udptlRxPacket s buf
    let (s, later) ← rxAll s bufs
    return (s, frames.getD [] ++ later)

end Udptl

end Trismedia
