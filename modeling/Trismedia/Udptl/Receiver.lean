import Trismedia.Udptl.Model
/-!
# UDPTL — the receiver, and what it touches

`udptl_rx_packet` and the functions under it a second time, by places in
the datagram, with every array taken as large as an index asks for and
each index noted. So a run says what it returns and what it touched, also
where the arrays are too small. An index that is a constant or masked is
inside by itself and is not noted. `none` is a loop that has not ended
after as many rounds as the fuel allows.
-/


namespace Trismedia

namespace Udptl

/-- What a call reads or writes. Of octets: those below `n`. -/
inductive Touch
  | datagram (n : ℕ)
  | ifp (i : ℕ)
  | data (i : ℕ)
  | bufs (i : ℕ)
  | lengths (i : ℕ)
  | frame (i : ℕ)
  | fecLen (m : ℕ)
  | fec (m : ℕ)
  | fecOctets (n : ℕ)
  | bufOctets (n : ℕ)
  deriving DecidableEq, Repr

/-- Inside the array, for a datagram of `limit` octets. -/
def Touch.InRange (limit : ℕ) : Touch → Prop
  | .datagram n => n ≤ limit
  | .ifp i => i < 1
  | .data i => i < 1
  | .bufs i => i < 16
  | .lengths i => i < 16
  | .frame i => i < 16
  | .fecLen m => m < maxFecEntries
  | .fec m => m < maxFecEntries
  | .fecOctets n => n ≤ localFaxMaxDatagram
  | .bufOctets n => n ≤ localFaxMaxDatagram

/-! ## Lengths and open types -/

/-- What `decode_length` reads off: whether it is a fragment, the value and
the place behind. -/
structure LengthField where
  fragment : Bool
  value : ℕ
  next : ℕ

variable (buf : List UInt8)

/-- `decode_length` at the place `len`; nothing for `-1`. -/
def decodeLengthAt (len : ℕ) : Option LengthField :=
  if len ≥ buf.length then
    none
  else if buf.getD len 0 &&& 0x80 = 0 then
    some ⟨false, (buf.getD len 0).toNat, len + 1⟩
  else if buf.getD len 0 &&& 0x40 = 0 then
    if len = buf.length - 1 then
      none
    else
      some ⟨false, ((buf.getD len 0 &&& 0x3F).toNat <<< 8) ||| (buf.getD (len + 1) 0).toNat, len + 2⟩
  else
    -- Indicate we have a fragment
    some ⟨true, (buf.getD len 0 &&& 0x3F).toNat <<< 14, len + 1⟩

/-- The octets `decode_length` reads lie below this. -/
def decodeLengthReads (len : ℕ) : ℕ :=
  if len ≥ buf.length then
    0
  else
    match decodeLengthAt buf len with
    | none => len + 1
    | some l => l.next

/-- The variables of `decode_open_type`, with `p_object[0]` as a place in
the datagram. -/
structure OpenType where
  octetIdx : ℕ
  object : Option ℕ
  numOctets : ℕ
  len : ℕ
  touched : List Touch

/-- The octets that the object shows. -/
def OpenType.octets (o : OpenType) : List UInt8 :=
  (buf.drop (o.object.getD 0)).take o.numOctets

/-- One round of `decode_open_type`, with what it returns if it does. -/
def decodeOpenTypeRound (pObject : ℕ → Touch) (o : OpenType) : OpenType × Option ℤ :=
  let o := { o with touched := o.touched ++ [.datagram (decodeLengthReads buf o.len)] }
  match decodeLengthAt buf o.len with
  -- `length` is unsigned and not below zero
  | none => (o, none)
  | some l =>
    let o := { o with len := l.next }
    let again := if l.fragment then none else some 0
    if l.value > 0 then
      let o := { o with numOctets := (o.numOctets + l.value) % 4294967296 }
      -- Make sure the buffer contains at least the number of bits requested
      if (o.len + l.value) % 4294967296 > buf.length then
        (o, some (-1))
      else
        ({ o with
          touched := o.touched ++ [pObject o.octetIdx]
          object := if o.octetIdx = 0 then some o.len else o.object
          len := (o.len + l.value) % 4294967296
          octetIdx := (o.octetIdx + l.value) % 4294967296 }, again)
    else
      (o, again)

/-- The rounds of `decode_open_type`. -/
def decodeOpenTypeRounds (pObject : ℕ → Touch) : ℕ → OpenType → Option (OpenType × ℤ)
  | 0, _ => none
  | fuel + 1, o =>
    match decodeOpenTypeRound buf pObject o with
    | (o, some ret) => some (o, ret)
    | (o, none) => decodeOpenTypeRounds pObject fuel o

/-- `decode_open_type` at the place `len`. -/
def decodeOpenTypeAt (pObject : ℕ → Touch) (fuel len : ℕ) : Option (OpenType × ℤ) :=
  decodeOpenTypeRounds buf pObject fuel ⟨0, none, 0, len, []⟩

/-! ## Secondary packets -/

/-- The secondary packets so far, as `bufs` and `lengths` show them. -/
structure Secondaries where
  bufs : List (List UInt8)
  len : ℕ
  touched : List Touch

/-- The loop over the secondary packets of one length; whether it came to
its end. -/
def decodeSecondaryAt (fuel : ℕ) : ℕ → Secondaries → Option (Secondaries × Bool)
  | 0, t => some (t, true)
  | left + 1, t => do
    let k := t.bufs.length
    let (o, stat1) ← decodeOpenTypeAt buf (fun i => .bufs (k + i)) fuel t.len
    let t := { t with len := o.len, touched := t.touched ++ .lengths k :: o.touched }
    if stat1 ≠ 0 then
      return (t, false)
    else
      decodeSecondaryAt fuel left { t with bufs := t.bufs ++ [o.octets buf] }

/-- The loop over the lengths: a fragment is followed by another. -/
def decodeSecondariesAt (fuel : ℕ) : ℕ → Secondaries → Option (Secondaries × Bool)
  | 0, _ => none
  | rounds + 1, t => do
    let t := { t with touched := t.touched ++ [.datagram (decodeLengthReads buf t.len)] }
    match decodeLengthAt buf t.len with
    | none => return (t, false)
    | some l =>
      let (t, whole) ← decodeSecondaryAt buf fuel l.value { t with len := l.next }
      if whole ∧ l.fragment then
        decodeSecondariesAt fuel rounds t
      else
        return (t, whole)

/-! ## FEC -/

/-- Decode the elements of FEC into a slot, from the `i`-th on; whether all
went well. -/
def decodeFecAt (fuel entries : ℕ) :
    ℕ → ℕ → UdptlFecRx → List Touch → Option (UdptlFecRx × List Touch × Bool)
  | 0, _, slot, touched => some (slot, touched, true)
  | left + 1, ptr, slot, touched => do
    let i := entries - (left + 1)
    let (o, stat1) ← decodeOpenTypeAt buf .data fuel ptr
    let slot := { slot with fecLen := Function.update slot.fecLen i o.numOctets }
    let touched := touched ++ .fecLen i :: o.touched
    if stat1 ≠ 0 then
      return (slot, touched, false)
    else if o.numOctets > localFaxMaxDatagram then
      return (slot, touched, false)
    else
      -- Save the new FEC data
      decodeFecAt fuel entries left o.len
        { slot with fec := Function.update slot.fec i (o.octets buf) }
        (touched ++ [.fec i, .fecOctets o.numOctets, .datagram (o.object.getD 0 + o.numOctets)])

/-- What the `m`-th FEC entry of the slot `l` makes the repair touch. -/
def repairTouches (l m : ℕ) (r : Repair) : List Touch :=
  let slot := r.1 l
  match fecGroup (mask (l + m)) slot.fecSpan slot.fecEntries with
  | none => []
  | some group =>
    if whichMissing r.1 group ≥ 0 then
      if slot.fecLen m > 0 then
        [.fecLen m, .fec m, .fecOctets (slot.fecLen m), .bufOctets (slot.fecLen m)]
      else
        [.fecLen m]
    else
      []

/-- The entries of the slot `l`, from the `m`-th on. -/
def repairEntriesAt (l : ℕ) : ℕ → ℕ → Repair × List Touch → Option (Repair × List Touch)
  | 0, _, r => some r
  | left + 1, m, r => do
    let next ← repairEntry l m r.1
    repairEntriesAt l left (m + 1) (next, r.2 ++ repairTouches l m r.1)

/-- See if we can reconstruct anything which is missing: `l` from `x` back
to `stop`. -/
def repairSlotsAt (stop : ℕ) : ℕ → ℕ → Repair × List Touch → Option (Repair × List Touch)
  | 0, l, r => if l ≠ stop then none else some r
  | fuel + 1, l, r =>
    if l ≠ stop then do
      let slot := r.1.1 l
      let r ← if slot.fecLen 0 ≤ 0 then pure r else repairEntriesAt l slot.fecEntries 0 r
      repairSlotsAt stop fuel (mask ((l : ℤ) - 1)) r
    else
      return r

/-! ## The packet -/

/-- Where `udptl_rx_packet` is: the session, the frames so far, and what it
touched. The frames are missing where it returns `-1`. -/
structure RxRun where
  rx : UdptlRx
  frames : Option (List T38Frame)
  touched : List Touch

/-- Secondary packet mode for error recovery, from `ptr` on. -/
def rxSecondaryAt (fuel : ℕ) (s : UdptlRx) (seqNo ptr : ℕ) : Option RxRun :=
  if seqNo > s.rxSeqNo then do
    -- We received a later packet than we expected, so we need to check if we can fill in the gap
    let (t, whole) ← decodeSecondariesAt buf fuel fuel ⟨[], ptr, []⟩
    if whole then
      return ⟨s, some (newFrames seqNo s.rxSeqNo t.bufs t.bufs.length), t.touched⟩
    else
      return ⟨s, none, t.touched⟩
  else
    return ⟨s, some [], []⟩

/-- FEC mode for error recovery, from `ptr` on. -/
def rxFecAt (fuel : ℕ) (s : UdptlRx) (seqNo : ℕ) (ifp : OpenType) (ptr : ℕ) : Option RxRun :=
  -- Our buffers cannot tolerate overlength IFP packets in FEC mode
  if ifp.numOctets > localFaxMaxDatagram then
    return ⟨s, none, []⟩
  else do
    -- Update any missed slots in the buffer
    let s := missSlots (seqNo - s.rxSeqNo) s
    let x := mask seqNo
    -- Save the new IFP packet
    let slot := { s.rx x with buf := ifp.octets buf, bufLen := ifp.numOctets }
    let touched := [.bufOctets ifp.numOctets, .datagram (ifp.object.getD 0 + ifp.numOctets)]
    if ptr + 2 > buf.length then
      return ⟨{ s with rx := Function.update s.rx x slot }, none, touched⟩
    else if buf.getD ptr 0 ≠ 1 then
      return ⟨{ s with rx := Function.update s.rx x slot }, none, touched ++ [.datagram (ptr + 1)]⟩
    else
      let span := (buf.getD (ptr + 1) 0).toNat
      let slot := { slot with fecSpan := span }
      let touched := touched ++ [.datagram (ptr + 2)]
      if ptr + 3 > buf.length then
        return ⟨{ s with rx := Function.update s.rx x slot }, none, touched⟩
      else
        let entries := (buf.getD (ptr + 2) 0).toNat
        let slot := { slot with fecEntries := entries }
        let touched := touched ++ [.datagram (ptr + 3)]
        -- Decode the elements
        let (slot, touched, whole) ←
          decodeFecAt buf fuel entries entries (ptr + 3) slot touched
        let s := { s with rx := Function.update s.rx x slot }
        if whole then
          let stop := mask ((x : ℤ) - (16 - (span : ℤ) * entries))
          let (r, touched) ←
            repairSlotsAt stop 16 x ((s.rx, Function.update (fun _ => false) x true), touched)
          return ⟨{ s with rx := r.1 },
            some (playRepaired r 15 (mask (x + 1)) ((seqNo : ℤ) - 15)), touched⟩
        else
          return ⟨s, none, touched⟩

/-- The end of `udptl_rx_packet`: the primary packet, and the number that
is expected next. -/
def playPrimary (seqNo : ℕ) (ifp : OpenType) (run : RxRun) : RxRun :=
  match run.frames with
  | none => run
  | some frames =>
    -- we may have already processed this packet from the error recovery information in a packet
    -- already received
    let frames := if seqNo ≥ run.rx.rxSeqNo then frames ++ [⟨seqNo, ifp.octets buf⟩] else frames
    ⟨{ run.rx with rxSeqNo := seqNo + 1 }, some frames,
      run.touched ++ (List.range frames.length).map .frame⟩

/-- `udptl_rx_packet` -/
def udptlRxPacketAt (fuel : ℕ) (s : UdptlRx) : Option RxRun :=
  -- Decode seq_number
  if 2 > buf.length then
    return ⟨s, none, []⟩
  else do
    let seqNo := ((buf.getD 0 0).toNat <<< 8) ||| (buf.getD 1 0).toNat
    -- Break out the primary packet
    let (ifp, stat1) ← decodeOpenTypeAt buf .ifp fuel 2
    let touched := .datagram 2 :: ifp.touched
    if stat1 ≠ 0 then
      return ⟨s, none, touched⟩
    -- Decode error_recovery
    else if ifp.len + 1 > buf.length then
      return ⟨s, none, touched⟩
    else
      let mode := buf.getD ifp.len 0
      let touched := touched ++ [.datagram (ifp.len + 1)]
      let run ←
        if mode &&& 0x80 = 0 then
          rxSecondaryAt buf fuel s seqNo (ifp.len + 1)
        else
          rxFecAt buf fuel s seqNo ifp (ifp.len + 1)
      return playPrimary buf seqNo ifp { run with touched := touched ++ run.touched }

end Udptl

end Trismedia
