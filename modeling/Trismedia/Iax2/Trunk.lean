import Trismedia.Iax.Fields
import Trismedia.Iax2.Timestamp
/-!
# Trunks

Voice of several calls to one peer goes in one frame. `iax2_trunk_queue` of
`channels/chan_iax2.c` appends an entry to what is kept for the peer,
`send_trunk` puts the headers in front, and `socket_process_meta` takes the
frame apart. With trunk timestamps an entry begins with a mini frame, without
them it has only a number and a length.

What is counted for the log is left out, and the peer is found.
-/


namespace Trismedia

namespace Iax2

open Iax

/-! ## The sender -/

/-- `DEFAULT_TRUNKDATA` -/
def defaultTrunkdata : ℕ := 640 * 10

/-- What is configured for trunks. `trunkmaxsize` is a positive `int`, an MTU
of 0 is none. -/
structure Trunking where
  timestamps : Bool
  trunkmaxsize : ℕ
  globalMaxTrunkMtu : ℕ
  trunkmaxsize_lt : trunkmaxsize < 2 ^ 31

/-- `struct iax2_trunk_peer`: `trunkdata` from behind the preface up to
`trunkdatalen`. -/
structure TrunkPeer where
  trunkdata : List CChar
  trunkdataalloc : ℕ

/-- A voice frame of the call `callno`. -/
structure TrunkFrame where
  callno : BitVec 15
  ts : ℕ
  payload : List CChar

/-- `sizeof(struct tris_iax2_meta_trunk_mini)`, or of
`tris_iax2_meta_trunk_entry` -/
def sizeofEntry (mini : Bool) : ℕ := if mini then 6 else 4

/-- The entry of a frame. -/
def TrunkFrame.entry (mini : Bool) (f : TrunkFrame) : List CChar :=
  let len := htons (BitVec.ofNat 16 f.payload.length)
  let callno := htons (f.callno.zeroExtend 16)
  (if mini then len ++ callno ++ htons (BitVec.ofNat 16 f.ts) else callno ++ len) ++ f.payload

/-- What `iax2_trunk_queue` does: it returns -1, it writes behind what is
allocated, or the entry is queued, and then there may be a frame sent. -/
inductive Queueing where
  | refused
  | overrun
  | queued (p : TrunkPeer) (sent : Option (List CChar))

/-- The sum that is compared to `trunkdataalloc` and to the MTU, an
`unsigned int`. -/
def TrunkPeer.need (p : TrunkPeer) (f : TrunkFrame) : ℕ :=
  (p.trunkdata.length + f.payload.length + 4) % 2 ^ 32

/-- `send_trunk` at a time that makes the timestamp `ts`. -/
def sendTrunk (c : Trunking) (p : TrunkPeer) (ts : BitVec 32) : TrunkPeer × Option (List CChar) :=
  if p.trunkdata = [] then (p, none)
  else
    ({ p with trunkdata := [] },
      some ([0, 0, 1, if c.timestamps then 1 else 0] ++ htonl ts ++ p.trunkdata))

/-- The space `iax2_trunk_queue` works with; `grown` is whether the memory for
more is there. -/
def makeSpace (c : Trunking) (p : TrunkPeer) (f : TrunkFrame) (grown : Bool) : Option TrunkPeer :=
  if p.need f ≥ p.trunkdataalloc then
    if p.trunkdataalloc < c.trunkmaxsize then
      if grown then some { p with trunkdataalloc := p.trunkdataalloc + defaultTrunkdata } else none
    else none
  else some p

/-- `iax2_trunk_queue` -/
def iax2TrunkQueue (c : Trunking) (p : TrunkPeer) (f : TrunkFrame) (grown : Bool)
    (ts : BitVec 32) : Queueing :=
  match makeSpace c p f grown with
  | none => .refused
  | some p =>
    let entry := f.entry c.timestamps
    if p.trunkdata.length + entry.length > p.trunkdataalloc then .overrun
    else
      let p := { p with trunkdata := p.trunkdata ++ entry }
      if c.globalMaxTrunkMtu > 0 ∧ p.need f ≥ c.globalMaxTrunkMtu then
        .queued (sendTrunk c p ts).1 (sendTrunk c p ts).2
      else .queued p none

/-! ## The receiver -/

/-- A frame passed on to the call `callno`. -/
structure Delivery where
  callno : ℕ
  subclass : ℕ
  ts : ℕ
  payload : List CChar
  deriving DecidableEq

/-- What `socket_process_meta` does: it reads `n` octets from `o` on, asks the
peer for a full frame, or passes a frame on. -/
inductive MetaAct where
  | reads (o n : ℕ)
  | vnak (callno : ℕ)
  | delivers (d : Delivery)
  deriving DecidableEq

/-- Its acts, and the calls it leaves. -/
structure MetaRun where
  acts : List MetaAct
  iaxs : ℕ → Option Rx

/-- A run with some acts before it. -/
def MetaRun.after (r : MetaRun) (acts : List MetaAct) : MetaRun := { r with acts := acts ++ r.acts }

/-- What the receiver has at hand: `find_callno_locked` on the numbers of this
peer, 0 for none, `fix_peerts` for a call and a timestamp, and the memory with
the packet. -/
structure Receiver where
  findCallno : BitVec 15 → ℕ
  fixPeerts : ℕ → ℕ → ℕ
  mem : ℕ → CChar

/-- `len`, `callno` without the flag, and `trunked_ts` of an entry. -/
def readEntry (mem : ℕ → CChar) (mini : Bool) (ptr : ℕ) : ℕ × BitVec 15 × ℕ :=
  if mini then
    (ntoh (octets mem ptr 2), BitVec.ofNat 15 (ntoh (octets mem (ptr + 2) 2)),
      ntoh (octets mem (ptr + 4) 2))
  else (ntoh (octets mem (ptr + 2) 2), BitVec.ofNat 15 (ntoh (octets mem ptr 2)), 0)

/-- An entry of the call `callno` with `len` octets at `ptr`. -/
def metaVoice (r : Receiver) (iaxs : ℕ → Option Rx) (ts callno trunkedTs ptr len : ℕ) : MetaRun :=
  match iaxs callno with
  | none => ⟨[], iaxs⟩
  | some p =>
    if p.voiceformat = 0 then ⟨[.vnak callno], iaxs⟩
    else
      let frTs :=
        if trunkedTs ≠ 0 then upper 16 p.last + lower 16 trunkedTs else r.fixPeerts callno ts
      match deliver p false frTs with
      | (_, none) => ⟨[], iaxs⟩
      | (p', some frTs) =>
        ⟨[.reads ptr len, .delivers ⟨callno, p.voiceformat, frTs, octets r.mem ptr len⟩],
          Function.update iaxs callno (some p')⟩

/-- The loop of `socket_process_meta` for one of the two formats. The loop
compares `packet_len` as a `size_t`. -/
def metaLoop (r : Receiver) (mini : Bool) (ts ptr : ℕ) (packetLen : ℤ) (iaxs : ℕ → Option Rx) :
    MetaRun :=
  if 0 ≤ packetLen ∧ packetLen < 4 then ⟨[], iaxs⟩
  else
    let size := sizeofEntry mini
    let (len, callno, trunkedTs) := readEntry r.mem mini ptr
    if len > packetLen - size then ⟨[.reads ptr size], iaxs⟩
    else if r.findCallno callno = 0 then
      (metaLoop r mini ts (ptr + size) (packetLen - size) iaxs).after [.reads ptr size]
    else
      let v := metaVoice r iaxs ts (r.findCallno callno) trunkedTs (ptr + size) len
      (metaLoop r mini ts (ptr + size + len) (packetLen - size - len) v.iaxs).after
        (.reads ptr size :: v.acts)
  termination_by packetLen.toNat
  decreasing_by
  all_goals
    have hsize : 4 ≤ sizeofEntry mini := by cases mini <;> decide
    omega

/-- `socket_process_meta` -/
def socketProcessMeta (r : Receiver) (packetLen : ℕ) (iaxs : ℕ → Option Rx) : MetaRun :=
  if packetLen < 4 then ⟨[], iaxs⟩
  else if r.mem 2 ≠ 1 then ⟨[.reads 0 4], iaxs⟩
  else if packetLen < 8 then ⟨[.reads 0 4], iaxs⟩
  else
    let ts := ntoh (octets r.mem 4 4)
    (if r.mem 3 = 1 then metaLoop r true ts 8 (packetLen - 8) iaxs
      else if r.mem 3 = 0 then metaLoop r false ts 8 (packetLen - 8) iaxs
      else ⟨[], iaxs⟩).after [.reads 0 4, .reads 4 4]

/-- The frames passed on. -/
def MetaRun.deliveries (run : MetaRun) : List Delivery :=
  run.acts.filterMap fun
    | .delivers d => some d
    | _ => none

/-- **Only the packet is read.** -/
def MetaRun.Inside (run : MetaRun) (packetLen : ℕ) : Prop :=
  ∀ o n, .reads o n ∈ run.acts → o + n ≤ packetLen

/-! ## Runs -/

/-- A peer with the frames queued since the last trunk frame, and the trunk
frames sent, each with the frames in it. -/
structure Trunk where
  peer : TrunkPeer
  pending : List TrunkFrame
  sent : List (List TrunkFrame × List CChar)

/-- A peer just created. -/
def Trunk.init : Trunk := ⟨⟨[], 0⟩, [], []⟩

/-- What happens: a frame is queued, or the timer expires; with the timestamp
of a trunk frame sent. -/
inductive TrunkEvent where
  | queue (f : TrunkFrame) (grown : Bool) (ts : BitVec 32)
  | timer (ts : BitVec 32)

/-- What is known after the peer may have sent. -/
def Trunk.record (t : Trunk) (p : TrunkPeer) : Option (List CChar) → Trunk
  | none => { t with peer := p }
  | some octets => ⟨p, [], t.sent ++ [(t.pending, octets)]⟩

/-- One event; `none` if something is written behind what is allocated. -/
def Trunk.step (c : Trunking) (t : Trunk) : TrunkEvent → Option Trunk
  | .queue f grown ts =>
    match iax2TrunkQueue c t.peer f grown ts with
    | .refused => some t
    | .overrun => none
    | .queued p sent => some ({ t with pending := t.pending ++ [f] }.record p sent)
  | .timer ts => some (t.record (sendTrunk c t.peer ts).1 (sendTrunk c t.peer ts).2)

/-- A run of events. -/
def Trunk.run (c : Trunking) (evs : List TrunkEvent) : Option Trunk := evs.foldlM (Trunk.step c) .init

end Iax2

end Trismedia
