import Trismedia.Isup.Call
import Trismedia.Isup.Hunt
import Trismedia.Isup.Received
/-!
# Messages for a group of circuits

The circuits of a linkset by their numbers, and what `channels/ss7/l4isup.c`
does with the messages that block, unblock and acknowledge several of them:
`process_gra`, `process_cgb`, `process_cga`, `process_cua` and `process_cgu`.
The result `none` is an access behind the end of `cic_list`. The idle list is
the list of its circuits, a timer runs or does not, and what is logged is left
out.
-/


namespace Trismedia

namespace Isup

namespace Group

open Mtp2 Isup.Union

/-! ## Circuits -/

/-- `MAX_CIC` -/
def maxCic : ℕ := 4096

/-- The timers of a circuit that are started or cleared here. -/
inductive Timer where
  | t1
  | t2
  | t5
  | t6
  | t7
  | t9
  | t16
  | t17
  | t18
  | t19
  | t20
  | t21
  | t22
  | t23
  | t35
  deriving DecidableEq

/-- What of a `struct ss7_chan` is read and written here. -/
structure Pvt where
  owner : Option ℕ
  equipped : Bool
  resetDone : Bool
  blocked : BitVec 32
  state : CircuitState
  grsCount : ℤ
  cgbMask : BitVec 32
  running : Timer → Bool

/-- `t18_clear` and the like. -/
def Pvt.clear (ts : List Timer) (pvt : Pvt) : Pvt :=
  { pvt with running := fun t => if t ∈ ts then false else pvt.running t }

/-- `t18_start` and the like. -/
def Pvt.start (t : Timer) (pvt : Pvt) : Pvt :=
  { pvt with running := Function.update pvt.running t true }

/-- What of a `struct linkset` is set by the configuration. Point codes fit the
label, circuit numbers the list. -/
structure Linkset where
  variant : Ss7Variant
  opc : ℕ
  dpc : ℕ
  grs : Bool
  firstCic : ℕ
  lastCic : ℕ
  opc_lt : opc < 2 ^ (if variant = .itu then 14 else 24)
  dpc_lt : dpc < 2 ^ (if variant = .itu then 14 else 24)
  lastCic_lt : lastCic < maxCic

/-- What goes out: a message is queued for a circuit, or a channel is asked to
hang up. -/
inductive Output where
  | message (msg : List Octet)
  | hangup (chan : ℕ)
  deriving DecidableEq

/-- The circuits, the idle list, and what has gone out. -/
structure Circuits where
  cicList : ℕ → Option Pvt
  idleList : List ℕ
  out : List Output

namespace Circuits

/-- A circuit is written to. -/
def modify (s : Circuits) (cic : ℕ) (f : Pvt → Pvt) : Circuits :=
  { s with cicList := Function.update s.cicList cic ((s.cicList cic).map f) }

/-- `mtp_enqueue_isup` -/
def enqueue (s : Circuits) (msg : List Octet) : Circuits := { s with out := s.out ++ [.message msg] }

/-- `request_hangup`, of a channel that is there. -/
def requestHangup (s : Circuits) : Option ℕ → Circuits
  | none => s
  | some chan => { s with out := s.out ++ [.hangup chan] }

/-- `add_to_idlelist` -/
def addToIdlelist (s : Circuits) (cic : ℕ) : Circuits :=
  if cic ∈ s.idleList then s else { s with idleList := cic :: s.idleList }

/-- `release_circuit` -/
def releaseCircuit (s : Circuits) (cic : ℕ) : Circuits :=
  match s.cicList cic with
  | none => s
  | some pvt =>
    let s :=
      if pvt.state ≠ .idle then
        (s.modify cic fun pvt => { pvt with state := .idle }).requestHangup pvt.owner
      else s
    s.modify cic (Pvt.clear [.t1, .t2, .t5, .t6, .t7, .t9, .t16, .t17, .t18, .t19, .t20, .t21, .t35])

/-- `free_cic` -/
def freeCic (s : Circuits) (cic : ℕ) : Circuits :=
  (s.modify cic fun pvt => { pvt with state := .idle, owner := none }).addToIdlelist cic

/-- `linkset->cic_list[cic]` -/
def lookup (s : Circuits) (cic : ℕ) : Option (Option Pvt) :=
  if cic < maxCic then some (s.cicList cic) else none

end Circuits

/-! ## Ranges of circuits -/

/-- An `int` of the union. -/
def intAt (m : ℕ → Octet) (address : ℕ) : ℕ :=
  (m address).toNat + 2 ^ 8 * ((m (address + 1)).toNat + 2 ^ 8 * ((m (address + 2)).toNat +
    2 ^ 8 * (m (address + 3)).toNat))

/-- `range` and `status` of a `struct isup_range_and_status`. -/
def rangeAt (m : ℕ → Octet) (rangeStatus : ℕ) : ℕ := intAt m rangeStatus

def statusAt (m : ℕ → Octet) (rangeStatus : ℕ) (j : ℕ) : Octet := m (rangeStatus + 4 + j)

/-- The loop over the circuits of a range, from `i` on with `left` of them to
go, with a mask that goes through the octets of the status. -/
def forCircuits {σ : Type*} (status : ℕ → Octet) (body : ℕ → Bool → σ → Option σ) :
    ℕ → ℕ → ℕ → ℕ → σ → Option σ
  | 0, _, _, _, s => some s
  | left + 1, i, j, mask, s =>
    (body i ((status j).toNat &&& mask ≠ 0) s).bind fun s =>
      let mask := mask <<< 1
      if mask = 0x100 then forCircuits status body left (i + 1) (j + 1) 1 s
      else forCircuits status body left (i + 1) j mask s

/-- How many circuits of a range are marked. -/
def countMarked (status : ℕ → Octet) (range : ℕ) : ℕ :=
  (List.range (range + 1)).countP fun j => (status (j / 8)).toNat &&& (1 <<< (j % 8)) ≠ 0

/-! ## The handlers -/

/-- The circuits and the linkset of a handler. `none` as the second is a message
that is discarded. -/
abbrev Handled : Type := Option (Option Circuits)

/-- The body of the loop of `process_gra`. -/
def graBody (i : ℕ) (isMarked : Bool) (s : Circuits) : Option Circuits :=
  (s.lookup i).map fun _ =>
    s.modify i fun pvt =>
      let pvt := { pvt with blocked := pvt.blocked &&& ~~~(blUnequipped ||| blLh ||| blRh) }
      if pvt.resetDone then pvt
      else
        { pvt with
          blocked := if isMarked then pvt.blocked ||| blRm else pvt.blocked
          resetDone := true }

/-- `process_gra` -/
def processGra (s : Circuits) (inmsg : Received) : Handled :=
  let cic := inmsg.header.cic
  let range := rangeAt inmsg.union graRangeStatus.base
  if cic ≥ maxCic then some none
  else
    let s := s.modify cic fun pvt => { pvt.clear [.t22, .t23] with grsCount := -1 }
    (forCircuits (statusAt inmsg.union graRangeStatus.base) graBody (range + 1) cic 0 1 s).map some

/-- The checks of the other handlers: a range that is out of range, or one with
too many circuits marked. -/
def groupRefused (cic range : ℕ) (status : ℕ → Octet) : Bool :=
  range < 1 ∨ range > 255 ∨ cic + range + 1 ≥ maxCic ∨ countMarked status range > 32

/-- The reply to a blocking or an unblocking. -/
def groupReply (ls : Linkset) (typ : MsgType) (inmsg : Received) (range : ℕ) (cgsmti : ℕ)
    (status : ℕ → Octet) : List Octet :=
  let b := isupMsgInit mtpMaxPckSize ls.variant ls.opc inmsg.header.opc inmsg.header.cic typ.code
    ⟨[], 0⟩
  let b := isupMsgAddFixed mtpMaxPckSize b [UInt8.ofNat cgsmti]
  let b := isupMsgStartVariablePart mtpMaxPckSize b 1 false
  (isupMsgAddVariable mtpMaxPckSize b
    (UInt8.ofNat range :: (List.range ((range + 8) / 8)).map status)).buf

/-- The bit that a blocking of the other end is about. -/
def remoteMask : ℕ → Option (BitVec 32)
  | 0 => some blRm
  | 1 => some blRh
  | _ => none

/-- The bit that its acknowledgement of ours is about. -/
def localMask : ℕ → Option (BitVec 32)
  | 0 => some blLm
  | 1 => some blLh
  | _ => none

/-- A message is discarded by the checks, or for a type of blocking that is not
implemented. -/
def checked (mask : Option (BitVec 32)) (refused : Bool) (handle : BitVec 32 → Handled) : Handled :=
  match mask with
  | none => some none
  | some blockmask => if refused then some none else handle blockmask

/-- The body of the loop of `process_cgb`. -/
def cgbBody (blockmask : BitVec 32) (i : ℕ) (isMarked : Bool) (s : Circuits) : Option Circuits :=
  if isMarked then
    (s.lookup i).map fun found =>
      match found with
      | none => s
      | some pvt =>
        if !pvt.equipped then s
        else
          let s := s.modify i fun pvt => { pvt with blocked := pvt.blocked ||| blockmask }
          if pvt.state = .sentIam then
            ((s.requestHangup pvt.owner).releaseCircuit i).freeCic i
          else s
  else some s

/-- `process_cgb` -/
def processCgb (ls : Linkset) (s : Circuits) (inmsg : Received) : Handled :=
  let cic := inmsg.header.cic
  let range := rangeAt inmsg.union cgbRangeStatus.base
  let status := statusAt inmsg.union cgbRangeStatus.base
  let cgsmti := intAt inmsg.union cgbCgsmti.base
  checked (remoteMask cgsmti) (groupRefused cic range status) fun blockmask =>
    (forCircuits status (cgbBody blockmask) (range + 1) cic 0 1 s).map fun s =>
      some (s.enqueue (groupReply ls .cga inmsg range cgsmti status))

/-- The body of the loop of `process_cgu`. -/
def cguBody (blockmask : BitVec 32) (i : ℕ) (isMarked : Bool) (s : Circuits) : Option Circuits :=
  if isMarked then
    (s.lookup i).map fun found =>
      match found with
      | none => s
      | some pvt =>
        if !pvt.equipped then s
        else s.modify i fun pvt => { pvt with blocked := pvt.blocked &&& ~~~blockmask }
  else some s

/-- `process_cgu` -/
def processCgu (ls : Linkset) (s : Circuits) (inmsg : Received) : Handled :=
  let cic := inmsg.header.cic
  let range := rangeAt inmsg.union cguRangeStatus.base
  let status := statusAt inmsg.union cguRangeStatus.base
  let cgsmti := intAt inmsg.union cguCgsmti.base
  checked (remoteMask cgsmti) (groupRefused cic range status) fun blockmask =>
    (forCircuits status (cguBody blockmask) (range + 1) cic 0 1 s).map fun s =>
      some (s.enqueue (groupReply ls .cua inmsg range cgsmti status))

/-- The body of the loops of `process_cga` and `process_cua`. -/
def ackBody (change : BitVec 32 → BitVec 32) (i : ℕ) (isMarked : Bool) (s : Circuits) :
    Option Circuits :=
  if isMarked then
    (s.lookup i).map fun _ => s.modify i fun pvt => { pvt with blocked := change pvt.blocked }
  else some s

/-- What `process_cga` and `process_cua` share: `change` is what they do to
`blocked`, and they clear two timers. -/
def processAck (change : BitVec 32 → BitVec 32 → BitVec 32) (ts : List Timer) (s : Circuits)
    (inmsg : Received) : Handled :=
  let cic := inmsg.header.cic
  let range := rangeAt inmsg.union cgbRangeStatus.base
  let status := statusAt inmsg.union cgbRangeStatus.base
  checked (localMask (intAt inmsg.union cgbCgsmti.base)) (groupRefused cic range status) fun blockmask =>
    (forCircuits status (ackBody (change · blockmask)) (range + 1) cic 0 1 s).map fun s =>
      some (s.modify cic (Pvt.clear ts))

/-- `process_cga` -/
def processCga : Circuits → Received → Handled := processAck (· ||| ·) [.t18, .t19]

/-- `process_cua` -/
def processCua : Circuits → Received → Handled := processAck (fun b m => b &&& ~~~m) [.t20, .t21]

/-- The handler for a type in `process_isup_message`. -/
def groupHandler (ls : Linkset) (s : Circuits) (inmsg : Received) : Handled :=
  match inmsg.typ with
  | .gra => processGra s inmsg
  | .cgb => processCgb ls s inmsg
  | .cgu => processCgu ls s inmsg
  | .cga => processCga s inmsg
  | .cua => processCua s inmsg
  | _ => some none

/-- `process_circuit_group_message` behind `isup_event_handler`: the circuit has
to be there, and to be equipped and reset for some of the messages. -/
def processGroupMessage (ls : Linkset) (s : Circuits) (inmsg : Received) : Handled :=
  match s.cicList inmsg.header.cic with
  | none => some none
  | some pvt =>
    if !(pvt.equipped || inmsg.typ = .cga || inmsg.typ = .cua || inmsg.typ = .gra) then some none
    else if !pvt.resetDone && pvt.equipped && inmsg.typ ≠ .gra then some none
    else groupHandler ls s inmsg

end Group

end Isup

end Trismedia
