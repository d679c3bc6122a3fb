import Trismedia.Isup.Reset
/-!
# A group reset of the other end

`handle_GRS_send_hwblock` of `channels/ss7/l4isup.c`: the circuits of the range
are gone through for those that are hardware blocked, then for the
acknowledgement, then to free them. The result `none` is a channel that is not
there, and is written to. Which circuit `cic_hunt` takes and what it leaves of
the idle list, and what `ss7_call` sends for a call that is moved, are
arguments; no message of `ss7_call` is a failure of it.
-/


namespace Trismedia

namespace Isup

namespace Group

open Mtp2 Isup.Union

/-! ## The status -/

/-- `param`, `i` and `mask`. -/
structure Marks where
  param : ℕ → Octet
  i : ℕ
  mask : ℕ

namespace Marks

/-- The range, and no circuit marked. -/
def start (range : ℕ) : Marks := ⟨fun j => if j = 0 then UInt8.ofNat range else 0, 1, 1⟩

/-- A circuit is marked. -/
def mark (m : Marks) : Marks :=
  { m with param := Function.update m.param m.i (m.param m.i ||| UInt8.ofNat m.mask) }

/-- The next circuit. -/
def next (m : Marks) : Marks :=
  let mask := m.mask <<< 1
  if mask = 0x100 then { m with i := m.i + 1, mask := 1 } else { m with mask := mask }

/-- The octets, the last padded with zero bits. -/
def octets (m : Marks) : List Octet :=
  (List.range (if m.mask ≠ 1 then m.i + 1 else m.i)).map m.param

end Marks

/-! ## The three loops -/

/-- What the first loop finds. -/
structure HwBlock where
  marks : Marks
  needHwBlock : Bool
  cgbMask : BitVec 32

/-- A round of the first loop. -/
def hwBlockRound (cic first : ℕ) (pvt : Pvt) (h : HwBlock) : HwBlock :=
  let h :=
    if pvt.blocked &&& blLh ≠ 0 then ⟨h.marks.mark, true, h.cgbMask ||| (1 <<< (cic - first))⟩ else h
  { h with marks := h.marks.next }

/-- The first loop; `none` is a circuit that is not equipped. -/
def hwBlockLoop (s : Circuits) (first : ℕ) : ℕ → ℕ → HwBlock → Option HwBlock
  | 0, _, h => some h
  | left + 1, cic, h =>
    match s.cicList cic with
    | none => none
    | some pvt =>
      if !pvt.equipped then none
      else hwBlockLoop s first left (cic + 1) (hwBlockRound cic first pvt h)

/-- What is left of `blocked`. -/
def unblocked (blocked : BitVec 32) : BitVec 32 := blocked &&& ~~~(blRm ||| blRh ||| blUnequipped)

/-- The second loop; `none` is a circuit that is not equipped. -/
def graLoop : ℕ → ℕ → Circuits → Marks → Circuits × Option Marks
  | 0, _, s, m => (s, some m)
  | left + 1, cic, s, m =>
    match s.cicList cic with
    | none => (s, none)
    | some pvt =>
      if !pvt.equipped then (s, none)
      else
        graLoop left (cic + 1) (s.modify cic fun pvt => { pvt with blocked := unblocked pvt.blocked })
          (if unblocked pvt.blocked &&& blLm ≠ 0 then m.mark else m).next

/-- What comes from outside where a call is moved. -/
structure Moves where
  cicHunt : Circuits → Option ℕ × List ℕ
  ss7Call : Circuits → ℕ → Option (List (List Octet))

/-- The call goes out on the circuit `newpvt`. -/
def Circuits.ss7Call (moves : Moves) (s : Circuits) (chan newpvt : ℕ) : Circuits :=
  match moves.ss7Call s newpvt with
  | none => (s.requestHangup (some chan)).freeCic newpvt
  | some msgs =>
    let s := { s with out := s.out ++ msgs.map Output.message }
    s.modify newpvt fun pvt => { pvt with state := .sentIam }.start .t7

/-- `reattempt_call` -/
def Circuits.reattemptCall (moves : Moves) (s : Circuits) (cic chan : ℕ) : Circuits :=
  let s := s.modify cic fun pvt => { pvt.clear [.t7] with owner := none }
  let hunted := moves.cicHunt s
  let s := { s with idleList := hunted.2 }
  let s :=
    match hunted.1 with
    | none => s.requestHangup (some chan)
    | some newpvt =>
      (s.modify newpvt fun pvt => { pvt with owner := some chan }).ss7Call moves chan newpvt
  s.freeCic cic

/-- A round of the third loop. -/
def freeRound (moves : Moves) (cic : ℕ) (s : Circuits) : Option Circuits :=
  (s.cicList cic).bind fun pvt =>
    match pvt.state with
    | .sentRel =>
      some ((s.modify cic (Pvt.clear [.t1, .t2, .t5, .t6, .t16, .t17, .t18, .t35])).freeCic cic)
    | .sentAcm => some ((s.modify cic (Pvt.clear [.t35])).freeCic cic)
    | .gotRel => some (s.freeCic cic)
    | .idle => some s
    | .sentIam => pvt.owner.map fun chan => s.reattemptCall moves cic chan
    | _ => pvt.owner.map fun chan => (s.requestHangup (some chan)).freeCic cic

/-- The third loop. -/
def freeLoop (moves : Moves) : ℕ → ℕ → Circuits → Option Circuits
  | 0, _, s => some s
  | left + 1, cic, s => (freeRound moves cic s).bind (freeLoop moves left (cic + 1))

/-! ## The handler -/

/-- The range of a group reset, one less than the number of circuits. -/
def grsRangeOf (grsMsg : Received) : ℕ := intAt grsMsg.union grsRange.base

/-- The blocking is sent. -/
def sendHwBlock (ls : Linkset) (grsMsg : Received) (hw : HwBlock) (s : Circuits) : Circuits :=
  let cic := grsMsg.header.cic
  let s := s.modify cic fun pvt => { pvt with cgbMask := hw.cgbMask }
  (s.enqueue (hwBlockMessage ls grsMsg.header.opc cic)).modify cic (Pvt.start .t18)

/-- **`handle_GRS_send_hwblock`** -/
def handleGrsSendHwblock (moves : Moves) (ls : Linkset) (s : Circuits) (grsMsg : Received) :
    Option Circuits :=
  let cic := grsMsg.header.cic
  let range := grsRangeOf grsMsg
  if !ls.grs then some s
  else if cic + range + 1 ≥ maxCic then some s
  else if range > 31 then some s
  else
    match hwBlockLoop s cic (range + 1) cic ⟨.start range, false, 0⟩ with
    | none => some s
    | some hw =>
      let s := if hw.needHwBlock then sendHwBlock ls grsMsg hw s else s
      let (s, marks) := graLoop (range + 1) cic s (.start range)
      match marks with
      | none => some s
      | some m =>
        (freeLoop moves (range + 1) cic s).map fun s =>
          s.enqueue (graMessage ls grsMsg.header.opc cic m.octets)

/-! ## What is asked of it -/

/-- A circuit of the range. -/
def Concerns (grsMsg : Received) (i : ℕ) : Prop :=
  grsMsg.header.cic ≤ i ∧ i < grsMsg.header.cic + (grsRangeOf grsMsg + 1)

/-- **The group resets that are discarded**: of a range that is too large, of a
circuit that is not equipped, and where there are no group resets, or not so
many circuits. -/
def GrsDiscarded (ls : Linkset) (s : Circuits) (grsMsg : Received) : Prop :=
  ls.grs = false ∨ maxCic ≤ grsMsg.header.cic + grsRangeOf grsMsg + 1 ∨ 31 < grsRangeOf grsMsg ∨
    ∃ i, Concerns grsMsg i ∧ s.equippedAt i = false

/-- A bit of `blocked`. -/
def Circuits.blockedAt (s : Circuits) (bit : BitVec 32) (i : ℕ) : Bool :=
  ((s.cicList i).map fun pvt => decide (pvt.blocked &&& bit ≠ 0)).getD false

/-- The circuit waits for the answer to a call of the channel `chan`, which is
moved. -/
def Moved (s : Circuits) (grsMsg : Received) (chan : ℕ) : Prop :=
  ∃ j pvt, Concerns grsMsg j ∧ s.cicList j = some pvt ∧ pvt.state = .sentIam ∧ pvt.owner = some chan

/-- **A circuit is freed**: it is idle and on the idle list, unless the hunt for
a call that was moved has taken circuits off it, or has taken this one. -/
def FreedAs (s : Circuits) (grsMsg : Received) (s' : Circuits) (i : ℕ) (pvt : Pvt) : Prop :=
  pvt.state = .idle ∧ pvt.owner = none ∧ (i ∈ s'.idleList ∨ ∃ chan, Moved s grsMsg chan) ∨
    pvt.state = .sentIam ∧ ∃ chan, Moved s grsMsg chan ∧ pvt.owner = some chan

/-- **What the other end reads** of a message: its type, its range, and which
circuits are marked. -/
def StatusRead (ls : Linkset) (grsMsg : Received) (typ : MsgType) (isMarked : ℕ → Bool)
    (msg : List Octet) : Prop :=
  ∃ r, received ls.variant msg = some r ∧ r.typ = typ ∧ r.header.cic = grsMsg.header.cic ∧
    rangeAt r.union (rangeStatus typ) = grsRangeOf grsMsg ∧
      ∀ k, k / 8 < (grsRangeOf grsMsg + 8) / 8 → marked (statusAt r.union (rangeStatus typ)) k =
        (decide (k < grsRangeOf grsMsg + 1) && isMarked (grsMsg.header.cic + k))

/-- What goes out while circuits are freed: calls that are moved have messages of
their own. -/
def OfCalls (moves : Moves) (mid : List Output) : Prop :=
  ∀ msg, .message msg ∈ mid → ∃ t newpvt msgs, moves.ss7Call t newpvt = some msgs ∧ msg ∈ msgs

/-- **A group reset that is obeyed.** -/
structure GrsObeyed (moves : Moves) (ls : Linkset) (s : Circuits) (grsMsg : Received)
    (s' : Circuits) : Prop where
  freed : ∀ i pvt, Concerns grsMsg i → s.cicList i = some pvt → pvt.state ≠ .idle →
    ∃ pvt', s'.cicList i = some pvt' ∧ FreedAs s grsMsg s' i pvt'
  sent : ∃ cgb mid gra, s'.out = s.out ++ (cgb.map .message ++ mid ++ [.message gra]) ∧
    OfCalls moves mid ∧ StatusRead ls grsMsg .gra (s.blockedAt blLm) gra ∧
      ((∃ i, Concerns grsMsg i ∧ s.blockedAt blLh i = true) →
        ∃ msg, cgb = [msg] ∧ StatusRead ls grsMsg .cgb (s.blockedAt blLh) msg) ∧
      ((¬∃ i, Concerns grsMsg i ∧ s.blockedAt blLh i = true) → cgb = [])

/-- **A group reset is answered**, wherever calls are moved to: it is discarded
and nothing is changed, or it is obeyed. -/
def GrsAnswered (ls : Linkset) (s : Circuits) (grsMsg : Received) : Prop :=
  ∀ moves, ∃ s', handleGrsSendHwblock moves ls s grsMsg = some s' ∧
    (GrsDiscarded ls s grsMsg ∧ s' = s ∨
      ¬GrsDiscarded ls s grsMsg ∧ GrsObeyed moves ls s grsMsg s')

/-- The states of a call, whose channel is asked to hang up, or whose call is
moved. -/
def ofCall (state : CircuitState) : Bool :=
  state ∉ [.sentRel, .sentAcm, .gotRel, .idle]

/-- **The group resets that can be obeyed**: of two circuits or more, none
hardware blocked, and each with its channel if it is in a call. -/
structure GrsFit (s : Circuits) (grsMsg : Received) : Prop where
  range_pos : 1 ≤ grsRangeOf grsMsg
  unblocked : ∀ i, Concerns grsMsg i → s.blockedAt blLh i = false
  owned : ∀ i pvt, Concerns grsMsg i → s.cicList i = some pvt → ofCall pvt.state = true →
    pvt.owner ≠ none

end Group

end Isup

end Trismedia
