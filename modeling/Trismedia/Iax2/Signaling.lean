import Mathlib.Data.Int.Notation
import Mathlib.Data.List.Basic
/-!
# Signalling that is held

Frames of an outgoing call other than those of IAX are held until the other end
has answered with its call number: `queue_signalling`, `send_signaling` and
`__send_command` of `channels/chan_iax2.c`. What `iax2_send` is given is
appended to what was sent. The result `none` is memory that is freed and was
never allocated. There is memory for the copies.
-/


namespace Trismedia

namespace Iax2

namespace Signaling

/-! ## The code -/

/-- `enum tris_frame_type` -/
inductive FrameType where
  | dtmfEnd
  | voice
  | video
  | control
  | null
  | iax
  | text
  | image
  | html
  | cng
  | modem
  | dtmfBegin
  deriving DecidableEq

/-- What `__send_command` sets in a `struct tris_frame`. The octets are those at
`data.ptr`, and `none` is `NULL`. -/
structure Frame where
  frametype : FrameType
  subclass : ℤ
  datalen : ℕ
  data : Option (List UInt8)
  datalen_le : datalen ≤ (data.getD []).length

/-- A frame as it is sent. -/
structure Sent where
  frametype : FrameType
  subclass : ℤ
  datalen : ℕ
  payload : List UInt8
  deriving DecidableEq

/-- A `struct signaling_queue_entry`; `copied` is whether its data was
allocated. -/
structure QueueEntry where
  f : Frame
  copied : Bool

/-- What of a `struct chan_iax2_pvt` is read and written, and what was sent. -/
structure ChanPvt where
  holdSignaling : Bool
  signalingQueue : List QueueEntry
  sent : List Sent

/-- The frame as `iax2_send` sends it. -/
def Frame.wire (f : Frame) : Sent := ⟨f.frametype, f.subclass, f.datalen, (f.data.getD []).take f.datalen⟩

/-- `iax2_send` -/
def iax2Send (pvt : ChanPvt) (f : Frame) : ChanPvt := { pvt with sent := pvt.sent ++ [f.wire] }

/-- The octets behind `tris_calloc` and `memcpy`: the size of what a `void *`
points to is 1. -/
def copyOf (datalen : ℕ) (octets : List UInt8) : List UInt8 :=
  octets.take 1 ++ List.replicate (datalen - 1) 0

/-- The copy of a frame. -/
def newEntry (f : Frame) : QueueEntry :=
  if h : f.datalen ≠ 0 then
    { f := { f with
        data := some (copyOf f.datalen (f.data.getD []))
        datalen_le := by
          have hlen := f.datalen_le
          rw [Option.getD_some, copyOf, List.length_append, List.length_take, List.length_replicate]
          omega }
      copied := true }
  else { f := f, copied := false }

/-- `queue_signalling` -/
def queueSignalling (pvt : ChanPvt) (f : Frame) : ℤ × ChanPvt :=
  if f.frametype = .iax ∨ pvt.holdSignaling = false then (1, pvt)
  else (0, { pvt with signalingQueue := pvt.signalingQueue ++ [newEntry f] })

/-- `__send_command` -/
def sendCommand (pvt : ChanPvt) (f : Frame) : ChanPvt :=
  let res := queueSignalling pvt f
  if res.1 ≤ 0 then res.2 else iax2Send res.2 f

/-- `free_signaling_queue_entry` -/
def freeSignalingQueueEntry (s : QueueEntry) : Option Unit :=
  if s.f.data = none ∨ s.copied then some () else none

/-- The loop of `send_signaling`. -/
def sendQueued : List QueueEntry → ChanPvt → Option ChanPvt
  | [], pvt => some pvt
  | s :: queue, pvt =>
    let pvt := iax2Send { pvt with signalingQueue := queue } s.f
    (freeSignalingQueueEntry s).bind fun _ => sendQueued queue pvt

/-- `send_signaling` -/
def sendSignaling (pvt : ChanPvt) : Option ChanPvt :=
  (sendQueued pvt.signalingQueue pvt).map fun pvt => { pvt with holdSignaling := false }

/-- `IAX_COMMAND_CALLTOKEN` -/
def iaxCommandCalltoken : ℤ := 40

/-- A command is sent, or `socket_process` has a full frame of the other end. -/
inductive Event where
  | command (f : Frame)
  | received (frametype : FrameType) (subclass : ℤ)

/-- The first full frame of IAX that is not about call tokens. -/
def Event.releases : Event → Bool
  | command _ => false
  | received frametype subclass => frametype = .iax ∧ subclass ≠ iaxCommandCalltoken

def step (pvt : ChanPvt) : Event → Option ChanPvt
  | .command f => some (sendCommand pvt f)
  | .received frametype subclass =>
    if frametype = .iax ∧ subclass ≠ iaxCommandCalltoken ∧ pvt.holdSignaling = true then
      sendSignaling pvt
    else some pvt

/-! ## What is asked of it -/

/-- The frames of IAX of some events, and the others, which are held. -/
def iaxFrames (events : List Event) : List Frame :=
  events.filterMap fun e =>
    match e with
    | .command f => if f.frametype = .iax then some f else none
    | .received _ _ => none

def heldFrames (events : List Event) : List Frame :=
  events.filterMap fun e =>
    match e with
    | .command f => if f.frametype = .iax then none else some f
    | .received _ _ => none

/-- **What is held is sent** when the other end answers after some events: the
frames that were written, in their order and as they were, and none before; and
the frames that come later are sent at once. -/
def Released (pvt : ChanPvt) (events : List Event) : Prop :=
  ∃ held released, events.foldlM step pvt = some held ∧
    held.sent = pvt.sent ++ (iaxFrames events).map Frame.wire ∧
      (∀ subclass, subclass ≠ iaxCommandCalltoken →
        step held (.received .iax subclass) = some released) ∧
      released.sent = held.sent ++ (heldFrames events).map Frame.wire ∧
      ∀ f, sendCommand released f = { released with sent := released.sent ++ [f.wire] }

/-- **A frame that is copied whole**: behind the first octet there are zeros
only, and one without octets has no data to be freed. -/
structure CopiedWhole (f : Frame) : Prop where
  zeros : ∀ o ∈ ((f.data.getD []).take f.datalen).drop 1, o = 0
  null : f.datalen = 0 → f.data = none

/-! ## A copy -/

variable {pvt : ChanPvt} {f : Frame} {events : List Event} {queue : List QueueEntry}

theorem copyOf_take {n : ℕ} {octets : List UInt8} (hpos : 1 ≤ n) (hle : n ≤ octets.length) :
    (copyOf n octets).take n = octets.take n ↔ ∀ o ∈ (octets.take n).drop 1, o = 0 := by
  obtain ⟨k, rfl⟩ : ∃ k, n = k + 1 := ⟨n - 1, by omega⟩
  rcases octets with _ | ⟨a, rest⟩
  · exact absurd hle (Nat.not_succ_le_zero k)
  · have hlength : (rest.take k).length = k := by
      rw [List.length_take]
      exact Nat.min_eq_left (Nat.le_of_succ_le_succ hle)
    show a :: (List.replicate k 0).take k = a :: rest.take k ↔ ∀ o ∈ rest.take k, o = 0
    rw [List.take_replicate, Nat.min_self, List.cons_inj_right, eq_comm, List.eq_replicate_iff]
    exact and_iff_right hlength

/-- **The copy is sent as the frame** if behind its first octet there are zeros
only. -/
theorem newEntry_wire : (newEntry f).f.wire = f.wire ↔
    ∀ o ∈ ((f.data.getD []).take f.datalen).drop 1, o = 0 := by
  unfold newEntry
  by_cases hpos : f.datalen ≠ 0
  · rw [dif_pos hpos, ← copyOf_take (Nat.one_le_iff_ne_zero.2 hpos) f.datalen_le]
    unfold Frame.wire
    rw [Sent.mk.injEq]
    simp only [true_and, Option.getD_some]
  · rw [dif_neg hpos]
    have hzero : f.datalen = 0 := not_not.1 hpos
    refine ⟨fun _ o ho => ?_, fun _ => rfl⟩
    rw [hzero, List.take_zero] at ho
    exact absurd ho List.not_mem_nil

/-- What is freed with it was allocated. -/
theorem freeSignalingQueueEntry_newEntry :
    freeSignalingQueueEntry (newEntry f) = some () ↔ (f.datalen = 0 → f.data = none) := by
  unfold freeSignalingQueueEntry newEntry
  by_cases hpos : f.datalen ≠ 0
  · rw [dif_pos hpos, if_pos (Or.inr rfl)]
    exact ⟨fun _ h => absurd h hpos, fun _ => rfl⟩
  · rw [dif_neg hpos]
    dsimp only
    by_cases hnull : f.data = none
    · rw [if_pos (Or.inl hnull)]
      exact ⟨fun _ _ => hnull, fun _ => rfl⟩
    · rw [if_neg (fun h => h.elim hnull Bool.false_ne_true)]
      exact ⟨fun h => absurd h (Option.some_ne_none _).symm,
        fun h => absurd (h (not_not.1 hpos)) hnull⟩

/-! ## Holding -/

theorem sendCommand_sent (h : f.frametype = .iax ∨ pvt.holdSignaling = false) :
    sendCommand pvt f = { pvt with sent := pvt.sent ++ [f.wire] } := by
  have hres : queueSignalling pvt f = (1, pvt) := if_pos h
  unfold sendCommand
  dsimp only
  rw [hres, if_neg (show ¬(1 : ℤ) ≤ 0 by omega)]
  rfl

theorem sendCommand_held (h : ¬f.frametype = .iax) (hhold : pvt.holdSignaling = true) :
    sendCommand pvt f = { pvt with signalingQueue := pvt.signalingQueue ++ [newEntry f] } := by
  have hres : queueSignalling pvt f =
      (0, { pvt with signalingQueue := pvt.signalingQueue ++ [newEntry f] }) :=
    if_neg fun hor => hor.elim h fun hfalse => Bool.false_ne_true (hfalse.symm.trans hhold)
  unfold sendCommand
  dsimp only
  rw [hres, if_pos (show (0 : ℤ) ≤ 0 by omega)]

/-- **Some events that release nothing**: the frames of IAX are sent, and the
others are held. -/
theorem held_run (hhold : pvt.holdSignaling = true) (hnot : ∀ e ∈ events, e.releases = false) :
    events.foldlM step pvt = some
      { holdSignaling := true
        signalingQueue := pvt.signalingQueue ++ (heldFrames events).map newEntry
        sent := pvt.sent ++ (iaxFrames events).map Frame.wire } := by
  induction events generalizing pvt with
  | nil =>
    show some pvt = _
    rw [heldFrames, iaxFrames, List.filterMap_nil, List.filterMap_nil, List.map_nil, List.map_nil,
      List.append_nil, List.append_nil, ← hhold]
  | cons e events ih =>
    obtain ⟨he, hrest⟩ := List.forall_mem_cons.1 hnot
    rw [List.foldlM_cons]
    cases e with
    | command f =>
      show events.foldlM step (sendCommand pvt f) = _
      by_cases hiax : f.frametype = .iax
      · have hheld : heldFrames (.command f :: events) = heldFrames events :=
          List.filterMap_cons_none (if_pos hiax)
        have hsent : iaxFrames (.command f :: events) = f :: iaxFrames events :=
          List.filterMap_cons_some (if_pos hiax)
        rw [sendCommand_sent (Or.inl hiax),
          @ih { pvt with sent := pvt.sent ++ [f.wire] } hhold hrest, hheld, hsent, List.map_cons,
          List.append_assoc, List.singleton_append]
      · have hheld : heldFrames (.command f :: events) = f :: heldFrames events :=
          List.filterMap_cons_some (if_neg hiax)
        have hsent : iaxFrames (.command f :: events) = iaxFrames events :=
          List.filterMap_cons_none (if_neg hiax)
        rw [sendCommand_held hiax hhold,
          @ih { pvt with signalingQueue := pvt.signalingQueue ++ [newEntry f] } hhold hrest, hheld, hsent, List.map_cons,
          List.append_assoc, List.singleton_append]
    | received frametype subclass =>
      have hstep : step pvt (.received frametype subclass) = some pvt := by
        unfold step
        dsimp only
        rw [if_neg]
        rintro ⟨htype, hsub, -⟩
        exact absurd he (by rw [Event.releases, decide_eq_true ⟨htype, hsub⟩]; exact Bool.noConfusion)
      rw [hstep]
      exact ih hhold hrest

/-! ## Sending -/

/-- **The queue is sent** if what is freed with it was allocated. -/
theorem sendQueued_spec : ∀ queue pvt, pvt.signalingQueue = queue → sendQueued queue pvt =
    if ∀ s ∈ queue, freeSignalingQueueEntry s = some () then
      some { pvt with signalingQueue := [], sent := pvt.sent ++ queue.map fun s => s.f.wire }
    else none := by
  intro queue
  induction queue with
  | nil =>
    intro pvt hqueue
    have hnone : ∀ s ∈ ([] : List QueueEntry), freeSignalingQueueEntry s = some () :=
      fun s hs => absurd hs List.not_mem_nil
    rw [if_pos hnone, sendQueued, List.map_nil, List.append_nil, ← hqueue]
  | cons s queue ih =>
    intro pvt hqueue
    rw [sendQueued]
    by_cases hfree : freeSignalingQueueEntry s = some ()
    · rw [hfree, Option.bind_some, ih _ rfl]
      refine (if_congr ?_ ?_ rfl)
      · rw [List.forall_mem_cons]
        exact (and_iff_right hfree).symm
      · unfold iax2Send
        rw [List.map_cons, List.append_assoc, List.singleton_append]
    · have hnone : freeSignalingQueueEntry s = none := by
        rcases hcase : freeSignalingQueueEntry s with _ | u
        · rfl
        · exact absurd hcase hfree
      rw [hnone, Option.bind_none, if_neg fun h => hfree (h s List.mem_cons_self)]

/-- A call that has just been made, and a text of two octets. -/
def newPvt : ChanPvt := ⟨true, [], []⟩

def textFrame (a b : UInt8) : Frame := ⟨.text, 0, 2, some [a, b], Nat.le_refl 2⟩

end Signaling

end Iax2

end Trismedia
