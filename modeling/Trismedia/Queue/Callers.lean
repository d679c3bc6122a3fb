import Mathlib.Logic.Function.Basic
import Trismedia.Queue.Model
/-!
# Callers in a queue

The callers that wait in a queue of `apps/app_queue.c`: a list from `head`
through the `next` of each caller, whose `pos` is where he stands. A loop over
the list takes fuel, and a call that runs out of it or follows a null pointer
is `none`. Channels, announcements and penalty rules are left out.
-/


namespace Trismedia

namespace Queue

open CString

variable {C : Type} [DecidableEq C]

/-- `struct queue_ent`; the parent is a queue's address. -/
structure QueueEnt (C : Type) where
  parent : Option ℕ
  pos : ℤ
  prio : ℤ
  opos : ℤ
  pending : Bool
  maxPenalty : ℤ
  minPenalty : ℤ
  next : Option C

/-- The queues and the callers in memory. -/
structure World (C : Type) where
  queues : Queues C
  ents : C → QueueEnt C

/-- `enum queue_result` -/
inductive QueueResult
  | unknown
  | timeout
  | joinempty
  | leaveempty
  | joinunavail
  | leaveunavail
  | full
  | continued
  deriving DecidableEq, Repr

/-! ## Who can be called -/

/-- What the `switch` of `get_member_status` finds in the state of a device,
falling through from one case to the next. -/
def stateRefused (conditions : EmptyConditions) : DeviceState → Bool
  | .invalid => conditions &&&
      (emptyInvalid ||| emptyUnavailable ||| emptyInuse ||| emptyUnknown) ≠ 0
  | .unavailable => conditions &&& (emptyUnavailable ||| emptyInuse ||| emptyUnknown) ≠ 0
  | .inuse => conditions &&& (emptyInuse ||| emptyUnknown) ≠ 0
  | .unknown => conditions &&& emptyUnknown ≠ 0
  | _ => false

/-- The member is available at time `now`. -/
def memberAvailable (q : CallQueue C) (now maxPenalty minPenalty : ℤ)
    (conditions : EmptyConditions) (member : Member) : Bool :=
  let penalty := (maxPenalty ≠ 0 ∧ member.penalty > maxPenalty) ∨
    (minPenalty ≠ 0 ∧ member.penalty < minPenalty)
  ¬ (penalty ∧ conditions &&& emptyPenalty ≠ 0) ∧ !stateRefused conditions member.status ∧
    ¬ (member.paused ≠ 0 ∧ conditions &&& emptyPaused ≠ 0) ∧
    ¬ (conditions &&& emptyWrapup ≠ 0 ∧ member.lastcall ≠ 0 ∧ q.wrapuptime ≠ 0 ∧
      now - q.wrapuptime < member.lastcall)

/-- `get_member_status` -/
def getMemberStatus (q : CallQueue C) (now maxPenalty minPenalty : ℤ)
    (conditions : EmptyConditions) : ℤ :=
  if q.members.any (memberAvailable q now maxPenalty minPenalty conditions) then 0 else -1

/-- The member can take a call. -/
def takesCall (q : CallQueue C) (mem : Member) : Bool :=
  (match mem.status with
    | .inuse => q.ringinuse
    | .notInuse => true
    | .unknown => true
    | _ => false) && mem.paused = 0

/-- The loop of `num_available_members`. -/
def availableLoop (q : CallQueue C) : List Member → ℕ → ℕ
  | [], avl => avl
  | mem :: rest, avl =>
    let avl := if takesCall q mem then avl + 1 else avl
    -- one is enough where only the first caller can be served
    if (!q.autofill || q.strategy = some .ringall) && avl ≠ 0 then avl
    else availableLoop q rest avl

/-- `num_available_members` -/
def numAvailableMembers (q : CallQueue C) : ℕ := availableLoop q q.members 0

/-! ## Joining -/

/-- What the loop of `join_queue` has: the queue, the callers, where it is in
the list, and the position it has given last. -/
structure Joining (C : Type) where
  q : CallQueue C
  ents : C → QueueEnt C
  prev : Option C
  pos : ℤ
  inserted : Bool

/-- `insert_entry`, into the queue at `addr`. -/
def insertEntry (addr : ℕ) (new : C) (st : Joining C) : Joining C :=
  let pos := st.pos + 1
  match st.prev with
  | some prev =>
    let cur := (st.ents prev).next
    let ents := Function.update st.ents prev { st.ents prev with next := some new }
    { st with
      ents := Function.update ents new
        { ents new with next := cur, parent := some addr, pos := pos, opos := pos }
      pos := pos }
  | none =>
    let cur := st.q.head
    { st with
      q := { st.q with head := some new }
      ents := Function.update st.ents new
        { st.ents new with next := cur, parent := some addr, pos := pos, opos := pos }
      pos := pos }

/-- `while (cur)` in `join_queue` -/
def joinLoop (addr : ℕ) (qe : C) : ℕ → Joining C → Option C → Option (Joining C)
  | _, st, none => some st
  | 0, _, some _ => none
  | fuel + 1, st, some cur =>
    let st :=
      if !st.inserted ∧ (st.ents qe).prio > (st.ents cur).prio then
        { insertEntry addr qe st with inserted := true }
      else st
    let pos := st.pos + 1
    let ents := Function.update st.ents cur { st.ents cur with pos }
    joinLoop addr qe fuel { st with ents, pos, prev := some cur } (ents cur).next

/-- `join_queue` once the queue is loaded, at `addr`. -/
def joinLoaded (fuel : ℕ) (addr : ℕ) (qe : C) (now : ℤ) (reason : QueueResult) (w : World C) :
    Option (World C × ℤ × QueueResult) := do
  let q ← w.queues[addr]?
  if q.joinempty ≠ 0 ∧ getMemberStatus q now (w.ents qe).maxPenalty (w.ents qe).minPenalty
      q.joinempty ≠ 0 then
    some (w, -1, .joinempty)
  else if reason = .unknown then
    let st ← joinLoop addr qe fuel
      { q, ents := w.ents, prev := none, pos := 0, inserted := false } q.head
    let st := if st.inserted then st else insertEntry addr qe st
    some ({ queues := w.queues.set addr { st.q with count := st.q.count + 1 }, ents := st.ents },
      0, reason)
  else some (w, -1, reason)

/-- **`join_queue`**: its result, and the reason. -/
def joinQueue (autofillDefault : Bool) (fuel : ℕ) (w : World C) (queuename : CString) (qe : C)
    (now : ℤ) (reason : QueueResult) (rt : Realtime) : Option (World C × ℤ × QueueResult) := do
  let (queues, addr) ← loadRealtimeQueue autofillDefault w.queues queuename rt
  match addr with
  | none => some ({ w with queues }, -1, reason)
  | some addr => joinLoaded fuel addr qe now reason { w with queues }

/-! ## Leaving -/

/-- The loop of `leave_queue`. -/
def leaveLoop (qe : C) : ℕ → CallQueue C → (C → QueueEnt C) → Option C → Option C → ℤ →
    Option (CallQueue C × (C → QueueEnt C))
  | _, q, ents, none, _, _ => some (q, ents)
  | 0, _, _, some _, _, _ => none
  | fuel + 1, q, ents, some current, prev, pos =>
    if current = qe then
      let next := (ents current).next
      let q := { q with count := q.count - 1 }
      match prev with
      | some p =>
        let ents := Function.update ents p { ents p with next := next }
        leaveLoop qe fuel q ents (ents current).next prev pos
      | none => leaveLoop qe fuel { q with head := next } ents next prev pos
    else
      let ents := Function.update ents current { ents current with pos := pos + 1 }
      leaveLoop qe fuel q ents (ents current).next (some current) (pos + 1)

/-- **`leave_queue`**; `defined` is whether the database still has the queue. -/
def leaveQueue (fuel : ℕ) (w : World C) (qe : C) (defined : Bool) : Option (World C) :=
  match (w.ents qe).parent with
  | none => some w
  | some addr => do
    let q ← w.queues[addr]?
    let (q, ents) ← leaveLoop qe fuel q w.ents q.head none 0
    let q := if q.realtime && !defined then { q with dead := true } else q
    let q := if q.dead then { q with linked := false } else q
    some { queues := w.queues.set addr q, ents }

/-! ## Whose turn it is -/

/-- `while ((idx < avl) && (ch) && (ch != qe))` -/
def turnLoop (ents : C → QueueEnt C) (avl : ℕ) (qe : C) : ℕ → ℕ → Option C →
    Option (ℕ × Option C)
  | _, idx, none => some (idx, none)
  | fuel, idx, some ch =>
    if idx < avl ∧ ch ≠ qe then
      match fuel with
      | 0 => none
      | fuel + 1 =>
        turnLoop ents avl qe fuel (if (ents ch).pending then idx else idx + 1) (ents ch).next
    else some (idx, some ch)

/-- **`is_our_turn`** -/
def isOurTurn (fuel : ℕ) (w : World C) (qe : C) : Option Bool := do
  let addr ← (w.ents qe).parent
  let q ← w.queues[addr]?
  let avl := numAvailableMembers q
  let (idx, ch) ← turnLoop w.ents avl qe fuel 0 q.head
  some (ch.isSome && idx < avl && (q.autofill || (w.ents qe).pos = 1))

end Queue

end Trismedia
