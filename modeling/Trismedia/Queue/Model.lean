import Mathlib.Algebra.GroupWithZero.Nat
import Trismedia.Config.Numbers
/-!
# Queues and their members

The queues of `apps/app_queue.c` and the members that serve them, as far as
loading a queue from the realtime database and adding and removing members go.
A queue is found by its name among those that the container `queues` holds, and
its members are in the order in which an iterator returns them: by bucket, and
in a bucket as they were linked. What the database answers, what a device is
doing and whether memory is left are arguments; a call that follows a null
pointer is `none`. The parameters of a queue that no function here reads are
left out, and so is what is only logged or sent to the manager.
-/


namespace Trismedia

namespace Queue

open CString Config

/-- `QUEUE_STRATEGY_RINGALL` and the others -/
inductive Strategy
  | ringall
  | leastrecent
  | fewestcalls
  | random
  | rrmemory
  | linear
  | wrandom
  deriving DecidableEq, Repr

/-- `strategies` -/
def strategies : List (Strategy × CString) :=
  [(.ringall, str "ringall"), (.leastrecent, str "leastrecent"), (.fewestcalls, str "fewestcalls"),
    (.random, str "random"), (.rrmemory, str "rrmemory"), (.rrmemory, str "roundrobin"),
    (.linear, str "linear"), (.wrandom, str "wrandom")]

/-- `strat2int`; `none` is `-1`. -/
def strat2int (strategy : CString) : Option Strategy :=
  (strategies.find? fun s => strcaseEq strategy s.2).map Prod.fst

/-- `enum tris_device_state` -/
inductive DeviceState
  | unknown
  | notInuse
  | inuse
  | busy
  | invalid
  | unavailable
  | ringing
  | ringinuse
  | onhold
  deriving DecidableEq, Repr

/-- `enum empty_conditions`, or-ed together. -/
abbrev EmptyConditions := BitVec 8

def emptyPenalty : EmptyConditions := 1
def emptyPaused : EmptyConditions := 2
def emptyInuse : EmptyConditions := 4
def emptyRinging : EmptyConditions := 8
def emptyUnavailable : EmptyConditions := 16
def emptyInvalid : EmptyConditions := 32
def emptyUnknown : EmptyConditions := 64
def emptyWrapup : EmptyConditions := 128

/-- `struct member` -/
structure Member where
  interface : CString
  stateInterface : CString
  membername : CString
  penalty : ℤ
  dynamic : Bool
  realtime : Bool
  status : DeviceState
  paused : ℤ
  lastcall : ℤ
  dead : Bool
  rtUniqueid : CString
  deriving DecidableEq, Repr

/-- `struct call_queue`, of callers in `C`. `linked` tells that `queues` holds
it. `buckets` is how many its container of members has, and zero while there is
no container. -/
structure CallQueue (C : Type) where
  name : CString
  linked : Bool
  dead : Bool
  ringinuse : Bool
  strategy : Option Strategy
  realtime : Bool
  joinempty : EmptyConditions
  count : ℤ
  wrapuptime : ℤ
  autofill : Bool
  buckets : ℕ
  members : List Member
  membercount : ℤ
  head : Option C

/-- The queues in memory, by their addresses. -/
abbrev Queues (C : Type) := List (CallQueue C)

variable {C : Type}

/-! ## The container of members -/

/-- `compress_char`; a `char` is signed. -/
def compressChar (c : CChar) : ℕ :=
  if 128 ≤ c.toNat ∨ c.toNat < 32 then 0
  else if 96 < c.toNat then c.toNat - 64
  else c.toNat - 32

/-- `member_hash_fn` -/
def memberHash (interface : CString) : ℕ :=
  let chname :=
    if chr '/' ∈ interface then interface.dropWhile (· ≠ chr '/') else interface
  ((chname.take 5).zipIdx.map fun c => compressChar c.1 <<< (c.2 * 6)).sum

/-- The bucket of a member in a container of `buckets`. -/
def bucketOf (buckets : ℕ) (interface : CString) : ℕ := memberHash interface % buckets

/-- `ao2_link`, to the end of a bucket. -/
def link (buckets : ℕ) (m : Member) (members : List Member) : List Member :=
  let before (x : Member) : Bool := bucketOf buckets x.interface ≤ bucketOf buckets m.interface
  members.takeWhile before ++ m :: members.dropWhile before

/-- The search of `ao2_find` with `member_cmp_fn` comes upon the member. -/
def memberCmp (buckets : ℕ) (interface : CString) (m : Member) : Bool :=
  bucketOf buckets m.interface = bucketOf buckets interface ∧ strcaseEq m.interface interface

/-- A pass over the members that unlinks some of them, and counts them down. -/
def unlinkLoop (gone : Member → Bool) : List Member → ℤ → List Member × ℤ
  | [], membercount => ([], membercount)
  | cur :: rest, membercount =>
    if gone cur then unlinkLoop gone rest (membercount - 1)
    else
      let (kept, membercount) := unlinkLoop gone rest membercount
      (cur :: kept, membercount)

/-- The first member that matches is written. -/
def updateFirst (found : Member → Bool) (write : Member → Member) :
    List Member → Option (List Member)
  | [] => none
  | m :: rest =>
    if found m then some (write m :: rest)
    else (updateFirst found write rest).map (m :: ·)

/-- `S_OR` -/
def sOr (a : Option CString) (b : CString) : CString :=
  if trisStrlenZero a then b else a.getD []

/-- `create_queue_member`: `made` is the state of its device, and `none` where
no memory is left. -/
def createQueueMember (interface : CString) (membername : Option CString) (penalty paused : ℤ)
    (stateInterface : Option CString) (made : Option DeviceState) : Option Member :=
  made.map fun status =>
    { interface := trisCopyString interface 80
      stateInterface := trisCopyString (sOr stateInterface interface) 80
      membername := trisCopyString (sOr membername interface) 80
      penalty, paused, status
      dynamic := false
      realtime := false
      lastcall := 0
      dead := false
      rtUniqueid := [] }

/-- `interface_exists` -/
def interfaceExists (q : CallQueue C) (interface : CString) : Option Member :=
  q.members.find? fun mem => strcaseEq interface mem.interface

/-! ## The parameters of a queue -/

/-- `tris_true` -/
def trisTrue (s : CString) : Bool :=
  [str "yes", str "true", str "y", str "t", str "1", str "on"].any (strcaseEq s)

/-- `tris_false` -/
def trisFalse (s : CString) : Bool :=
  [str "no", str "false", str "n", str "f", str "0", str "off"].any (strcaseEq s)

/-- One option of `parse_empty_options`. -/
def emptyOption (joinempty : Bool) (empty : EmptyConditions) (option : CString) :
    EmptyConditions :=
  if strcaseEq option (str "paused") then empty ||| emptyPaused
  else if strcaseEq option (str "penalty") then empty ||| emptyPenalty
  else if strcaseEq option (str "inuse") then empty ||| emptyInuse
  else if strcaseEq option (str "ringing") then empty ||| emptyRinging
  else if strcaseEq option (str "invalid") then empty ||| emptyInvalid
  else if strcaseEq option (str "wrapup") then empty ||| emptyWrapup
  else if strcaseEq option (str "unavailable") then empty ||| emptyUnavailable
  else if strcaseEq option (str "unknown") then empty ||| emptyUnknown
  else if strcaseEq option (str "loose") then emptyPenalty ||| emptyInvalid
  else if strcaseEq option (str "strict") then
    emptyPenalty ||| emptyInvalid ||| emptyPaused ||| emptyUnavailable
  else if (trisFalse option && joinempty) || (trisTrue option && !joinempty) then
    emptyPenalty ||| emptyInvalid ||| emptyPaused
  else if (trisFalse option && !joinempty) || (trisTrue option && joinempty) then 0
  else empty

/-- `parse_empty_options` -/
def parseEmptyOptions (value : CString) (empty : EmptyConditions) (joinempty : Bool) :
    EmptyConditions :=
  (value.splitOn (chr ',')).foldl (emptyOption joinempty) empty

/-- `queue_set_param` from realtime, for the parameters that are read here. A
strategy that is not known is first replaced and then set all the same. -/
def queueSetParam (q : CallQueue C) (param val : CString) : CallQueue C :=
  if strcaseEq param (str "ringinuse") then { q with ringinuse := trisTrue val }
  else if strcaseEq param (str "wrapuptime") then { q with wrapuptime := atoi val }
  else if strcaseEq param (str "autofill") then { q with autofill := trisTrue val }
  else if strcaseEq param (str "strategy") then
    let strategy := strat2int val
    let q := if strategy = none then { q with strategy := some .ringall } else q
    if strategy = q.strategy then q
    else if strategy = some .linear then q
    else { q with strategy := strategy }
  else if strcaseEq param (str "joinempty") then
    { q with joinempty := parseEmptyOptions val q.joinempty true }
  else q

/-- `init_queue`. The container of members is made once. -/
def initQueue (autofillDefault : Bool) (q : CallQueue C) : CallQueue C :=
  { q with
    dead := false
    ringinuse := true
    autofill := autofillDefault
    wrapuptime := 0
    joinempty := 0
    buckets := if q.buckets = 0 then (if q.strategy = some .linear then 1 else 37) else q.buckets }

/-- `alloc_queue` -/
def allocQueue (C : Type) (queuename : CString) : CallQueue C where
  name := queuename
  linked := false
  dead := false
  ringinuse := false
  strategy := some .ringall
  realtime := false
  joinempty := 0
  count := 0
  wrapuptime := 0
  autofill := false
  buckets := 0
  members := []
  membercount := 0
  head := none

/-! ## Loading a queue -/

/-- A category of the member configuration, and what creating a member for it
comes upon. -/
structure MemberRecord where
  interface : CString
  uniqueid : Option CString
  membername : Option CString
  penalty : Option CString
  paused : Option CString
  stateInterface : Option CString
  made : Option DeviceState

/-- What the realtime database answers for a queue, and whether a queue can be
allocated. -/
structure Realtime where
  queueVars : Option (List (CString × CString))
  memberConfig : Option (List MemberRecord)
  made : Bool

/-- `rt_handle_member_record` -/
def rtHandleMemberRecord (q : CallQueue C) (r : MemberRecord) : CallQueue C :=
  if trisStrlenZero r.uniqueid then q
  else
    let rtUniqueid := r.uniqueid.getD []
    let penalty := (r.penalty.map fun s => max (atoi s) 0).getD 0
    let paused := (r.paused.map fun s => max (atoi s) 0).getD 0
    let stateInterface := sOr r.stateInterface r.interface
    let write (m : Member) : Member :=
      { m with
        dead := false
        rtUniqueid := trisCopyString rtUniqueid 80
        paused := if r.paused.isSome then paused else m.paused
        stateInterface :=
          if strcaseEq stateInterface m.stateInterface then m.stateInterface
          else trisCopyString stateInterface 80
        penalty }
    match updateFirst (fun m => strcaseEq m.rtUniqueid rtUniqueid) write q.members with
    | some members => { q with members }
    | none =>
      match createQueueMember r.interface (some (sOr r.membername r.interface)) penalty paused
          (some stateInterface) r.made with
      | none => q
      | some m =>
        let m := { m with
          dead := false, realtime := true, rtUniqueid := trisCopyString rtUniqueid 80 }
        { q with members := link q.buckets m q.members, membercount := q.membercount + 1 }

/-- `free_members` -/
def freeMembers (q : CallQueue C) (all : Bool) : CallQueue C :=
  let (members, membercount) := unlinkLoop (fun cur => all || !cur.dynamic) q.members q.membercount
  { q with members, membercount }

/-- Realtime members are set dead, so that deleted ones can be told. -/
def markDead (q : CallQueue C) : CallQueue C :=
  { q with members := q.members.map fun m => { m with dead := m.dead || m.realtime } }

/-- The members that are still dead are deleted. -/
def deleteDead (q : CallQueue C) : CallQueue C :=
  let (members, membercount) := unlinkLoop Member.dead q.members q.membercount
  { q with members, membercount }

/-- A parameter's name, with dashes for the underscores of the database. -/
def paramName (name : CString) : CString :=
  if chr '_' ∈ name then (trisCopyString name 64).map fun c => if c = chr '_' then chr '-' else c
  else name

/-- What `find_queue_by_name_rt` does with a queue that it has: the parameters
again, each member counted, and the records. -/
def loadDefinition (autofillDefault : Bool) (q : CallQueue C) (queueVars : List (CString × CString))
    (memberConfig : List MemberRecord) : CallQueue C :=
  let q := initQueue autofillDefault q
  let q := queueVars.foldl (fun q v =>
    if trisStrlenZero (some v.2) then q
    else queueSetParam q (paramName v.1) v.2) q
  let q := { q with membercount := q.membercount + q.members.length }
  deleteDead (memberConfig.foldl rtHandleMemberRecord (markDead q))

/-- A queue that is not in memory yet, with its strategy set first. -/
def newQueue (C : Type) (queuename : CString) (queueVars : List (CString × CString)) :
    CallQueue C :=
  let strategy :=
    match queueVars.find? fun v => strcaseEq v.1 (str "strategy") with
    | none => some .ringall
    | some v => some ((strat2int v.2).getD .ringall)
  { allocQueue C queuename with realtime := true, membercount := 0, strategy, linked := true }

/-- `ao2_find` in `queues` -/
def queueFind (queues : Queues C) (queuename : CString) : Option (ℕ × CallQueue C) :=
  (queues.findIdx? fun q => q.linked && strcaseEq q.name queuename).bind fun i =>
    queues[i]?.map fun q => (i, q)

/-- **`find_queue_by_name_rt`**: the queues, and which of them it returns. -/
def findQueueByNameRt (autofillDefault : Bool) (queues : Queues C) (queuename : CString)
    (rt : Realtime) : Option (Queues C × Option ℕ) :=
  match queueFind queues queuename with
  | some (i, q) =>
    if !q.realtime then some (queues, if q.dead then none else some i)
    else
      match rt.queueVars with
      | none => some (queues.set i { q with dead := true, linked := false }, none)
      | some queueVars =>
        -- the records of a null configuration cannot be browsed
        rt.memberConfig.map fun memberConfig =>
          (queues.set i (loadDefinition autofillDefault q queueVars memberConfig), some i)
  | none =>
    match rt.memberConfig, rt.queueVars with
    | none, _ => some (queues, none)
    | some _, none => some (queues, none)
    | some memberConfig, some queueVars =>
      if rt.made then
        some (queues ++ [loadDefinition autofillDefault (newQueue C queuename queueVars) queueVars
          memberConfig], some queues.length)
      else some (queues, none)

/-- `update_realtime_members` -/
def updateRealtimeMembers (q : CallQueue C) (memberConfig : Option (List MemberRecord)) :
    CallQueue C :=
  match memberConfig with
  | none => q
  | some memberConfig => deleteDead (memberConfig.foldl rtHandleMemberRecord (markDead q))

/-- What `load_realtime_queue` does where the queue is not a static one: without
a definition its members are not asked for, and without members it gives up. -/
def loadFromRealtime (autofillDefault : Bool) (queues : Queues C) (queuename : CString)
    (rt : Realtime) : Option (Queues C × Option ℕ) :=
  if rt.queueVars = none then
    findQueueByNameRt autofillDefault queues queuename { rt with memberConfig := none }
  else if rt.memberConfig.isNone then some (queues, none)
  else findQueueByNameRt autofillDefault queues queuename rt

/-- `load_realtime_queue` -/
def loadRealtimeQueue (autofillDefault : Bool) (queues : Queues C) (queuename : CString)
    (rt : Realtime) : Option (Queues C × Option ℕ) :=
  match queueFind queues queuename with
  | none => loadFromRealtime autofillDefault queues queuename rt
  | some (i, q) =>
    if q.realtime then loadFromRealtime autofillDefault queues queuename rt
    else some (queues.set i (updateRealtimeMembers q rt.memberConfig), some i)

/-! ## Adding and removing members -/

/-- `RES_OKAY` and the others -/
inductive Res
  | okay
  | exists
  | outOfMemory
  | noSuchQueue
  | notDynamic
  deriving DecidableEq, Repr

/-- `remove_from_queue` -/
def removeFromQueue (queues : Queues C) (queuename interface : CString) : Queues C × Res :=
  match queueFind queues queuename with
  | none => (queues, .noSuchQueue)
  | some (i, q) =>
    let cmp := memberCmp q.buckets (trisCopyString interface 80)
    match q.members.find? cmp with
    | none => (queues, .exists)
    | some mem =>
      if !mem.dynamic then (queues, .notDynamic)
      else
        (queues.set i { q with
          membercount := q.membercount - 1, members := q.members.eraseP cmp }, .okay)

/-- `add_to_queue` -/
def addToQueue (autofillDefault : Bool) (queues : Queues C) (queuename interface : CString)
    (membername : Option CString) (penalty paused : ℤ) (stateInterface : Option CString)
    (made : Option DeviceState) (rt : Realtime) : Option (Queues C × Res) := do
  let (queues, i) ← loadRealtimeQueue autofillDefault queues queuename rt
  match i with
  | none => some (queues, .noSuchQueue)
  | some i =>
    let q ← queues[i]?
    if interfaceExists q interface = none then
      match createQueueMember interface membername penalty paused stateInterface made with
      | none => some (queues, .outOfMemory)
      | some m =>
        let m := { m with dynamic := true }
        some (queues.set i { q with
          members := link q.buckets m q.members, membercount := q.membercount + 1 }, .okay)
    else some (queues, .exists)

end Queue

end Trismedia
