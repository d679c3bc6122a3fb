import Trismedia.Ao2.Runs
import Trismedia.Event.Layout
/-!
# The event cache

The cache of one event type is a container of copies of events, as
`tris_event_queue_and_cache` fills it and `tris_event_get_cached` looks
into it. A `tris_event_ref` is the cell of its address, and its data is
the event it points to.

What subscribers get of a queued event is left out: they never see the
copy in the cache. So is the call that destroys an event, as no address
of an event matters.
-/


namespace Trismedia

namespace Event

open Ao2

/-! ## Comparing events -/

/-- `ie_maps` -/
def eventGetIePltype : IeType → IePltype
  | .newmsgs => .uint
  | .oldmsgs => .uint
  | .mailbox => .str
  | .uniqueid => .uint
  | .eventtype => .uint
  | .existence => .uint
  | .device => .str
  | .state => .uint
  | .context => .str
  | .eid => .raw

/-- The fields of `struct tris_event_ie_val` that matter when there is an
event to compare with. -/
structure IeVal where
  ieType : IeType
  iePltype : IePltype
  rawDatalen : ℕ

/-- The `n` octets at a pointer, which may be null if there are none. -/
def pointedAt (event : List Octet) (p : Option ℕ) (n : ℕ) : Option (List Octet) :=
  match p with
  | some p => octetsAt guarded event p n
  | none => if n = 0 then some [] else none

/-- `match_ie_val` with an event to compare with. -/
def matchIeVal (event : List Octet) (ieVal : IeVal) (event2 : List Octet) : Option Bool :=
  match ieVal.iePltype with
  | .uint => do
    let val ← eventGetIeUint guarded event2 ieVal.ieType
    let own ← eventGetIeUint guarded event ieVal.ieType
    some (decide (val = own))
  | .str => do
    let hash ← eventGetIeStrHash guarded event2 ieVal.ieType
    let own ← eventGetIeStrHash guarded event ieVal.ieType
    if hash ≠ own then
      some false
    else do
      match ← eventGetIeStr guarded event2 ieVal.ieType with
      | none => some false
      | some str => do
        -- `strcmp` of a null pointer
        let str2 ← ← eventGetIeStr guarded event ieVal.ieType
        some (decide (str = str2))
  | .raw => do
    match ← eventGetIeRaw guarded event2 ieVal.ieType with
    | none => some false
    | some buf => do
      let own ← eventGetIeRaw guarded event ieVal.ieType
      let a ← pointedAt event2 (some buf) ieVal.rawDatalen
      let b ← pointedAt event own ieVal.rawDatalen
      some (decide (a = b))
  | .existence => do
    let p ← eventGetIeRaw guarded event ieVal.ieType
    some p.isSome
  | .unknown => some false

/-- The type of an event, as an index of `tris_event_cache`. -/
def typeOf (event : List Octet) : Option EventType := do
  match ← eventGetType guarded event with
  | 0 => some .all
  | 1 => some .custom
  | 2 => some .mwi
  | 3 => some .sub
  | 4 => some .unsub
  | 5 => some .deviceState
  | 6 => some .deviceStateChange
  | _ => none

/-- `cache_args`, up to the first that is not set. -/
def cacheArgs : EventType → List IeType
  | .mwi => [.mailbox, .context]
  | .deviceState => [.device]
  | .deviceStateChange => [.device, .eid]
  | _ => []

/-- The loop of `tris_event_cmp`. `raw_datalen` is not set. -/
def eventCmpLoop (event event2 : List Octet) : List IeType → Option (BitVec 32)
  | [] => some cmpMatch
  | arg :: rest => do
    if ← matchIeVal event ⟨arg, eventGetIePltype arg, 0⟩ event2 then
      eventCmpLoop event event2 rest
    else
      some 0

/-- `tris_event_cmp` -/
def eventCmp (event event2 : List Octet) : Option (BitVec 32) := do
  let type ← typeOf event
  eventCmpLoop event event2 (cacheArgs type)

/-! ## Hashing events -/

/-- `tris_event_hash_mwi` -/
def eventHashMwi (event : List Octet) : Option (BitVec 32) := do
  let mailbox ← ← eventGetIeStr guarded event .mailbox
  let context ← ← eventGetIeStr guarded event .context
  some (trisStrHashAdd context (trisStrHash mailbox))

/-- `tris_event_hash_devstate` -/
def eventHashDevstate (event : List Octet) : Option (BitVec 32) := do
  let device ← ← eventGetIeStr guarded event .device
  some (trisStrHash device)

/-- `tris_event_hash_devstate_change` -/
def eventHashDevstateChange (event : List Octet) : Option (BitVec 32) := do
  let device ← ← eventGetIeStr guarded event .device
  some (trisStrHash device)

/-- `tris_event_hash`, with the `hash_fn` of the type. -/
def eventHash (event : List Octet) : Option (BitVec 32) := do
  match ← typeOf event with
  | .mwi => eventHashMwi event
  | .deviceState => eventHashDevstate event
  | .deviceStateChange => eventHashDevstateChange event
  | _ => some 0

/-! ## The cache -/

/-- `NUM_CACHE_BUCKETS` -/
def numCacheBuckets : BitVec 32 := 563

/-- The `tris_event_ref`s and the container of one event type. -/
structure Cache where
  mem : Memory ℕ (List Octet)
  container : Ao2Container ℕ

/-- The cache that `tris_event_init` makes. -/
def cacheInit : Cache := ⟨fun _ => none, ao2ContainerAlloc ℕ numCacheBuckets⟩

/-- The hash function of the container. Where it faults, so does the call
that comes to it first: `eventHash` of the same event. -/
def hashFn (event : List Octet) : BitVec 32 := (eventHash event).getD 0

/-- Its comparison function. Events of one type do not make it fault. -/
def cmpFn (event event2 : List Octet) : BitVec 32 := (eventCmp event event2).getD 0

/-- The events in the cache. -/
def Cache.events (cache : Cache) : Multiset (List Octet) :=
  (total cache.container.size cache.container.buckets).filterMap fun a =>
    (cache.mem a).map Astobj2.userData

/-- `tris_event_dup` -/
def eventDup (event : List Octet) : Option (List Octet) := do
  let eventLen ← eventGetSize guarded event
  octetsAt guarded event 0 eventLen

/-- The matches are removed from the cache. -/
def removeMatches (fuel : ℕ) (cache : Cache) (event : List Octet) : Option Cache := do
  let hash ← eventHash event
  let (mem, container, _, _) ← ao2Callback fuel cache.mem cache.container
    ⟨true, true, true, true, false⟩ hash (cmpCallback cmpFn event) ()
  some ⟨mem, container⟩

/-- `tris_event_dup_and_cache`, with the reference at `addr`. -/
def eventDupAndCache (cache : Cache) (addr : ℕ) (event : List Octet) : Option Cache := do
  let dupEvent ← eventDup event
  let mem := ao2Alloc cache.mem addr dupEvent
  let (mem, container) ← ao2Link hashFn mem cache.container addr
  let (mem, _) ← ao2Ref mem addr (-1)
  some ⟨mem, container⟩

/-- `tris_event_queue_and_cache` of an event of the cached type. `calloc`
returns any address that is free then. -/
def EventQueueAndCache (cache : Cache) (addr : ℕ) (event : List Octet) (cache' : Cache) : Prop :=
  ∃ fuel mid, removeMatches fuel cache event = some mid ∧ mid.mem addr = none ∧
    eventDupAndCache mid addr event = some cache'

/-- A copy of the event `ao2_find` returned, whose reference is dropped. -/
def dupFound (cache : Cache) : Option ℕ → Option (Cache × Option (List Octet))
  | none => some (cache, none)
  | some cachedEventRef => do
    let obj ← cache.mem cachedEventRef
    let dupEvent ← eventDup obj.userData
    let (mem, _) ← ao2Ref cache.mem cachedEventRef (-1)
    some (⟨mem, cache.container⟩, some dupEvent)

/-- `tris_event_get_cached`. What lies behind the event it makes first is
not its own. -/
def eventGetCached (fuel : ℕ) (cache : Cache) (behind : ℕ → Octet) (eidDefault : Eid)
    (type : EventType) (args : List Ie) : Option (Cache × Option (List Octet)) := do
  let cacheArgEvent ← eventNew (fun i => some (behind i)) eidDefault type []
  let cacheArgEvent ← appendAll cacheArgEvent args
  let _ ← eventHash cacheArgEvent
  let (mem, container, ret) ← ao2Find hashFn cmpFn fuel cache.mem cache.container cacheArgEvent
    ⟨false, false, false, true, false⟩
  dupFound ⟨mem, container⟩ ret

/-! ## Events of a device -/

/-- An event of type `TRIS_EVENT_DEVICE_STATE_CHANGE` about `device`, from
some server. -/
def OfDevice (event : List Octet) (device : Text) : Prop :=
  ∃ ies, event = layout .deviceStateChange ies ∧ eventSize ies ≤ 65535 ∧
    (firstOf .device ies).map Ie.data = some (.str device) ∧ (firstOf .eid ies).isSome

variable {event event2 : List Octet} {device device2 : Text} {ies : List Ie} {type : EventType}
variable {n : ℕ}

theorem typeOf_layout : typeOf (layout type ies) = some type := by
  unfold typeOf
  rw [layout_type]
  cases type <;> rfl

theorem OfDevice.looked (h : OfDevice event device) :
    (eventGetIeStrHash guarded event .device = some (trisStrHash device.1) ∧
      eventGetIeStr guarded event .device = some (some device.1)) ∧
    ∃ p, eventGetIeRaw guarded event .eid = some (some p) := by
  obtain ⟨ies, rfl, hfit, hdevice, heid⟩ := h
  have hies : ies ≠ [] := by
    rintro rfl
    cases heid
  have hlooked := looked_layout guarded .deviceStateChange hies hfit
  refine ⟨(hlooked .device).str device hdevice, ?_⟩
  obtain ⟨q, hq, hpoints⟩ := (hlooked .eid).raw
  obtain ⟨ie, hie⟩ := Option.isSome_iff_exists.1 heid
  rw [hie] at hpoints
  cases q with
  | none => exact hpoints.elim
  | some p => exact ⟨p, hq⟩

theorem OfDevice.typeOf (h : OfDevice event device) :
    typeOf event = some .deviceStateChange := by
  obtain ⟨ies, rfl, -⟩ := h
  exact typeOf_layout

theorem OfDevice.dup (h : OfDevice event device) : eventDup event = some event := by
  obtain ⟨ies, rfl, hfit, -⟩ := h
  have hall : StandsAt (layout .deviceStateChange ies) 0 (layout .deviceStateChange ies) :=
    List.prefix_rfl
  have hlen : (layout .deviceStateChange ies).length = eventSize ies := layout_length
  unfold eventDup eventGetSize
  rw [layout_eventLen hfit, ← hlen, Option.bind_eq_bind, Option.bind_some, hall.octetsAt]

theorem OfDevice.hash (h : OfDevice event device) :
    eventHash event = some (trisStrHash device.1) := by
  unfold eventHash eventHashDevstateChange
  rw [h.typeOf]
  simp only [Option.bind_eq_bind, Option.bind_some]
  rw [h.looked.1.2]
  rfl

/-- Strings are compared, their hashes first. -/
theorem OfDevice.matchDevice (h : OfDevice event device) (h2 : OfDevice event2 device2) :
    matchIeVal event ⟨.device, .str, n⟩ event2 = some (decide (device = device2)) := by
  unfold matchIeVal
  simp only
  rw [h.looked.1.1, h.looked.1.2, h2.looked.1.1, h2.looked.1.2]
  simp only [Option.bind_eq_bind, Option.bind_some]
  by_cases heq : device = device2
  · rw [heq, if_neg (fun hne => hne rfl)]
    simp
  · rw [decide_eq_false heq]
    have hval : device2.1 ≠ device.1 := fun hval => heq (Subtype.ext hval.symm)
    split
    · rfl
    · rw [decide_eq_false hval]

/-- **Entity ids are not**: no octet of them is. -/
theorem OfDevice.matchEid (h : OfDevice event device) (h2 : OfDevice event2 device2) :
    matchIeVal event ⟨.eid, .raw, 0⟩ event2 = some true := by
  obtain ⟨p, hp⟩ := h.looked.2
  obtain ⟨p2, hp2⟩ := h2.looked.2
  unfold matchIeVal
  simp only
  rw [hp, hp2]
  rfl

/-- **Two events are the same to the cache** when their devices are. -/
theorem OfDevice.cmp (h : OfDevice event device) (h2 : OfDevice event2 device2) :
    eventCmp event event2 = some (if device = device2 then cmpMatch else 0) := by
  unfold eventCmp
  rw [h.typeOf, Option.bind_eq_bind, Option.bind_some]
  unfold cacheArgs
  simp only [eventCmpLoop, eventGetIePltype, h.matchDevice h2, h.matchEid h2, Option.bind_eq_bind,
    Option.bind_some, decide_eq_true_eq, if_true]
  split <;> rfl

end Event

end Trismedia
