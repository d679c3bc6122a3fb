import Trismedia.Ao2.Model
import Trismedia.Common.CString
/-!
# Events

`main/event.c` as it computes: an event is a block of memory, a header of
four octets and the information elements behind it, each with its own
header of four octets. The numbers of the headers are 16 bits in network
order.

An event is the list of the octets allocated for it. What a read past
them finds is a parameter, `behind`: with `guarded` there is nothing, and
the whole call is `none`. A write past them is always `none`. A pointer
into an event is its offset. Memory is never short, and the log is left
out.
-/


namespace Trismedia

namespace Event

abbrev Octet := CChar

/-- `enum tris_event_type` -/
inductive EventType
  | all
  | custom
  | mwi
  | sub
  | unsub
  | deviceState
  | deviceStateChange
  deriving DecidableEq, Repr

/-- `enum tris_event_ie_type`, less the end of the arguments. -/
inductive IeType
  | newmsgs
  | oldmsgs
  | mailbox
  | uniqueid
  | eventtype
  | existence
  | device
  | state
  | context
  | eid
  deriving DecidableEq, Repr

/-- `enum tris_event_ie_pltype` -/
inductive IePltype
  | unknown
  | existence
  | uint
  | str
  | raw
  deriving DecidableEq, Repr

def EventType.number : EventType → ℕ
  | all => 0
  | custom => 1
  | mwi => 2
  | sub => 3
  | unsub => 4
  | deviceState => 5
  | deviceStateChange => 6

def IeType.number : IeType → ℕ
  | newmsgs => 1
  | oldmsgs => 2
  | mailbox => 3
  | uniqueid => 4
  | eventtype => 5
  | existence => 6
  | device => 7
  | state => 8
  | context => 9
  | eid => 10

/-- `struct tris_eid` -/
abbrev Eid := Fin 6 → Octet

/-- A string as it is passed: it holds no NUL. -/
abbrev Text := {s : CString // (0 : CChar) ∉ s}

/-- The value of an information element, by the function that appends it. -/
inductive IeData
  | uint (data : BitVec 32)
  | str (str : Text)
  | raw (data : List Octet)
  deriving DecidableEq

structure Ie where
  ieType : IeType
  data : IeData
  deriving DecidableEq

/-! ## Memory -/

/-- What reads past the end of a block find. -/
abbrev Behind := ℕ → Option Octet

/-- Nothing may be read there. -/
def guarded : Behind := fun _ => none

def octetAt (behind : Behind) (block : List Octet) (i : ℕ) : Option Octet :=
  block[i]? <|> behind i

/-- `n` octets from the offset `i`. -/
def octetsAt (behind : Behind) (block : List Octet) (i : ℕ) : ℕ → Option (List Octet)
  | 0 => some []
  | n + 1 => do
    let o ← octetAt behind block i
    let rest ← octetsAt behind block (i + 1) n
    some (o :: rest)

/-- `htons` -/
def htons (n : ℕ) : List Octet := [BitVec.ofNat 8 (n / 256), BitVec.ofNat 8 n]

/-- `ntohs` of the two octets at the offset `i`. -/
def ntohsAt (behind : Behind) (block : List Octet) (i : ℕ) : Option ℕ := do
  let hi ← octetAt behind block i
  let lo ← octetAt behind block (i + 1)
  some (hi.toNat * 256 + lo.toNat)

/-- `htonl` -/
def htonl (x : BitVec 32) : List Octet :=
  [x.extractLsb' 24 8, x.extractLsb' 16 8, x.extractLsb' 8 8, x.extractLsb' 0 8]

/-- A number in the order of the host, the lowest octet first. -/
def hostOrder (x : BitVec 32) : List Octet :=
  [x.extractLsb' 0 8, x.extractLsb' 8 8, x.extractLsb' 16 8, x.extractLsb' 24 8]

/-- `ntohl` of the four octets at the offset `i`. -/
def ntohlAt (behind : Behind) (block : List Octet) (i : ℕ) : Option (BitVec 32) := do
  let a ← octetAt behind block i
  let b ← octetAt behind block (i + 1)
  let c ← octetAt behind block (i + 2)
  let d ← octetAt behind block (i + 3)
  some (a ++ b ++ c ++ d)

/-- The number in the order of the host at the offset `i`. -/
def uint32At (behind : Behind) (block : List Octet) (i : ℕ) : Option (BitVec 32) := do
  let a ← octetAt behind block i
  let b ← octetAt behind block (i + 1)
  let c ← octetAt behind block (i + 2)
  let d ← octetAt behind block (i + 3)
  some (d ++ c ++ b ++ a)

/-- The string at an offset, up to its NUL, which is one of the first
`fuel` octets. -/
def stringAt (behind : Behind) (block : List Octet) : ℕ → ℕ → Option CString
  | 0, _ => none
  | fuel + 1, i => do
    let c ← octetAt behind block i
    if c = 0 then
      some []
    else do
      let rest ← stringAt behind block fuel (i + 1)
      some (c :: rest)

/-- `realloc` to `size` octets. The new ones are not initialised. -/
def realloc (block : List Octet) (size : ℕ) : List Octet :=
  block.take size ++ List.replicate (size - block.length) 0

/-- `memcpy` of `data` to the offset `i`. -/
def memcpy (block : List Octet) (i : ℕ) (data : List Octet) : Option (List Octet) :=
  if i + data.length ≤ block.length then
    some (block.take i ++ data ++ block.drop (i + data.length))
  else
    none

/-! ## The iterator -/

/-- `struct tris_event_iterator`, less the pointer to the event. -/
structure EventIterator where
  eventLen : ℕ
  ie : ℕ

variable (behind : Behind) (event : List Octet)

/-- `tris_event_get_size` -/
def eventGetSize : Option ℕ := ntohsAt behind event 2

/-- `tris_event_get_type`, as the number it is. -/
def eventGetType : Option ℕ := ntohsAt behind event 0

/-- `tris_event_iterator_init` -/
def eventIteratorInit : Option EventIterator := do
  let eventLen ← ntohsAt behind event 2
  some ⟨eventLen, 4⟩

/-- `tris_event_iterator_next`, and whether it returns -1. -/
def eventIteratorNext (iterator : EventIterator) : Option (EventIterator × Bool) := do
  let iePayloadLen ← ntohsAt behind event (iterator.ie + 2)
  let ie := iterator.ie + 4 + iePayloadLen
  some (⟨iterator.eventLen, ie⟩, decide (iterator.eventLen ≤ ie))

/-- `tris_event_iterator_get_ie_type` -/
def eventIteratorGetIeType (iterator : EventIterator) : Option ℕ := ntohsAt behind event iterator.ie

/-- The payload of the current element: `tris_event_iterator_get_ie_raw`
points to it, and its length stands in the element. -/
def eventIteratorGetIeRaw (iterator : EventIterator) : Option (List Octet) := do
  let iePayloadLen ← ntohsAt behind event (iterator.ie + 2)
  octetsAt behind event (iterator.ie + 4) iePayloadLen

/-- The walk from an element on, over at most `fuel` elements: the types
and the payloads. -/
def walkFrom : ℕ → EventIterator → Option (List (ℕ × List Octet))
  | 0, _ => none
  | fuel + 1, iterator => do
    let ieType ← eventIteratorGetIeType behind event iterator
    let payload ← eventIteratorGetIeRaw behind event iterator
    let (iterator, ended) ← eventIteratorNext behind event iterator
    if ended then
      some [(ieType, payload)]
    else do
      let rest ← walkFrom fuel iterator
      some ((ieType, payload) :: rest)

/-- A walk over an event, `for (init; !res; res = next)`. -/
def walk : Option (List (ℕ × List Octet)) := do
  let iterator ← eventIteratorInit behind event
  walkFrom behind event (iterator.eventLen + 1) iterator

/-! ## Looking for an element -/

/-- The loop of `tris_event_get_ie_raw`. An element has four octets at
least, so no event has more of them than octets. -/
def getIeRawLoop (ieType : IeType) : ℕ → EventIterator → Option (Option ℕ)
  | 0, _ => none
  | fuel + 1, iterator => do
    let t ← eventIteratorGetIeType behind event iterator
    if t = ieType.number then
      some (some (iterator.ie + 4))
    else do
      let (iterator, ended) ← eventIteratorNext behind event iterator
      if ended then
        some none
      else
        getIeRawLoop ieType fuel iterator

/-- `tris_event_get_ie_raw`: the pointer to the payload, or `NULL`. -/
def eventGetIeRaw (ieType : IeType) : Option (Option ℕ) := do
  let iterator ← eventIteratorInit behind event
  getIeRawLoop behind event ieType (iterator.eventLen + 1) iterator

/-- `tris_event_get_ie_uint` -/
def eventGetIeUint (ieType : IeType) : Option (BitVec 32) := do
  match ← eventGetIeRaw behind event ieType with
  | none => some 0
  | some p => ntohlAt behind event p

/-- `tris_event_get_ie_str_hash` -/
def eventGetIeStrHash (ieType : IeType) : Option (BitVec 32) := do
  match ← eventGetIeRaw behind event ieType with
  | none => some 0
  | some p => uint32At behind event p

/-- `tris_event_get_ie_str`: the string it points to, or `NULL`. -/
def eventGetIeStr (ieType : IeType) : Option (Option CString) := do
  match ← eventGetIeRaw behind event ieType with
  | none => some none
  | some p => do
    let str ← stringAt behind event event.length (p + 4)
    some (some str)

/-! ## Appending -/

variable (ieType : IeType)

/-- `tris_event_append_ie_raw`. `extra_len` is an `unsigned int`, and so is
its sum with the 16 bits of `event_len`. -/
def eventAppendIeRaw (data : List Octet) : Option (List Octet) := do
  let eventLen ← ntohsAt guarded event 2
  let extraLen := (4 + data.length) % 2 ^ 32
  let event := realloc event ((eventLen + extraLen) % 2 ^ 32)
  let event ← memcpy event eventLen (htons ieType.number)
  let event ← memcpy event (eventLen + 2) (htons data.length)
  let event ← memcpy event (eventLen + 4) data
  memcpy event 2 (htons (eventLen + extraLen))

/-- `tris_event_append_ie_uint` -/
def eventAppendIeUint (data : BitVec 32) : Option (List Octet) :=
  eventAppendIeRaw event ieType (htonl data)

/-- `tris_event_append_ie_str`: the hash, the string and its NUL. -/
def eventAppendIeStr (str : Text) : Option (List Octet) :=
  eventAppendIeRaw event ieType (hostOrder (Ao2.trisStrHash str.1) ++ str.1 ++ [0])

/-- One element of `ie_vals`, by its payload type. -/
def appendIe (ie : Ie) : Option (List Octet) :=
  match ie.data with
  | .uint data => eventAppendIeUint event ie.ieType data
  | .str str => eventAppendIeStr event ie.ieType str
  | .raw data => eventAppendIeRaw event ie.ieType data

/-- Elements appended one after the other. -/
def appendAll (event : List Octet) (ies : List Ie) : Option (List Octet) := ies.foldlM appendIe event

/-- The event before anything is appended. -/
def header (type : EventType) : List Octet := htons type.number ++ htons 4

/-- `tris_event_new`. Events of this server get its entity id. -/
def eventNew (behind : Behind) (eidDefault : Eid) (type : EventType) (ies : List Ie) :
    Option (List Octet) := do
  let event ← appendAll (header type) ies
  match ← eventGetIeRaw behind event .eid with
  | none => eventAppendIeRaw event .eid (List.ofFn eidDefault)
  | some _ => some event

end Event

end Trismedia
