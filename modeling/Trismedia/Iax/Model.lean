import Mathlib.Data.Vector.Defs
import Mathlib.Logic.Function.Basic
import Trismedia.Common.CInt
import Trismedia.Common.CString
/-!
# Information elements of IAX2

The encoder and the decoder of information elements,
`channels/iax2-parser.c`. The encoder writes a type, a length and the data
behind what is in its buffer. The decoder leaves the data where it is: its
string fields point into the message, and it ends each string by writing a
NUL over the type of the element behind.

What the functions log is left out; allocations succeed.
-/


namespace Trismedia

namespace Iax

open CInt CString

/-! ## The encoder -/

/-- `struct iax_ie_data` -/
structure IaxIeData where
  buf : ℕ → CChar
  pos : ℕ

/-- `sizeof(ied->buf)` -/
def sizeofBuf : ℕ := 1024

/-- The memory with the octets `l` written from `start` on. -/
def writeAt (mem : ℕ → CChar) (start : ℕ) (l : List CChar) (i : ℕ) : CChar :=
  if start ≤ i ∧ i < start + l.length then l.getD (i - start) 0 else mem i

/-- `iax_ie_append_raw`: what it returns and what it leaves. `none` is a
call that writes behind the buffer. -/
def iaxIeAppendRaw (ied : IaxIeData) (ie : CChar) (data : List CChar) (datalen : ℤ) :
    Option (ℤ × IaxIeData) :=
  if datalen > (sizeofBuf : ℤ) - ied.pos then some (-1, ied)
  else if datalen < 0 ∨ ied.pos + 2 + datalen > sizeofBuf then none
  else
    some (0,
      { buf := writeAt ied.buf ied.pos
          (ie :: BitVec.ofInt 8 datalen :: data.take datalen.toNat)
        pos := ied.pos + 2 + datalen.toNat })

/-- The octets of a number in network byte order: `htonl`, `htons`. -/
def htonl (value : BitVec 32) : List CChar :=
  [value.extractLsb' 24 8, value.extractLsb' 16 8, value.extractLsb' 8 8, value.extractLsb' 0 8]

def htons (value : BitVec 16) : List CChar := [value.extractLsb' 8 8, value.extractLsb' 0 8]

/-- The number with the given octets in network byte order: `ntohl`,
`ntohs`. -/
def ntoh (l : List CChar) : ℕ := l.foldl (fun n c => 256 * n + c.toNat) 0

/-- `iax_ie_append_addr`; `sin` are the octets of the `sockaddr_in`. -/
def iaxIeAppendAddr (ied : IaxIeData) (ie : CChar) (sin : List.Vector CChar 16) :
    Option (ℤ × IaxIeData) := iaxIeAppendRaw ied ie sin.toList 16

/-- `iax_ie_append_int` -/
def iaxIeAppendInt (ied : IaxIeData) (ie : CChar) (value : BitVec 32) :
    Option (ℤ × IaxIeData) := iaxIeAppendRaw ied ie (htonl value) 4

/-- `iax_ie_append_short` -/
def iaxIeAppendShort (ied : IaxIeData) (ie : CChar) (value : BitVec 16) :
    Option (ℤ × IaxIeData) := iaxIeAppendRaw ied ie (htons value) 2

/-- `iax_ie_append_str`; `strlen` becomes an `int`. -/
def iaxIeAppendStr (ied : IaxIeData) (ie : CChar) (str : CString) : Option (ℤ × IaxIeData) :=
  iaxIeAppendRaw ied ie str (wrapInt str.length)

/-- `iax_ie_append_byte` -/
def iaxIeAppendByte (ied : IaxIeData) (ie dat : CChar) : Option (ℤ × IaxIeData) :=
  iaxIeAppendRaw ied ie [dat] 1

/-- `iax_ie_append` -/
def iaxIeAppend (ied : IaxIeData) (ie : CChar) : Option (ℤ × IaxIeData) :=
  iaxIeAppendRaw ied ie [] 0

/-! ## What the decoder fills -/

/-- The fields that point to an element's data. -/
inductive PtrField where
  | calledNumber
  | callingNumber
  | callingAni
  | callingName
  | calledContext
  | username
  | password
  | codecPrefs
  | language
  | dnid
  | rdnis
  | challenge
  | md5Result
  | rsaResult
  | apparentAddr
  | cause
  | devicetype
  | serviceident
  deriving DecidableEq

/-- The fields with a number. -/
inductive WordField where
  | callingTon
  | callingTns
  | callingPres
  | capability
  | format
  | version
  | adsicpe
  | authmethods
  | encmethods
  | refresh
  | dpstatus
  | callno
  | causecode
  | iaxUnknown
  | msgcount
  | transferid
  | datetime
  | firmwarever
  | fwdesc
  | provver
  | samprate
  | rrJitter
  | rrLoss
  | rrPkts
  | rrDelay
  | rrDropped
  | rrOoo
  deriving DecidableEq

/-- The fields set to 1. -/
inductive FlagField where
  | autoanswer
  | musiconhold
  | provverpres
  | calltoken
  deriving DecidableEq

/-- The fields with a pointer and a length. -/
inductive BlockField where
  | fwdata
  | enckey
  deriving DecidableEq

/-- `struct tris_variable` -/
structure TrisVariable where
  name : CString
  value : CString
  file : CString

/-- `struct iax_ies`. A pointer into the message is its offset there. -/
structure IaxIes where
  ptr : PtrField → Option ℕ
  word : WordField → ℤ
  flag : FlagField → Bool
  block : BlockField → Option ℕ
  blocklen : BlockField → ℕ
  vars : List TrisVariable
  osptokenblock : Fin 4 → Option ℕ
  ospblocklength : Fin 4 → ℕ
  calltokendata : Option ℕ

/-- What a number is before its element comes. -/
def wordDefault : WordField → ℤ
  | .msgcount => -1
  | .firmwarever => -1
  | .callingTon => -1
  | .callingTns => -1
  | .callingPres => -1
  | .samprate => 1
  | _ => 0

/-- The fields before the first element. -/
def iaxIesInit : IaxIes where
  ptr := fun _ => none
  word := wordDefault
  flag := fun _ => false
  block := fun _ => none
  blocklen := fun _ => 0
  vars := []
  osptokenblock := fun _ => none
  ospblocklength := fun _ => 0
  calltokendata := none

/-- What the decoder does with an element. -/
inductive IeKind where
  | ptr (f : PtrField)
  | word (f : WordField) (width : ℕ)
  | flag (f : FlagField)
  | block (f : BlockField)
  | provver
  | var
  | osptoken
  | calltoken
  | unknown
  deriving DecidableEq

/-- The `switch` of `iax_parse_ies`, by the `IAX_IE_` numbers. -/
def ieKind (ie : CChar) : IeKind :=
  match ie.toNat with
  | 1 => .ptr .calledNumber
  | 2 => .ptr .callingNumber
  | 3 => .ptr .callingAni
  | 4 => .ptr .callingName
  | 5 => .ptr .calledContext
  | 6 => .ptr .username
  | 7 => .ptr .password
  | 8 => .word .capability 4
  | 9 => .word .format 4
  | 10 => .ptr .language
  | 11 => .word .version 2
  | 12 => .word .adsicpe 2
  | 13 => .ptr .dnid
  | 14 => .word .authmethods 2
  | 15 => .ptr .challenge
  | 16 => .ptr .md5Result
  | 17 => .ptr .rsaResult
  | 18 => .ptr .apparentAddr
  | 19 => .word .refresh 2
  | 20 => .word .dpstatus 2
  | 21 => .word .callno 2
  | 22 => .ptr .cause
  | 23 => .word .iaxUnknown 1
  | 24 => .word .msgcount 2
  | 25 => .flag .autoanswer
  | 26 => .flag .musiconhold
  | 27 => .word .transferid 4
  | 28 => .ptr .rdnis
  | 31 => .word .datetime 4
  | 32 => .ptr .devicetype
  | 33 => .ptr .serviceident
  | 34 => .word .firmwarever 2
  | 35 => .word .fwdesc 4
  | 36 => .block .fwdata
  | 37 => .provver
  | 38 => .word .callingPres 1
  | 39 => .word .callingTon 1
  | 40 => .word .callingTns 2
  | 41 => .word .samprate 2
  | 42 => .word .causecode 1
  | 43 => .word .encmethods 2
  | 44 => .block .enckey
  | 45 => .ptr .codecPrefs
  | 46 => .word .rrJitter 4
  | 47 => .word .rrLoss 4
  | 48 => .word .rrPkts 4
  | 49 => .word .rrDelay 2
  | 50 => .word .rrDropped 4
  | 51 => .word .rrOoo 4
  | 52 => .var
  | 53 => .osptoken
  | 54 => .calltoken
  | _ => .unknown

/-! ## The decoder -/

/-- The octets of the memory from `o` on. -/
def octets (mem : ℕ → CChar) (o n : ℕ) : List CChar := (List.range n).map fun i => mem (o + i)

/-- `tris_copy_string` from the memory to a buffer of `size` bytes. -/
def copyString (mem : ℕ → CChar) (src size : ℕ) : CString :=
  (octets mem src (size - 1)).takeWhile (· ≠ 0)

/-- The name and the value of a variable: what is before the first `=` and
what is behind it. -/
def splitVariable (s : CString) : CString × CString := (strchr (chr '=') s).getD (s, [])

/-- The value goes behind that of the first variable of the name; `none` if
there is none. -/
def extendVariable (name value : CString) : List TrisVariable → Option (List TrisVariable)
  | [] => none
  | var :: vars =>
    if name = var.name then some (⟨name, var.value ++ value, var.file⟩ :: vars)
    else (extendVariable name value vars).map (var :: ·)

/-- A variable received: an existing variable is extended, a new one goes to
the front. -/
def assignVariable (vars : List TrisVariable) (v : CString × CString) : List TrisVariable :=
  (extendVariable v.1 v.2 vars).getD (⟨v.1, v.2, []⟩ :: vars)

/-- One element of type `ie` at `data`. -/
def takeElement (ies : IaxIes) (mem : ℕ → CChar) (data : ℕ) (ie : CChar) (len : ℕ) : IaxIes :=
  match ieKind ie with
  | .ptr f => { ies with ptr := Function.update ies.ptr f (some (data + 2)) }
  | .word f width =>
    if len ≠ width then ies
    else { ies with word := Function.update ies.word f (ntoh (octets mem (data + 2) width)) }
  | .flag f => { ies with flag := Function.update ies.flag f true }
  | .block f =>
    { ies with
      block := Function.update ies.block f (some (data + 2))
      blocklen := Function.update ies.blocklen f len }
  | .provver =>
    if len ≠ 4 then ies
    else
      { ies with
        flag := Function.update ies.flag .provverpres true
        word := Function.update ies.word .provver (ntoh (octets mem (data + 2) 4)) }
  | .var =>
    { ies with
      vars := assignVariable ies.vars (splitVariable (copyString mem (data + 2) (len + 1))) }
  | .osptoken =>
    if h : (mem (data + 2)).toNat < 4 then
      { ies with
        osptokenblock := Function.update ies.osptokenblock ⟨_, h⟩ (some (data + 3))
        ospblocklength :=
          Function.update ies.ospblocklength ⟨_, h⟩ ((len + (2 ^ 32 - 1)) % 2 ^ 32) }
    else ies
  | .calltoken =>
    { ies with
      calltokendata := if len ≠ 0 then some (data + 2) else ies.calltokendata
      flag := Function.update ies.flag .calltoken true }
  | .unknown => ies

/-- The loop of `iax_parse_ies`, and what comes after it. An element is two
octets at least, so `datalen` rounds are enough. -/
def parseLoop : ℕ → IaxIes → (ℕ → CChar) → ℕ → ℕ → ℤ × IaxIes × (ℕ → CChar)
  | 0, ies, mem, data, datalen =>
    (if datalen ≠ 0 then -1 else 0, ies, Function.update mem data 0)
  | fuel + 1, ies, mem, data, datalen =>
    if datalen ≥ 2 then
      let ie := mem data
      let len := (mem (data + 1)).toNat
      if len > datalen - 2 then (-1, ies, mem)
      else
        parseLoop fuel (takeElement ies mem data ie len) (Function.update mem data 0)
          (data + (len + 2)) (datalen - (len + 2))
    else (if datalen ≠ 0 then -1 else 0, ies, Function.update mem data 0)

/-- `iax_parse_ies` on the message at the start of the memory: what it
returns, the fields, and the memory after it. -/
def iaxParseIes (mem : ℕ → CChar) (datalen : ℕ) : ℤ × IaxIes × (ℕ → CChar) :=
  parseLoop datalen iaxIesInit mem 0 datalen

end Iax

end Trismedia
