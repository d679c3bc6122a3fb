import Trismedia.Common.Memory
import Trismedia.Isup.Number
/-!
# Where a message is decoded to

The decoders of `channels/ss7/isup.c` write to `struct isup_msg`, whose
parameters are a union with one member for each kind of message. An address
counts the octets from the beginning of the union; an `int` has four, the
lowest first. `none` is a read behind the octets that were given.
-/


namespace Trismedia

namespace Isup

namespace Union

open Mtp2 Memory

/-! ## The union -/

/-- The values of `enum isup_msg_type` that `decode_isup_msg` has a case for. -/
inductive MsgType where
  | iam
  | sam
  | acm
  | blk
  | bla
  | con
  | anm
  | rel
  | rlc
  | sus
  | res
  | rsc
  | grs
  | gra
  | cgb
  | cga
  | cgu
  | cua
  | cpr
  | ubl
  | uec
  | ccr
  | cot
  deriving DecidableEq

/-- The number of a type. -/
def MsgType.code : MsgType → Octet
  | iam => 0x01
  | sam => 0x02
  | acm => 0x06
  | blk => 0x13
  | bla => 0x15
  | con => 0x07
  | anm => 0x09
  | rel => 0x0c
  | rlc => 0x10
  | sus => 0x0d
  | res => 0x0e
  | rsc => 0x12
  | grs => 0x17
  | gra => 0x29
  | cgb => 0x18
  | cga => 0x1a
  | cgu => 0x19
  | cua => 0x1b
  | cpr => 0x2c
  | ubl => 0x14
  | uec => 0x2e
  | ccr => 0x11
  | cot => 0x05

/-- All of them. -/
def MsgType.all : List MsgType :=
  [iam, sam, acm, blk, bla, con, anm, rel, rlc, sus, res, rsc, grs, gra, cgb, cga, cgu, cua, cpr,
    ubl, uec, ccr, cot]

/-- The case of the `switch`; `none` is the default. -/
def MsgType.ofCode (typ : Octet) : Option MsgType := MsgType.all.find? fun t => t.code = typ

/-- `struct isup_phonenum`: three `int`, and `num` with its terminator. -/
def sizeofPhonenum : ℕ := 36

/-- `struct isup_range_and_status` -/
def sizeofRangeAndStatus : ℕ := 36

/-- The fields of `iam`: those of the numbers, `redir_inf`, `contcheck` and
`echocontrol`, and `trans_medium`. -/
def iamDni : Block := ⟨0, sizeofPhonenum⟩

def iamAni : Block := ⟨36, sizeofPhonenum⟩

def iamRni : Block := ⟨72, sizeofPhonenum⟩

def iamRedirInf : Block := ⟨108, 8⟩

def iamContcheck : Block := ⟨116, 4⟩

def iamEchocontrol : Block := ⟨120, 4⟩

def iamTransMedium : Block := ⟨124, 1⟩

def samSni : Block := ⟨0, sizeofPhonenum⟩

/-- The fields of `acm`, and of `con`, which is declared alike. -/
def acmBackInd : Block := ⟨0, 8⟩

def acmObcInd : Block := ⟨8, 4⟩

def conBackInd : Block := ⟨0, 8⟩

def conObcInd : Block := ⟨8, 4⟩

def anmObcInd : Block := ⟨0, 4⟩

def relCause : Block := ⟨0, 4⟩

def grsRange : Block := ⟨0, 4⟩

def graRangeStatus : Block := ⟨0, sizeofRangeAndStatus⟩

/-- The fields of `cgb`, and of `cgu` and `cua`, which are declared alike. -/
def cgbCgsmti : Block := ⟨0, 4⟩

def cgbRangeStatus : Block := ⟨4, sizeofRangeAndStatus⟩

def cguCgsmti : Block := ⟨0, 4⟩

def cguRangeStatus : Block := ⟨4, sizeofRangeAndStatus⟩

def cuaCgsmti : Block := ⟨0, 4⟩

def cuaRangeStatus : Block := ⟨4, sizeofRangeAndStatus⟩

def cprEventInfo : Block := ⟨0, 4⟩

def cprObcInd : Block := ⟨4, 4⟩

def susIndicator : Block := ⟨0, 4⟩

/-- **The field of a parameter** in the member for a type. `cga` has no member
of its own and is read from `cgb`; `sus` is for both its types. -/
def fieldOf : MsgType → ParameterCode → Option Block
  | .iam, .natureOfConnectionIndicators => some ⟨iamContcheck.base, 8⟩
  | .iam, .transmissionMediumRequirement => some iamTransMedium
  | .iam, .calledPartyNumber => some iamDni
  | .iam, .callingPartyNumber => some iamAni
  | .iam, .redirectingNumber => some iamRni
  | .iam, .redirectionInformation => some iamRedirInf
  | .sam, .subsequentNumber => some samSni
  | .acm, .backwardCallIndicators => some acmBackInd
  | .acm, .optionalBackwardCallIndicators => some acmObcInd
  | .con, .backwardCallIndicators => some conBackInd
  | .con, .optionalBackwardCallIndicators => some conObcInd
  | .anm, .optionalBackwardCallIndicators => some anmObcInd
  | .rel, .causeIndicators => some relCause
  | .sus, .suspendResumeIndicators => some susIndicator
  | .res, .suspendResumeIndicators => some susIndicator
  | .grs, .rangeAndStatus => some grsRange
  | .gra, .rangeAndStatus => some graRangeStatus
  | .cgb, .circuitGroupSupervisionMessageTypeIndicator => some cgbCgsmti
  | .cgb, .rangeAndStatus => some cgbRangeStatus
  | .cga, .circuitGroupSupervisionMessageTypeIndicator => some cgbCgsmti
  | .cga, .rangeAndStatus => some cgbRangeStatus
  | .cgu, .circuitGroupSupervisionMessageTypeIndicator => some cguCgsmti
  | .cgu, .rangeAndStatus => some cguRangeStatus
  | .cua, .circuitGroupSupervisionMessageTypeIndicator => some cuaCgsmti
  | .cua, .rangeAndStatus => some cuaRangeStatus
  | .cpr, .eventInformation => some cprEventInfo
  | .cpr, .optionalBackwardCallIndicators => some cprObcInd
  | _, _ => none

/-! ## The decoders -/

/-- Octets written from an address on. -/
structure Write where
  address : ℕ
  octets : List Octet
  deriving DecidableEq

/-- The octets that are written to. -/
def Write.block (w : Write) : Block := ⟨w.address, w.octets.length⟩

/-- An `int` is written. -/
def putInt (address v : ℕ) : Write :=
  ⟨address, [UInt8.ofNat v, UInt8.ofNat (v >>> 8), UInt8.ofNat (v >>> 16), UInt8.ofNat (v >>> 24)]⟩

/-- What a decoder returns and what it writes. -/
abbrev Decoding : Type := Option (Bool × List Write)

/-- A parameter that is too short. -/
def shortParameter : Decoding := some (false, [])

/-- A decoder of one `int`: the least length, the octet it is from, and how. -/
def decodeInt (least place : ℕ) (value : ℕ → ℕ) (data : ℕ) (p : List Octet) : Decoding :=
  if p.length < least then shortParameter
  else p[place]?.map fun o => (true, [putInt data (value o.toNat)])

/-- `decode_optional_backward_call_indicators` -/
def decodeOptionalBackwardCallIndicators : ℕ → List Octet → Decoding := decodeInt 1 0 (· &&& 0xf)

/-- `decode_event_info` -/
def decodeEventInfo : ℕ → List Octet → Decoding := decodeInt 1 0 (· &&& 0x7f)

/-- `decode_rel_cause` -/
def decodeRelCause : ℕ → List Octet → Decoding := decodeInt 2 1 (· &&& 0x7f)

/-- `decode_suspend_resume` -/
def decodeSuspendResume : ℕ → List Octet → Decoding := decodeInt 1 0 id

/-- `decode_range_no_status` -/
def decodeRangeNoStatus : ℕ → List Octet → Decoding := decodeInt 1 0 id

/-- `decode_backwards_ind` -/
def decodeBackwardsInd (data : ℕ) (p : List Octet) : Decoding :=
  if p.length < 2 then shortParameter
  else
    p[0]?.map fun o =>
      (true, [putInt data ((o.toNat >>> 2) &&& 0x3), putInt (data + 4) (o.toNat &&& 0x3)])

/-- `decode_range_and_status` -/
def decodeRangeAndStatus (data : ℕ) (p : List Octet) : Decoding :=
  if p.length < 1 then shortParameter
  else
    p[0]?.bind fun o =>
      let range := o.toNat
      if range = 0 then some (false, [putInt data range])
      else
        let statusLen := ((range + 1) + 7) / 8
        if p.length < 1 + statusLen then some (false, [putInt data range])
        else
          ((List.range statusLen).mapM fun k => p[1 + k]?).map fun status =>
            (true, [putInt data range, ⟨data + 4, status⟩])

/-- `decode_cgsmti` -/
def decodeCgsmti (data : ℕ) (p : List Octet) : Decoding :=
  if p.length < 1 then shortParameter
  else
    p[0]?.map fun o =>
      let cgsmti := o.toNat &&& 0x3
      if cgsmti ≠ 0 ∧ cgsmti ≠ 1 then (false, []) else (true, [putInt data cgsmti])

/-- `decode_noci_contcheck` -/
def decodeNociContcheck (iam : ℕ) (p : List Octet) : Decoding :=
  if p.length < 1 then shortParameter
  else
    p[0]?.map fun o =>
      (true, [putInt (iam + iamContcheck.base) (if (o.toNat >>> 2) &&& 0x3 = 0x1 then 1 else 0),
        putInt (iam + iamEchocontrol.base) ((o.toNat >>> 4) &&& 0x1)])

/-- `decode_transmission_medium` -/
def decodeTransmissionMedium (iam : ℕ) (p : List Octet) : Decoding :=
  if p.length < 1 then shortParameter
  else p[0]?.map fun o => (true, [⟨iam + iamTransMedium.base, [o]⟩])

/-- `decode_redir_inf` -/
def decodeRedirInf (data : ℕ) (p : List Octet) : Decoding :=
  if p.length < 1 then shortParameter
  else if p.length ≥ 2 then
    p[1]?.map fun o => (true, [putInt data 1, putInt (data + 4) ((o.toNat >>> 4) &&& 0xf)])
  else some (true, [putInt data 1, putInt (data + 4) 0])

/-- A character of `num`. -/
def putNum (data i : ℕ) (c : Octet) : Write := ⟨data + 12 + i, [c]⟩

/-- The loop of the decoders of numbers, with `left` digits to go, the `i`-th
the next, from the octet `j` on; behind it comes the terminator. -/
def putDigitsFrom (data : ℕ) (p : List Octet) : ℕ → ℕ → ℕ → Option (List Write)
  | 0, i, _ => some [putNum data i 0]
  | 1, i, j =>
    p[j]?.map fun o =>
      let dig := o.toNat &&& 0x0f
      if dig = 0xf then [putInt (data + 8) 1, putNum data i 0]
      else [putNum data i (UInt8.ofBitVec (digitChar dig)), putNum data (i + 1) 0]
  | left + 2, i, j =>
    p[j]?.bind fun o =>
      let dig := o.toNat &&& 0x0f
      let high := (o.toNat >>> 4) &&& 0xf
      if dig = 0xf then some [putInt (data + 8) 1, putNum data i 0]
      else if high = 0xf then
        some [putNum data i (UInt8.ofBitVec (digitChar dig)), putInt (data + 8) 1,
          putNum data (i + 1) 0]
      else
        (putDigitsFrom data p left (i + 2) (j + 1)).map fun rest =>
          putNum data i (UInt8.ofBitVec (digitChar dig)) ::
            putNum data (i + 1) (UInt8.ofBitVec (digitChar high)) :: rest

/-- `decode_isup_sni` -/
def decodeSni (data : ℕ) (p : List Octet) : Decoding :=
  if p.length < 2 then shortParameter
  else
    p[0]?.bind fun o =>
      let numDig := (p.length - 1) * 2 - if o.toNat &&& 0x80 ≠ 0 then 1 else 0
      (putDigitsFrom data p (min numDig phonenumMax) 0 1).map fun ws => (true, ws)

/-- `present`, `restricted` and `complete`. -/
def putPresentation (data present restricted complete : ℕ) : List Write :=
  [putInt data present, putInt (data + 4) restricted, putInt (data + 8) complete]

/-- The presentation that `decode_isup_phonenum` begins with. -/
def presentationOf (withPresentationRestrict : Bool) (data : ℕ) (p : List Octet) :
    Option (List Write) :=
  if withPresentationRestrict then
    p[1]?.map fun o =>
      let restrict := (o.toNat >>> 2) &&& 0x3
      if restrict = 1 then putPresentation data 1 1 0
      else if restrict = 2 then putPresentation data 0 0 1
      else putPresentation data 1 0 0
  else some (putPresentation data 1 0 0)

/-- `decode_isup_phonenum` -/
def decodePhonenum (withPresentationRestrict : Bool) (data : ℕ) (p : List Octet) : Decoding :=
  if p.length < 2 then shortParameter
  else
    (presentationOf withPresentationRestrict data p).bind fun presented =>
      let begun := presented ++ [⟨data + 12, List.replicate (phonenumMax + 1) 0⟩]
      if p.length = 2 then some (true, begun)
      else
        p[0]?.bind fun o =>
          let numDig := (p.length - 2) * 2 - if o.toNat &&& 0x80 ≠ 0 then 1 else 0
          let natureOfAdrInd := o.toNat &&& 0x7f
          if natureOfAdrInd = 0x70 ∨ natureOfAdrInd = 0x03 ∨ natureOfAdrInd = 0x01 then
            (putDigitsFrom data p (min numDig phonenumMax) 0 2).map fun ws => (true, begun ++ ws)
          else if natureOfAdrInd = 0x02 ∨ natureOfAdrInd = 0x04 then
            (putDigitsFrom data p (min (numDig + 2) phonenumMax - 2) 2 2).map fun ws =>
              (true, begun ++ putNum data 0 48 :: putNum data 1 48 :: ws)
          else some (false, begun)

/-- `decode_dni` -/
def decodeDni : ℕ → List Octet → Decoding := decodePhonenum false

/-- `decode_ani_rni` -/
def decodeAniRni : ℕ → List Octet → Decoding := decodePhonenum true

/-- The decoders. -/
inductive Decoder where
  | nociContcheck
  | transmissionMedium
  | dni
  | sni
  | aniRni
  | redirInf
  | backwardsInd
  | optionalBackwardCallIndicators
  | relCause
  | suspendResume
  | rangeNoStatus
  | rangeAndStatus
  | cgsmti
  | eventInfo
  deriving DecidableEq

/-- A decoder is called with its data and the octets of a parameter. -/
def Decoder.run : Decoder → ℕ → List Octet → Decoding
  | nociContcheck => decodeNociContcheck
  | transmissionMedium => decodeTransmissionMedium
  | dni => decodeDni
  | sni => decodeSni
  | aniRni => decodeAniRni
  | redirInf => decodeRedirInf
  | backwardsInd => decodeBackwardsInd
  | optionalBackwardCallIndicators => decodeOptionalBackwardCallIndicators
  | relCause => decodeRelCause
  | suspendResume => decodeSuspendResume
  | rangeNoStatus => decodeRangeNoStatus
  | rangeAndStatus => decodeRangeAndStatus
  | cgsmti => decodeCgsmti
  | eventInfo => decodeEventInfo

/-! ## The message -/

/-- A parameter with its decoder and the data for it. -/
structure Entry where
  code : ParameterCode
  decoder : Decoder
  data : ℕ
  deriving DecidableEq

/-- What is returned for a parameter. -/
def Entry.accepts (e : Entry) (p : List Octet) : Bool :=
  ((e.decoder.run e.data p).map Prod.fst).getD false

/-- An argument of `param_decode` for the fixed part, and for the others. -/
def fixedEntry (c : ParameterCode) (paramLen : ℕ) (d : Decoder) (data : ℕ) :
    ParameterCode × ℕ × Option Entry := (c, paramLen, some ⟨c, d, data⟩)

def entry (c : ParameterCode) (d : Decoder) (data : ℕ) : ParameterCode × Option Entry :=
  (c, some ⟨c, d, data⟩)

/-- The arguments for a group of circuits. -/
def groupSignature (cgsmti rangeStatus : Block) : Signature Entry where
  fixed := [fixedEntry .circuitGroupSupervisionMessageTypeIndicator 1 .cgsmti cgsmti.base]
  varying := [entry .rangeAndStatus .rangeAndStatus rangeStatus.base]
  optional := []

/-- **The arguments of `param_decode`** for a type. -/
def MsgType.signature : MsgType → Signature Entry
  | iam =>
    { fixed := [fixedEntry .natureOfConnectionIndicators 1 .nociContcheck 0,
        (.forwardCallIndicators, 2, none), (.callingPartysCategory, 1, none),
        fixedEntry .transmissionMediumRequirement 1 .transmissionMedium 0]
      varying := [entry .calledPartyNumber .dni iamDni.base]
      optional := [entry .callingPartyNumber .aniRni iamAni.base,
        entry .redirectingNumber .aniRni iamRni.base,
        entry .redirectionInformation .redirInf iamRedirInf.base] }
  | sam =>
    { fixed := []
      varying := [entry .subsequentNumber .sni samSni.base]
      optional := [] }
  | acm =>
    { fixed := [fixedEntry .backwardCallIndicators 2 .backwardsInd acmBackInd.base]
      varying := []
      optional := [entry .optionalBackwardCallIndicators .optionalBackwardCallIndicators
        acmObcInd.base] }
  | con =>
    { fixed := [fixedEntry .backwardCallIndicators 2 .backwardsInd conBackInd.base]
      varying := []
      -- the data is of `anm`
      optional := [entry .optionalBackwardCallIndicators .optionalBackwardCallIndicators
        anmObcInd.base] }
  | anm =>
    { fixed := []
      varying := []
      optional := [(.backwardCallIndicators, none),
        entry .optionalBackwardCallIndicators .optionalBackwardCallIndicators anmObcInd.base] }
  | rel =>
    { fixed := []
      varying := [entry .causeIndicators .relCause Union.relCause.base]
      optional := [] }
  | rlc => { fixed := [], varying := [], optional := [(.causeIndicators, none)] }
  | sus =>
    { fixed := [fixedEntry .suspendResumeIndicators 1 .suspendResume susIndicator.base]
      varying := []
      optional := [] }
  | res =>
    { fixed := [fixedEntry .suspendResumeIndicators 1 .suspendResume susIndicator.base]
      varying := []
      optional := [] }
  | grs =>
    { fixed := []
      varying := [entry .rangeAndStatus .rangeNoStatus grsRange.base]
      optional := [] }
  | gra =>
    { fixed := []
      varying := [entry .rangeAndStatus .rangeAndStatus graRangeStatus.base]
      optional := [] }
  | cgb => groupSignature cgbCgsmti cgbRangeStatus
  | cga => groupSignature cgbCgsmti cgbRangeStatus
  | cgu => groupSignature cguCgsmti cguRangeStatus
  | cua => groupSignature cuaCgsmti cuaRangeStatus
  | cpr =>
    { fixed := [fixedEntry .eventInformation 1 .eventInfo cprEventInfo.base]
      varying := []
      optional := [entry .optionalBackwardCallIndicators .optionalBackwardCallIndicators
        cprObcInd.base] }
  | blk => { fixed := [], varying := [], optional := [] }
  | bla => { fixed := [], varying := [], optional := [] }
  | rsc => { fixed := [], varying := [], optional := [] }
  | ubl => { fixed := [], varying := [], optional := [] }
  | uec => { fixed := [], varying := [], optional := [] }
  | ccr => { fixed := [], varying := [], optional := [] }
  | cot => { fixed := [], varying := [], optional := [] }

/-- What `decode_isup_msg` returns, and what the decoders have written, each
for its parameter. -/
structure Decoded where
  ok : Bool
  writes : List (ParameterCode × Write)

/-- The union behind some writes; it is all zeros before. -/
def stored (ws : List (ParameterCode × Write)) : ℕ → Octet :=
  storeAll (fun _ => 0) (ws.map fun w => (w.2.address, w.2.octets))

/-- What is written for a parameter. -/
def Entry.writes (e : Entry) (p : List Octet) : Option (List (ParameterCode × Write)) :=
  (e.decoder.run e.data p).map fun r => r.2.map fun w => (e.code, w)

/-- `decode_isup_msg` behind the header, with a union that is all zeros: what
it clears again for `iam` and `sam` is left out. -/
def decodeParams (typ : MsgType) (params : List Octet) : Option Decoded :=
  (paramDecode Entry.accepts params typ.signature).bind fun r =>
    (r.1.mapM fun (call : Entry × List Octet) => call.1.writes call.2).map fun ws => ⟨r.2, ws.flatten⟩

/-- The type of a message, and the octets behind the header, if there is a case
for it. -/
def caseOf (variant : Ss7Variant) (buf : List Octet) : Option (MsgType × List Octet) :=
  (decodeHeader variant buf).bind fun h => (MsgType.ofCode h.1.typ).map fun typ => (typ, h.2)

/-- **`decode_isup_msg`** -/
def decodeIsupMsg (variant : Ss7Variant) (buf : List Octet) : Option Decoded :=
  match caseOf variant buf with
  | none => some ⟨false, []⟩
  | some (typ, params) => decodeParams typ params

end Union

end Isup

end Trismedia
