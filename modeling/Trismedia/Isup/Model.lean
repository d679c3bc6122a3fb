import Trismedia.Mtp2.Model
/-!
# Messages of ISUP

How a message is built and taken apart, `channels/ss7/isup.c`. Behind the
routing label come the parameters of fixed length, a table of pointers with one
for each parameter of variable length and one to the optional part, the
parameters of variable length, and the optional part up to a 0. A pointer is
relative to its place.

The builder is given by the octets up to `*current`: what is behind them in the
buffer is written before it is read. What a function logs is left out.
-/


namespace Trismedia

namespace Isup

open Mtp2

/-! ## Construction -/

/-- `enum isup_parameter_code` -/
inductive ParameterCode where
  | transmissionMediumRequirement
  | calledPartyNumber
  | subsequentNumber
  | natureOfConnectionIndicators
  | forwardCallIndicators
  | callingPartysCategory
  | callingPartyNumber
  | redirectingNumber
  | backwardCallIndicators
  | causeIndicators
  | redirectionInformation
  | circuitGroupSupervisionMessageTypeIndicator
  | rangeAndStatus
  | eventInformation
  | optionalBackwardCallIndicators
  | suspendResumeIndicators
  | echoControlInformation
  | userServiceInformation
  | accessTransport
  deriving DecidableEq

/-- The number of a code. -/
def ParameterCode.code : ParameterCode → Octet
  | transmissionMediumRequirement => 0x2
  | calledPartyNumber => 0x4
  | subsequentNumber => 0x5
  | natureOfConnectionIndicators => 0x6
  | forwardCallIndicators => 0x7
  | callingPartysCategory => 0x9
  | callingPartyNumber => 0xa
  | redirectingNumber => 0xb
  | backwardCallIndicators => 0x11
  | causeIndicators => 0x12
  | redirectionInformation => 0x13
  | circuitGroupSupervisionMessageTypeIndicator => 0x15
  | rangeAndStatus => 0x16
  | eventInformation => 0x24
  | optionalBackwardCallIndicators => 0x29
  | suspendResumeIndicators => 0x22
  | echoControlInformation => 0x37
  | userServiceInformation => 0x1d
  | accessTransport => 0x03

/-- The octets up to `*current`, and `*variable_ptr`. -/
structure Building where
  buf : List Octet
  variablePtr : ℕ

/-- `isup_msg_init` -/
def isupMsgInit (buflen : ℕ) (variant : Ss7Variant) (opc dpc cic : ℕ) (msgType : Octet)
    (b : Building) : Building :=
  if buflen < 7 then b
  else
    { b with
      buf := mtp3PutLabel (cic &&& 0x000f) variant opc dpc ++
        [UInt8.ofNat (cic &&& 0xff), UInt8.ofNat ((cic &&& 0x0f00) >>> 8), msgType] }

/-- `isup_msg_add_fixed` -/
def isupMsgAddFixed (buflen : ℕ) (b : Building) (param : List Octet) : Building :=
  if param.length > 255 then b
  else if b.buf.length + param.length > buflen then b
  else { b with buf := b.buf ++ param }

/-- `isup_msg_start_variable_part` -/
def isupMsgStartVariablePart (buflen : ℕ) (b : Building) (numVariable : ℕ) (optional : Bool) :
    Building :=
  let neededSize := numVariable + if optional then 1 else 0
  if b.buf.length + neededSize > buflen then b
  else ⟨b.buf ++ List.replicate neededSize 0, b.buf.length⟩

/-- `isup_msg_add_variable` -/
def isupMsgAddVariable (buflen : ℕ) (b : Building) (param : List Octet) : Building :=
  if param.length > 255 then b
  else if b.variablePtr ≥ b.buf.length then b
  else if b.buf.length + 1 + param.length > buflen then b
  else if b.buf.length - b.variablePtr > 255 then b
  else
    ⟨b.buf.set b.variablePtr (UInt8.ofNat (b.buf.length - b.variablePtr)) ++
      UInt8.ofNat param.length :: param, b.variablePtr + 1⟩

/-- `isup_msg_start_optional_part` -/
def isupMsgStartOptionalPart (buflen : ℕ) (b : Building) : Building :=
  if b.variablePtr ≥ b.buf.length then b
  else if b.buf.length + 1 > buflen then b
  else if b.buf.length - b.variablePtr > 255 then b
  else ⟨b.buf.set b.variablePtr (UInt8.ofNat (b.buf.length - b.variablePtr)), b.variablePtr + 1⟩

/-- `isup_msg_add_optional` -/
def isupMsgAddOptional (buflen : ℕ) (b : Building) (paramType : ParameterCode)
    (param : List Octet) : Building :=
  if param.length > 255 then b
  else if b.buf.length + 2 + param.length > buflen then b
  else { b with buf := b.buf ++ paramType.code :: UInt8.ofNat param.length :: param }

/-- `isup_msg_end_optional_part` -/
def isupMsgEndOptionalPart (buflen : ℕ) (b : Building) : Building :=
  if b.buf.length + 1 > buflen then b else { b with buf := b.buf ++ [0] }

/-! ## Decoding -/

/-- What `decode_isup_msg` finds in front of the parameters. -/
structure Header where
  dpc : ℕ
  opc : ℕ
  sls : ℕ
  cic : ℕ
  typ : Octet
  deriving DecidableEq

/-- The first half of `decode_isup_msg`: the header and the octets behind it;
`none` if there are not enough. -/
def decodeHeader (variant : Ss7Variant) (buf : List Octet) : Option (Header × List Octet) :=
  let o i := (buf.getD i 0).toNat
  match variant with
  | .itu =>
    if buf.length < 7 then none
    else
      some
        ({ dpc := o 0 ||| ((o 1 &&& 0x3f) <<< 8)
           opc := ((o 1 &&& 0xc0) >>> 6) ||| (o 2 <<< 2) ||| ((o 3 &&& 0x0f) <<< 10)
           sls := (o 3 &&& 0xf0) >>> 4
           cic := o 4 ||| ((o 5 &&& 0x0f) <<< 8)
           typ := buf.getD 6 0 }, buf.drop 7)
  | .china =>
    if buf.length < 10 then none
    else
      some
        ({ dpc := o 0 ||| ((o 1 &&& 0xff) <<< 8) ||| ((o 2 &&& 0xff) <<< 16)
           opc := o 3 ||| ((o 4 &&& 0xff) <<< 8) ||| ((o 5 &&& 0xff) <<< 16)
           sls := o 6 &&& 0x0f
           cic := o 7 ||| ((o 8 &&& 0x0f) <<< 8)
           typ := buf.getD 9 0 }, buf.drop 10)

/-- The arguments of `param_decode`. A decoder is named by what it is given as
data, a `NULL` one is `none`. -/
structure Signature (δ : Type*) where
  fixed : List (ParameterCode × ℕ × Option δ)
  varying : List (ParameterCode × Option δ)
  optional : List (ParameterCode × Option δ)

/-- What one of the three parts comes to: the decoders called with their
octets, and where the next part begins unless 0 is returned. -/
structure Part (δ : Type*) where
  calls : List (δ × List Octet)
  next : Option ℕ

variable {δ : Type*}

/-- A part that returns 0. -/
def Part.refused : Part δ := ⟨[], none⟩

/-- A decoder is called, and what follows if it does not return 0. -/
def callDecoder (accepts : δ → List Octet → Bool) (decoder : Option δ) (p : List Octet)
    (rest : Option (Part δ)) : Option (Part δ) :=
  match decoder with
  | none => rest
  | some d =>
    if accepts d p then rest.map fun r => { r with calls := (d, p) :: r.calls }
    else some ⟨[(d, p)], none⟩

/-- The mandatory fixed part of `param_decode`. -/
def decodeFixed (accepts : δ → List Octet → Bool) (buf : List Octet) (i : ℕ) :
    List (ParameterCode × ℕ × Option δ) → Option (Part δ)
  | [] => some ⟨[], some i⟩
  | (_, paramLen, decoder) :: sig =>
    if i + paramLen > buf.length then some .refused
    else
      callDecoder accepts decoder ((buf.drop i).take paramLen)
        (decodeFixed accepts buf (i + paramLen) sig)

/-- The mandatory variable part. The length of a parameter is read before it is
known to be in the message: `none` is a read behind it. -/
def decodeVariable (accepts : δ → List Octet → Bool) (buf : List Octet) (i : ℕ) :
    List (ParameterCode × Option δ) → Option (Part δ)
  | [] => some ⟨[], some i⟩
  | (_, decoder) :: sig =>
    match buf[i]? with
    | none => some .refused
    | some pointer =>
      match buf[i + pointer.toNat]? with
      | none => none
      | some paramLen =>
        let paramStart := i + pointer.toNat + 1
        if paramStart + paramLen.toNat > buf.length then some .refused
        else
          callDecoder accepts decoder ((buf.drop paramStart).take paramLen.toNat)
            (decodeVariable accepts buf (i + 1) sig)

/-- The loop over the optional part. -/
def decodeOptional (accepts : δ → List Octet → Bool) (decoders : List (ParameterCode × Option δ))
    (buf : List Octet) (i : ℕ) : Option (Part δ) :=
  match buf[i]? with
  | none => some .refused
  | some type =>
    if type = 0 then some ⟨[], some i⟩
    else
      match buf[i + 1]? with
      | none => some .refused
      | some paramLen =>
        if i + 2 + paramLen.toNat > buf.length then some .refused
        else
          callDecoder accepts ((decoders.find? fun d => d.1.code = type).bind Prod.snd)
            ((buf.drop (i + 2)).take paramLen.toNat)
            (decodeOptional accepts decoders buf (i + 2 + paramLen.toNat))
  termination_by buf.length - i
  decreasing_by omega

/-- `param_decode`: the decoders called, and whether it returns 1. -/
def paramDecode (accepts : δ → List Octet → Bool) (buf : List Octet) (sig : Signature δ) :
    Option (List (δ × List Octet) × Bool) := do
  let fixed ← decodeFixed accepts buf 0 sig.fixed
  match fixed.next with
  | none => some (fixed.calls, false)
  | some i =>
    let varying ← decodeVariable accepts buf i sig.varying
    let calls := fixed.calls ++ varying.calls
    match varying.next with
    | none => some (calls, false)
    | some i =>
      if sig.optional.length > 100 then some (calls, false)
      else if sig.optional = [] then some (calls, true)
      else
        match buf[i]? with
        | none => some (calls, false)
        | some pointer =>
          if pointer = 0 then some (calls, true)
          else
            let optional ← decodeOptional accepts sig.optional buf (i + pointer.toNat)
            some (calls ++ optional.calls, optional.next.isSome)

end Isup

end Trismedia
